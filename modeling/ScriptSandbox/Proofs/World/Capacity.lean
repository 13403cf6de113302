import Mathlib.Data.List.Perm.Subperm
import ScriptSandbox.Proofs.World.Identity

/-
  How large the identity caches get.

  Between two sweeps a cache collects the entries of wrappers that have died, and how many it may
  collect was settled at the last sweep: twice what was left then. So the wrappers that are alive
  now say nothing about the number of entries, but those that were alive at some moment do. The
  invariant ties the three together (`IdentityCache.Capped`): there are no more entries than the
  limit, and the limit is one that the peak accounts for. Only making a wrapper needs an argument,
  since everything else adds no entry. A host value makes several wrappers on its way in, and lets
  none of them die, so that the peak at its end serves for all of them (`Fills`).
-/

namespace ScriptSandbox

namespace IdentityCache

variable {alive : Nat → Bool} {c : IdentityCache} {peak peak' : Nat}

/-- No more entries than the limit, and a limit that `peak` live wrappers account for. -/
structure Capped (peak : Nat) (c : IdentityCache) : Prop where
  entries : c.entries.length ≤ c.sweepAt
  limit : c.sweepAt ≤ max minSweep (2 * peak)

namespace Capped

theorem length_le (h : c.Capped peak) : c.entries.length ≤ max minSweep (2 * peak) :=
  Nat.le_trans h.entries h.limit

theorem empty : Capped peak empty := ⟨Nat.zero_le _, Nat.le_max_left _ _⟩

theorem purge (h : c.Capped peak) : (c.purge alive).1.Capped peak :=
  ⟨Nat.le_trans purge_sublist.length_le h.entries, h.limit⟩

/-- There is room for one entry more, and the live entries account for a new limit. -/
theorem makeRoom (h : c.Capped peak) (hl : c.liveCount alive ≤ peak) :
    (c.makeRoom alive).entries.length < (c.makeRoom alive).sweepAt ∧
      (c.makeRoom alive).sweepAt ≤ max minSweep (2 * peak) := by
  unfold IdentityCache.makeRoom
  split
  · have hleft : (c.purge alive).1.entries.length = c.liveCount alive := rfl
    dsimp only
    rw [hleft, minSweep]
    omega
  · next hroom => exact ⟨Nat.lt_of_not_le hroom, h.limit⟩

theorem insert (h : c.Capped peak) (hl : c.liveCount alive ≤ peak) (key : NativeKey)
    (wrapper : Nat) : (c.insert alive key wrapper).Capped peak := by
  obtain ⟨hroom, hlimit⟩ := h.makeRoom hl
  have hothers : ((c.makeRoom alive).entries.filter fun e => e.1 ≠ key).length ≤
      (c.makeRoom alive).entries.length := List.length_filter_le _ _
  exact ⟨Nat.le_trans (Nat.succ_le_succ hothers) hroom, hlimit⟩

end Capped

/-- A purge counts the dead entries. -/
theorem purge_count (alive : Nat → Bool) (c : IdentityCache) :
    (c.purge alive).2 = (c.entries.filter fun e => !alive e.2).length := by
  have hsplit := c.entries.length_eq_length_filter_add fun e => alive e.2
  rw [purge]
  omega

end IdentityCache

/-- The largest number of wrappers of a kind that are alive in a realm at one moment of a run. -/
def WrapperEvent.peak {E : Type} [Embedding E] (k : WrapperKind) (realm : RealmId) (w : World E) :
    List WrapperEvent → Nat
  | [] => (w.liveWrappers k realm).length
  | event :: rest => max (w.liveWrappers k realm).length (peak k realm (event.apply w) rest)

namespace World

variable {E : Type} {k : WrapperKind} {w w' : World E} {realm : RealmId} {peak : Nat}

/-! ## Making wrappers -/

theorem liveWrappers_length_le (h : ∀ {id x}, w.wrapper? k id = some x → w'.wrapper? k id = some x) :
    (w.liveWrappers k realm).length ≤ (w'.liveWrappers k realm).length := by
  refine (List.Nodup.subperm (nodup_liveWrappers k realm w) fun id hid => ?_).length_le
  obtain ⟨x, hx, hlive⟩ := mem_liveWrappers.mp hid
  exact mem_liveWrappers.mpr ⟨x, h hx, hlive⟩

/-- Wrappers are made and none dies. A cache is no larger than the wrappers account for that are
    alive afterwards. -/
structure Fills (k : WrapperKind) (realm : RealmId) (w w' : World E) : Prop where
  continues : Continues w w'
  kept : ∀ {id x}, w.wrapper? k id = some x → w'.wrapper? k id = some x
  capped : ∀ {peak}, Faithful k w → (w'.liveWrappers k realm).length ≤ peak →
    ((w.realm realm).cache k).Capped peak → ((w'.realm realm).cache k).Capped peak

theorem Fills.refl (w : World E) : Fills k realm w w := ⟨.refl w, id, fun _ _ h => h⟩

theorem Fills.trans {w'' : World E} (h : Fills k realm w w') (h' : Fills k realm w' w'') :
    Fills k realm w w'' where
  continues := h.continues.trans h'.continues
  kept hx := h'.kept (h.kept hx)
  capped hf hl hc :=
    have hl' := Nat.le_trans (liveWrappers_length_le h'.kept) hl
    h'.capped (h.continues.faithful hf) hl (h.capped hf hl' hc)

theorem fills_newText (s : String) (w : World E) : Fills k realm w (w.newText s).2 := by
  refine ⟨continues_newText s w, fun {id x} hx => ?_, fun {peak} _ _ hc => ?_⟩
  · unfold newText
    split <;> cases k <;> exact hx
  · unfold newText
    split <;> exact hc

theorem fills_newArray (elements : Array Value) (w : World E) :
    Fills k realm w (w.newArray elements).2 :=
  ⟨continues_newArray elements w, fun hx => by cases k <;> exact hx, fun _ _ hc => hc⟩

theorem fills_wrap {r : RealmId} (h : r < w.realms.size) (j : WrapperKind) (n : Native) :
    Fills k realm w (w.wrap j r n).2 := by
  cases hw : w.wrapperOf? j r n with
  | some id =>
    rw [wrap_of_some hw]
    exact .refl w
  | none =>
    rw [wrap_of_none hw]
    have hkept : ∀ {id x}, w.wrapper? k id = some x → (w.make j r n).wrapper? k id = some x :=
      wrapper?_make_old
    refine ⟨continues_make h hw, hkept, fun {peak} hf hl hc => ?_⟩
    by_cases hsame : k = j ∧ realm = r
    · obtain ⟨rfl, rfl⟩ := hsame
      rw [cache_make_self h]
      refine hc.insert ?_ n.key _
      rw [← cached_eq, hf.cached_eq_length]
      exact Nat.le_trans (liveWrappers_length_le hkept) hl
    · rw [cache_make_of_ne (not_and_or.mp hsame)]
      exact hc

theorem fills_link (r : RealmId) (value : HostValue) (w : World E) (h : r < w.realms.size) :
    Fills k realm w (w.link r value).2 :=
  AdmitsLinks.guarded (R := fun u v => r < u.realms.size → Fills k realm u v)
    ⟨fun _ _ => .refl _, fun h h' hu =>
      (h hu).trans (h' (Nat.lt_of_lt_of_le hu (h hu).continues.realms)),
      fun s w _ => fills_newText s w, fun elements w _ => fills_newArray elements w,
      fun n _ hu => fills_wrap hu .link n⟩ value w h

theorem fills_fromHostIn [Embedding E] (realm? : Option RealmId) (value : HostValue)
    (w : World E) (h : ∀ r ∈ realm?, r < w.realms.size) :
    Fills k realm w (w.fromHostIn realm? value).2 :=
  Admits.fromHostIn (R := fun u v => (∀ r ∈ realm?, r < u.realms.size) → Fills k realm u v)
    ⟨fun _ _ => .refl _, fun h h' hu => (h hu).trans (h' fun r hr =>
      Nat.lt_of_lt_of_le (hu r hr) (h hu).continues.realms),
      fun s w _ => fills_newText s w, fun elements w _ => fills_newArray elements w,
      fun hr n _ hu => fills_wrap (hu _ hr) .bridge n⟩ value w h

/-! ## Runs -/

section Runs

variable [Embedding E]

theorem cache_collect (hand : List Thing) (k : WrapperKind) (r : RealmId) (w : World E) :
    ((w.collect hand).realm r).cache k = (w.realm r).cache k := by
  unfold collect
  split <;> rfl

/-- What one event leaves of a cache is accounted for by a peak that covers the world after it. -/
theorem capped_apply (hf : Faithful k w) (event : WrapperEvent)
    (hl : ((event.apply w).liveWrappers k realm).length ≤ peak)
    (hc : ((w.realm realm).cache k).Capped peak) :
    (((event.apply w).realm realm).cache k).Capped peak := by
  unfold WrapperEvent.apply at hl ⊢
  split
  · next h =>
    rw [if_pos h] at hl
    have hrealm : ∀ {r}, event.realm? = some r → r < w.realms.size := fun {r} hr => by
      rw [hr, Option.all_some] at h
      exact of_decide_eq_true h
    cases event with
    | newRealm p => exact (cache_newRealm p k realm w).symm ▸ hc
    | registerWellKnown r n v => exact (cache_registerWellKnown r n v k realm w).symm ▸ hc
    | wrap j r n => exact (fills_wrap (hrealm rfl) j n).capped hf hl hc
    | link r value => exact (fills_link r value w (hrealm rfl)).capped hf hl hc
    | fromHost realm? value =>
      exact (fills_fromHostIn realm? value w fun _ => hrealm).capped hf hl hc
    | expire dies => exact hc
    | collect hand => exact (cache_collect hand k realm w).symm ▸ hc
    | purge r =>
      by_cases hr : realm = r
      · subst hr
        exact (cache_purge k realm w).symm ▸ hc.purge
      · exact (congrArg (Realm.cache · k) (realm_purge_of_ne hr w)).symm ▸ hc
  · exact hc

theorem length_le_peak (k : WrapperKind) (realm : RealmId) (w : World E)
    (events : List WrapperEvent) :
    (w.liveWrappers k realm).length ≤ WrapperEvent.peak k realm w events := by
  cases events with
  | nil => exact Nat.le_refl _
  | cons event rest => exact Nat.le_max_left _ _

theorem capped_run (events : List WrapperEvent) (hf : Faithful k w)
    (hp : WrapperEvent.peak k realm w events ≤ peak)
    (hc : ((w.realm realm).cache k).Capped peak) :
    (((WrapperEvent.run w events).realm realm).cache k).Capped peak := by
  induction events generalizing w with
  | nil => exact hc
  | cons event rest ih =>
    have hrest : WrapperEvent.peak k realm (event.apply w) rest ≤ peak :=
      Nat.le_trans (Nat.le_max_right _ _) hp
    have hl := Nat.le_trans (length_le_peak k realm (event.apply w) rest) hrest
    exact ih ((continues_apply w event).faithful hf) hrest (capped_apply hf event hl hc)

/-- Whether an entry is live: its host object and its wrapper are alive. -/
def entryLive (nativeLive : NativeKey → Bool) (w : World E) (k : WrapperKind)
    (entry : NativeKey × Nat) : Bool := nativeLive entry.1 && w.wrapperLive k entry.2

/-- Whatever happens to wrappers, a cache never has more entries than 64 or twice the largest
    number of its wrappers that were alive at once, the dead entries included. A purge returns the
    number of dead entries and leaves the live ones. That live wrappers keep their host objects
    alive is all that is assumed of the latter. -/
theorem dead_entries_bounded (e : E) (events : List WrapperEvent) :
    let w := WrapperEvent.run (empty e) events
    (∀ k realm, ((w.realm realm).cache k).entries.length ≤
      max 64 (2 * WrapperEvent.peak k realm (empty e) events)) ∧
    ∀ nativeLive : NativeKey → Bool,
      (∀ {k id x}, w.wrapper? k id = some x → x.live = true → nativeLive x.native.key = true) →
      ∀ realm,
        (∀ k, (((w.purge realm).2.realm realm).cache k).entries =
          ((w.realm realm).cache k).entries.filter (entryLive nativeLive w k)) ∧
        (w.purge realm).1 =
          ((w.realm realm).bridges.entries.filter fun x => !entryLive nativeLive w .bridge x).length +
            ((w.realm realm).links.entries.filter fun x => !entryLive nativeLive w .link x).length := by
  intro w
  have hf : ∀ k, Faithful k w := fun k => (continues_run _ events).faithful (faithful_empty k e)
  refine ⟨fun k realm => ?_, fun nativeLive hkeep realm => ?_⟩
  · refine (capped_run events (faithful_empty k e) (Nat.le_refl _) ?_).length_le
    cases k <;> exact .empty
  · have hlive : ∀ k, ∀ x ∈ ((w.realm realm).cache k).entries,
        entryLive nativeLive w k x = w.wrapperLive k x.2 :=
      fun k _ hx => (hf k).native_live hx hkeep
    have hdead : ∀ k, (((w.realm realm).cache k).purge (w.wrapperLive k)).2 =
        (((w.realm realm).cache k).entries.filter fun x => !entryLive nativeLive w k x).length := by
      intro k
      rw [IdentityCache.purge_count]
      exact congrArg List.length (List.filter_congr fun x hx => by rw [hlive k x hx])
    refine ⟨fun k => ?_, congrArg₂ (· + ·) (hdead .bridge) (hdead .link)⟩
    rw [entries_purge]
    exact List.filter_congr fun x hx => (hlive k x hx).symm

/-- Of three links of which two were alive at once, one is dead, and a purge finds it. -/
theorem dead_entries_bounded_relinked :
    let events : List WrapperEvent := [.newRealm .allow, .wrap .link 0 (.hosted 0),
      .wrap .link 0 (.hosted 1), .expire fun _ id => id == 0, .wrap .link 0 (.hosted 2)]
    let w := WrapperEvent.run (empty (Session.ofRecords #[])) events
    let nativeLive : NativeKey → Bool := fun _ => true
    ((w.realm 0).cache .link).entries.length ≤ 64 ∧
      (∀ {k id x}, w.wrapper? k id = some x → x.live = true → nativeLive x.native.key = true) ∧
      (w.purge 0).1 = 1 ∧
      (((w.purge 0).2.realm 0).cache .link).entries.map (·.2) = [2, 1] := by
  intro events w nativeLive
  obtain ⟨hbound, hpurge⟩ := dead_entries_bounded (Session.ofRecords #[]) events
  have hpeak : WrapperEvent.peak .link 0 (empty (Session.ofRecords #[])) events = 2 := by
    decide +kernel
  have hkeep : ∀ {k id x}, w.wrapper? k id = some x → x.live = true →
      nativeLive x.native.key = true := fun _ _ => rfl
  obtain ⟨hleft, hcount⟩ := hpurge nativeLive hkeep 0
  have hlink : ((w.realm 0).cache .link).entries.length ≤ max 64 (2 * 2) := hpeak ▸ hbound .link 0
  refine ⟨hlink, hkeep, hcount.trans ?_, (congrArg _ (hleft .link)).trans ?_⟩ <;> decide +kernel

end Runs

end World

end ScriptSandbox

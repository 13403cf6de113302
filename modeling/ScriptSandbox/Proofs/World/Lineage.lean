import ScriptSandbox.Proofs.Capability.Minting
import ScriptSandbox.Proofs.World.Elementary
import ScriptSandbox.Proofs.World.Identity

/-
  Worlds that come about.

  A world starts out empty. Then wrappers and realms are dealt with (`WrapperEvent`), and between
  such events anything may happen that wrappers and realms do not notice (`Neutral`). Whatever world
  comes about in this way is orderly: its caches are faithful, and a number that the runtime has yet
  to give to a host object is not registered anywhere (`Arises.orderly`). So a new bookmark is never
  mistaken for a host object with a well-known value.
-/

namespace ScriptSandbox.World

variable {E : Type} {k : WrapperKind} {w w' w'' : World E} {realm : RealmId} {n : Native}

/-! ## Changes that wrappers do not notice -/

/-- Wrappers, caches and well-known values stay what they are. -/
structure Neutral (w w' : World E) : Prop where
  wrappers : ∀ k id, w'.wrapper? k id = w.wrapper? k id
  caches : ∀ k r, (w'.realm r).cache k = (w.realm r).cache k
  wellKnown : ∀ r, (w'.realm r).wellKnown = (w.realm r).wellKnown
  realms : w.realms.size ≤ w'.realms.size
  next : w.nextNative ≤ w'.nextNative

namespace Neutral

theorem of_eq (bridges : w'.bridges = w.bridges) (links : w'.links = w.links)
    (realms : w'.realms = w.realms) (next : w.nextNative ≤ w'.nextNative) : Neutral w w' where
  wrappers k id := by cases k <;> simp only [wrapper?, bridges, links]
  caches k r := by rw [World.realm, World.realm, realms]
  wellKnown r := by rw [World.realm, World.realm, realms]
  realms := Nat.le_of_eq (congrArg Array.size realms.symm)
  next := next

theorem refl (w : World E) : Neutral w w := .of_eq rfl rfl rfl (Nat.le_refl _)

theorem trans (h : Neutral w w') (h' : Neutral w' w'') : Neutral w w'' where
  wrappers k id := (h'.wrappers k id).trans (h.wrappers k id)
  caches k r := (h'.caches k r).trans (h.caches k r)
  wellKnown r := (h'.wellKnown r).trans (h.wellKnown r)
  realms := Nat.le_trans h.realms h'.realms
  next := Nat.le_trans h.next h'.next

theorem continues (h : Neutral w w') : Continues w w' := by
  refine Fades.continues ⟨fun k id => ⟨false, ?_⟩, fun k r => ?_, fun {k r e} he _ => ?_⟩ h.realms
  · simp only [h.wrappers, Bool.not_false, Bool.and_true, Option.map_id']
  · rw [h.caches]
  · rw [h.caches]
    exact he

theorem wrapperOf? (h : Neutral w w') (k : WrapperKind) (realm : RealmId) (n : Native) :
    w'.wrapperOf? k realm n = w.wrapperOf? k realm n := by
  have hlive : w'.wrapperLive k = w.wrapperLive k := funext fun id => by
    rw [wrapperLive_eq, wrapperLive_eq, h.wrappers]
  rw [World.wrapperOf?, World.wrapperOf?, h.caches, hlive]

theorem wellKnown? (h : Neutral w w') (realm : RealmId) (n : Native) :
    w'.wellKnown? realm n = w.wellKnown? realm n := by
  rw [World.wellKnown?, World.wellKnown?, h.wellKnown]

end Neutral

theorem neutral_newText (s : String) (w : World E) : Neutral w (w.newText s).2 := by
  unfold newText
  split <;> exact .of_eq rfl rfl rfl (Nat.le_refl _)

theorem neutral_modifyLink {f : Link → Link}
    (hf : ∀ l, (f l).realm = l.realm ∧ (f l).native = l.native ∧ (f l).live = l.live)
    (id : LinkId) (w : World E) : Neutral w (w.modifyLink id f) where
  wrappers k i := by
    cases k with
    | bridge => rfl
    | link =>
      simp only [wrapper?, modifyLink, Array.getElem?_modify]
      split
      · rw [Option.map_map]
        refine congrArg (Option.map · _) (funext fun l => ?_)
        obtain ⟨hr, hn, hl⟩ := hf l
        simp only [Function.comp_apply, hr, hn, hl]
      · rfl
  caches _ _ := rfl
  wellKnown _ := rfl
  realms := Nat.le_refl _
  next := Nat.le_refl _

/-! ## What is registered -/

/-- Nothing is registered in addition, and no number is taken back. -/
structure Withholds (w w' : World E) : Prop where
  wellKnown : ∀ r, ∀ e ∈ (w'.realm r).wellKnown, e ∈ (w.realm r).wellKnown
  next : w.nextNative ≤ w'.nextNative

namespace Withholds

theorem of_realms (realms : w'.realms = w.realms) (next : w.nextNative ≤ w'.nextNative) :
    Withholds w w' := by
  refine ⟨fun r e he => ?_, next⟩
  rw [World.realm, realms] at he
  exact he

theorem refl (w : World E) : Withholds w w := .of_realms rfl (Nat.le_refl _)

theorem trans (h : Withholds w w') (h' : Withholds w' w'') : Withholds w w'' :=
  ⟨fun r e he => h.wellKnown r e (h'.wellKnown r e he), Nat.le_trans h.next h'.next⟩

end Withholds

theorem wellKnown_wrap (k : WrapperKind) (realm : RealmId) (n : Native) (w : World E)
    (r : RealmId) : ((w.wrap k realm n).2.realm r).wellKnown = (w.realm r).wellKnown := by
  cases hw : w.wrapperOf? k realm n with
  | some id => rw [wrap_of_some hw]
  | none =>
    rw [wrap_of_none hw]
    cases k <;>
    exact realm_modifyRealm (P := fun x => x.wellKnown = (w.realm r).wellKnown) rfl id

theorem nextNative_wrap (k : WrapperKind) (realm : RealmId) (n : Native) (w : World E) :
    (w.wrap k realm n).2.nextNative = w.nextNative := by
  cases hw : w.wrapperOf? k realm n with
  | some id => rw [wrap_of_some hw]
  | none =>
    rw [wrap_of_none hw]
    cases k <;> rfl

theorem withholds_wrap (k : WrapperKind) (realm : RealmId) (n : Native) (w : World E) :
    Withholds w (w.wrap k realm n).2 :=
  ⟨fun r e he => by rwa [wellKnown_wrap] at he, Nat.le_of_eq (nextNative_wrap k realm n w).symm⟩

theorem Elementary.withholds [Embedding E] {allows : Allowance} (h : Elementary allows w w') :
    Withholds w w' := by
  cases h with
  | text s =>
    unfold newText
    split <;> exact .of_realms rfl (Nat.le_refl _)
  | collect hand =>
    unfold World.collect
    split <;> exact .of_realms rfl (Nat.le_refl _)
  | error name message => exact .of_realms rfl (Nat.le_succ _)
  | bookmark target => exact .of_realms rfl (Nat.le_succ _)
  | bridge realm n => exact withholds_wrap .bridge realm n w
  | link realm n => exact withholds_wrap .link realm n w
  | _ => exact .of_realms rfl (Nat.le_refl _)

theorem Changes.withholds [Embedding E] {allows : Allowance} (h : Changes allows w w') :
    Withholds w w' := by
  induction h with
  | refl => exact .refl w
  | tail _ h ih => exact ih.trans h.withholds

/-! ## Orderly worlds -/

/-- The caches are faithful, and what the runtime has yet to make is not registered. -/
structure Orderly (w : World E) : Prop where
  faithful : ∀ k, Faithful k w
  registered : ∀ r {serial v}, (NativeKey.made serial, v) ∈ (w.realm r).wellKnown →
    serial < w.nextNative

namespace Orderly

theorem later (h : Orderly w) (hc : Continues w w') (hw : Withholds w w') : Orderly w' where
  faithful k := hc.faithful (h.faithful k)
  registered r _ _ he := Nat.lt_of_lt_of_le (h.registered r (hw.wellKnown r _ he)) hw.next

theorem neutral (h : Orderly w) (hn : Neutral w w') : Orderly w' :=
  h.later hn.continues ⟨fun r _ he => by rwa [hn.wellKnown r] at he, hn.next⟩

/-- A host object that the runtime is yet to make has no well-known value. -/
theorem wellKnown?_eq_none (h : Orderly w) (realm : RealmId) {serial : Nat}
    (hn : n.key = .made serial) (hs : w.nextNative ≤ serial) : w.wellKnown? realm n = none := by
  cases hv : w.wellKnown? realm n with
  | none => rfl
  | some v =>
    rw [wellKnown?, hn] at hv
    exact absurd (h.registered realm (mem_of_lookupKey hv)) (Nat.not_lt.mpr hs)

end Orderly

end ScriptSandbox.World

namespace ScriptSandbox

/-- What is registered, exists: the runtime made it before. -/
def WrapperEvent.Timely {E : Type} (w : World E) : WrapperEvent → Prop
  | registerWellKnown _ n _ => n.Before w.nextNative
  | _ => True

namespace World

variable {E : Type} [Embedding E] {w w' : World E}

theorem Orderly.apply (h : Orderly w) {event : WrapperEvent} (ht : event.Timely w) :
    Orderly (event.apply w) := by
  have hc := continues_apply w event
  unfold WrapperEvent.apply at hc ⊢
  split
  case isFalse => exact h
  case isTrue hreal =>
    rw [if_pos hreal] at hc
    cases event with
    | newRealm p =>
      refine h.later hc ⟨fun r e he => ?_, Nat.le_refl _⟩
      simp only [WrapperEvent.effect, newRealm, World.realm, Array.getElem?_push] at he ⊢
      split at he
      · cases he
      · exact he
    | registerWellKnown realm n v =>
      refine ⟨fun k => hc.faithful (h.faithful k), fun r {serial u} he => ?_⟩
      refine realm_modifyRealm (P := fun x => ∀ {serial u},
        (NativeKey.made serial, u) ∈ x.wellKnown → serial < w.nextNative)
        (h.registered r) (fun hold serial u he => ?_) he
      rcases List.mem_cons.mp he with heq | hmem
      · exact ht serial (congrArg Prod.fst heq).symm
      · exact hold (List.mem_of_mem_filter hmem)
    | wrap k realm n => exact h.later hc (withholds_wrap k realm n w)
    | link realm value =>
      have hchanges : Changes .nothing w (w.link realm value).2 := changes_link realm value w
      exact h.later hc hchanges.withholds
    | fromHost realm? value =>
      have hchanges : Changes .nothing w (w.fromHostIn realm? value).2 :=
        changes_fromHostIn realm? value w
      exact h.later hc hchanges.withholds
    | expire dies => exact h.later hc (.of_realms rfl (Nat.le_refl _))
    | collect hand =>
      have hchange : Elementary .nothing w (w.collect hand) := .collect hand w
      exact h.later hc hchange.withholds
    | purge realm =>
      refine h.later hc ⟨fun r => ?_, Nat.le_refl _⟩
      by_cases hr : r = realm
      · subst hr
        exact realm_modifyRealm (P := fun x => ∀ e ∈ x.wellKnown, e ∈ (w.realm r).wellKnown)
          (fun _ he => he) fun _ _ he => List.mem_of_mem_filter he
      · simp only [WrapperEvent.effect, realm_purge_of_ne hr]
        exact fun _ he => he

/-- A world that comes about from an empty one by what is done to wrappers and realms and by all
    that these do not notice. -/
inductive Arises : World E → Prop
  | empty (e : E) : Arises (empty e)
  | event {w : World E} (h : Arises w) (event : WrapperEvent) (timely : event.Timely w) :
    Arises (event.apply w)
  | neutral {w w' : World E} (h : Arises w) (change : Neutral w w') : Arises w'

theorem Arises.orderly (h : w.Arises) : w.Orderly := by
  induction h with
  | empty e =>
    refine ⟨fun k => faithful_empty k e, fun r {_ _} he => ?_⟩
    cases he
  | event _ event timely ih => exact ih.apply timely
  | neutral _ change ih => exact ih.neutral change

/-- What the operations of the sandbox do to a world is such an event or goes unnoticed. Only a
    wrapper of a realm that does not exist would be neither. -/
theorem Arises.elementary {allows : Allowance} (h : w.Arises) (change : Elementary allows w w') :
    w'.Arises ∨ ∃ k realm n, w.realms.size ≤ realm ∧ w' = (w.wrap k realm n).2 := by
  have hwrap (k : WrapperKind) (realm : RealmId) (n : Native) : (w.wrap k realm n).2.Arises ∨
      ∃ j r m, w.realms.size ≤ r ∧ (w.wrap k realm n).2 = (w.wrap j r m).2 := by
    by_cases hr : realm < w.realms.size
    · have hevent := h.event (.wrap k realm n) trivial
      rw [WrapperEvent.apply, if_pos (by simpa [WrapperEvent.realm?] using hr)] at hevent
      exact .inl hevent
    · exact .inr ⟨k, realm, n, Nat.le_of_not_lt hr, rfl⟩
  cases change with
  | bridge realm n => exact hwrap .bridge realm n
  | link realm n => exact hwrap .link realm n
  | collect hand => exact .inl (h.event (.collect hand) trivial)
  | text s => exact .inl (h.neutral (neutral_newText s w))
  | add _ =>
    refine .inl (h.neutral (neutral_modifyLink (fun l => ?_) _ w))
    exact ⟨rfl, rfl, rfl⟩
  | remove _ =>
    refine .inl (h.neutral (neutral_modifyLink (fun l => ?_) _ w))
    exact ⟨rfl, rfl, rfl⟩
  | error _ _ => exact .inl (h.neutral (.of_eq rfl rfl rfl (Nat.le_succ _)))
  | bookmark _ => exact .inl (h.neutral (.of_eq rfl rfl rfl (Nat.le_succ _)))
  | _ => exact .inl (h.neutral (.of_eq rfl rfl rfl (Nat.le_refl _)))

end World

end ScriptSandbox

import ScriptSandbox.Operation.Failure
import ScriptSandbox.Proofs.World.Entry

/-
  Changes that no script and no host asked for.

  Allocating, converting, wrapping and marking the dead happen behind every operation. Such a change
  is calm: it leaves the state of the embedding alone, a link that there was keeps its realm, its
  host object and the names created through it and does not come back to life, and a link that is
  new has created nothing. `calm_collect`, `calm_scriptError`, `calm_link` and `calm_toHost` say so
  of the operations of the world that are built from such changes.
-/

namespace ScriptSandbox.World

variable {E : Type}

/-- What allocation and marking may do to the links and the embedding. -/
structure Calm (w w' : World E) : Prop where
  embedding : w'.embedding = w.embedding
  kept : ∀ {id : LinkId} {l : Link}, w.links[id]? = some l →
    ∃ live, w'.links[id]? = some { l with live := live } ∧ (live = true → l.live = true)
  fresh : ∀ {id : LinkId} {l : Link}, w'.links[id]? = some l → w.links[id]? = none → l.created = ∅

namespace Calm

theorem of_eq {w w' : World E} (he : w'.embedding = w.embedding) (hl : w'.links = w.links) :
    Calm w w' where
  embedding := he
  kept h := ⟨_, by rw [hl]; exact h, id⟩
  fresh h hn := by rw [hl, hn] at h; exact absurd h (by simp)

theorem refl (w : World E) : Calm w w := of_eq rfl rfl

theorem trans {u v w : World E} (h : Calm u v) (k : Calm v w) : Calm u w where
  embedding := k.embedding.trans h.embedding
  kept hl := by
    obtain ⟨a, hv, ha⟩ := h.kept hl
    obtain ⟨b, hw, hb⟩ := k.kept hv
    exact ⟨b, hw, fun e => ha (hb e)⟩
  fresh {id l} hl hn := by
    cases hv : v.links[id]? with
    | none => exact k.fresh hl hv
    | some m =>
      obtain ⟨b, hw, -⟩ := k.kept hv
      rw [hl, Option.some_inj] at hw
      subst hw
      exact h.fresh (l := m) hv hn

/-- A link of the later state is a link of the earlier one, or it has created nothing. -/
theorem link_cases {w w' : World E} (h : Calm w w') {id : LinkId} {l' : Link}
    (hl : w'.links[id]? = some l') :
    (∃ l, w.links[id]? = some l ∧ l'.native = l.native ∧ l'.created = l.created ∧
      (l'.live = true → l.live = true)) ∨ l'.created = ∅ := by
  cases hw : w.links[id]? with
  | none => exact .inr (h.fresh hl hw)
  | some l =>
    obtain ⟨b, hb, hlive⟩ := h.kept hw
    rw [hl, Option.some_inj] at hb
    subst hb
    exact .inl ⟨l, rfl, rfl, rfl, hlive⟩

theorem linkNative? {w w' : World E} (h : Calm w w') {id : LinkId} {n : Native}
    (hn : w.linkNative? id = some n) : w'.linkNative? id = some n := by
  simp only [World.linkNative?, Option.map_eq_some_iff] at hn ⊢
  obtain ⟨l, hl, rfl⟩ := hn
  obtain ⟨b, hb, -⟩ := h.kept hl
  exact ⟨_, hb, rfl⟩

end Calm

/-! ## Allocating and holding -/

theorem calm_newText (s : String) (w : World E) : Calm w (w.newText s).2 := by
  unfold newText
  split <;> exact .of_eq rfl rfl

theorem calm_newString (s : String) (w : World E) : Calm w (w.newString s).2 := calm_newText s w

theorem calm_hold (things : List Thing) (w : World E) : Calm w (w.hold things) := .of_eq rfl rfl

theorem calm_letGo (things : List Thing) (w : World E) : Calm w (w.letGo things) := .of_eq rfl rfl

theorem calm_bridge (realm : RealmId) (n : Native) (w : World E) : Calm w (w.bridge realm n).2 := by
  unfold bridge
  split <;> exact .of_eq rfl rfl

theorem calm_newestLink (realm : RealmId) (n : Native) (w : World E) :
    Calm w (w.newestLink realm n).2 := by
  unfold newestLink
  split
  · exact .refl w
  · refine ⟨rfl, fun {id l} hl => ⟨l.live, ?_, fun h => h⟩, fun {id l} hl hn => ?_⟩
    · have hlt : id < w.links.size := (Array.getElem?_eq_some_iff.mp hl).1
      show (w.links.push _)[id]? = _
      rw [Array.getElem?_push_lt hlt, ← Array.getElem?_eq_getElem hlt, hl]
    · change (w.links.push _)[id]? = _ at hl
      rw [Array.getElem?_push] at hl
      split at hl
      · cases hl; rfl
      · rw [hn] at hl; cases hl

theorem calm_collect [Embedding E] (hand : List Thing) (w : World E) :
    Calm w (w.collect hand) := by
  unfold collect
  split
  · exact .refl w
  · refine ⟨rfl, fun {id l} hl => ?_, fun {id l} hl hn => ?_⟩
    · refine ⟨_, by simp only [Array.getElem?_mapIdx, hl, Option.map_some]; rfl, fun h => ?_⟩
      exact (Bool.and_eq_true_iff.mp h).1
    · simp only [Array.getElem?_mapIdx, hn, Option.map_none] at hl
      cases hl

theorem calm_scriptError [Embedding E] (realm : RealmId) (name message : String) (w : World E) :
    Calm w (w.scriptError realm name message).2 :=
  (calm_collect [] w).trans <|
    Calm.trans (v := ((w.collect []).newError name message).2) (.of_eq rfl rfl)
      (calm_bridge realm _ _)

theorem calm_hostError [Embedding E] (realm : RealmId) (e : HostError) (w : World E) :
    Calm w (w.hostError realm e).2 := by
  cases e <;> exact calm_scriptError realm _ _ w

/-! ## Crossing the boundary -/

theorem calm_link (realm : RealmId) (h : HostValue) (w : World E) : Calm w (w.link realm h).2 :=
  AdmitsLinks.guarded ⟨.refl, .trans, calm_newString, fun _ _ => .of_eq rfl rfl,
    calm_newestLink realm⟩ h w

mutual

theorem calm_fromHost (realm : RealmId) :
    ∀ (h : HostValue) (w : World E), Calm w (w.fromHost realm h).2
  | .undefined, w | .null, w | .boolean _, w | .number _, w => .refl w
  | .string s, w => calm_newString s w
  | .array items, w => (calm_fromHostAll realm items w).trans (.of_eq rfl rfl)
  | .object n, w => by
    unfold fromHost
    split
    · exact .refl w
    · exact calm_bridge realm n w

theorem calm_fromHostAll (realm : RealmId) :
    ∀ (hs : List HostValue) (w : World E), Calm w (fromHostAll realm hs w).2
  | [], w => .refl w
  | h :: rest, w => (calm_fromHost realm h w).trans (calm_fromHostAll realm rest _)

end

theorem calm_fromHostIn [Embedding E] (realm? : Option RealmId) (h : HostValue) (w : World E) :
    Calm w (w.fromHostIn realm? h).2 :=
  Admits.fromHostIn ⟨.refl, .trans, calm_newString, fun _ _ => .of_eq rfl rfl,
    fun _ => calm_bridge _⟩ h w

theorem calm_toHostAll {convert : Value → World E → Option HostValue × World E}
    (hc : ∀ v w, Calm w (convert v w).2) (vs : List Value) (w : World E) :
    Calm w (toHostAll convert vs w).2 := by
  induction vs generalizing w with
  | nil => exact .refl w
  | cons v rest ih =>
    have h := hc v w
    unfold toHostAll
    split
    · next w' hw => rw [hw] at h; exact h
    · next h' w' hw =>
      rw [hw] at h
      have hr := h.trans (ih w')
      split <;> next hs => rw [hs] at hr; exact hr

theorem calm_toHostWithin (depth : Nat) (v : Value) (w : World E) :
    Calm w (toHostWithin depth v w).2 := by
  induction depth generalizing v w with
  | zero => rcases v with ⟨_ | _ | _ | _ | _⟩ | _ | _ | _ | _ <;> exact .of_eq rfl rfl
  | succ depth ih =>
    rcases v with ⟨_ | _ | _ | _ | _⟩ | _ | id | _ | _ <;> try exact .of_eq rfl rfl
    have h := calm_toHostAll ih (w.array id).elements.toList w
    unfold toHostWithin
    split <;> next hs => rw [hs] at h; exact h

theorem calm_toHost (v : Value) (w : World E) : Calm w (w.toHost v).2 :=
  calm_toHostWithin w.arrays.size v w

end ScriptSandbox.World

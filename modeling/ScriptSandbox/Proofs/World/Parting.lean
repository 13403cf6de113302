import ScriptSandbox.Proofs.Step.Parallel
import ScriptSandbox.Proofs.World.Blind
import ScriptSandbox.Proofs.World.Lineage

/-
  Worlds that part.

  Two worlds that differ in their embeddings stay as they are to each other under changes that do
  not look at the embedding. A sweep does look: what the host objects of one world hold may keep a
  wrapper alive that dies in the other. The worlds have then parted, and what is wrapped next may be
  another wrapper on either side. A sweep with which they do not part finds the same with either
  embedding (`collect_exchange`). Between sweeps wrappers stay as they are (`Spares`), so that
  parted worlds remain parted (`irreparable_parted`).
-/

namespace ScriptSandbox.World

variable {E : Type} {u v w : World E}

/-- A wrapper is alive in one of the worlds and dead in the other. -/
def Parted (q : World E × World E) : Prop :=
  ∃ k id x x', q.1.wrapper? k id = some x ∧ q.2.wrapper? k id = some x' ∧ x.live ≠ x'.live

/-- Which wrappers are alive. -/
def liveness (w : World E) : Array Bool × Array Bool :=
  (w.bridges.map (·.live), w.links.map (·.live))

theorem not_parted_of_liveness_eq (h : v.liveness = w.liveness) : ¬ Parted (v, w) := by
  rintro ⟨k, id, x, x', hx, hx', hne⟩
  simp only [liveness, Prod.mk.injEq] at h
  refine hne ?_
  cases k with
  | bridge =>
    obtain ⟨b, hb, rfl⟩ := Option.map_eq_some_iff.mp hx
    obtain ⟨b', hb', rfl⟩ := Option.map_eq_some_iff.mp hx'
    simpa [hb, hb'] using congrArg (·[id]?) h.1
  | link =>
    obtain ⟨l, hl, rfl⟩ := Option.map_eq_some_iff.mp hx
    obtain ⟨l', hl', rfl⟩ := Option.map_eq_some_iff.mp hx'
    simpa [hl, hl'] using congrArg (·[id]?) h.2

/-! ## Changes that spare wrappers -/

/-- Wrappers stay as they are, and others may come. -/
def Spares (w w' : World E) : Prop :=
  ∀ {k id x}, w.wrapper? k id = some x → w'.wrapper? k id = some x

theorem Spares.trans (h : Spares u v) (h' : Spares v w) : Spares u w := fun hx => h' (h hx)

theorem Neutral.spares (h : Neutral v w) : Spares v w := fun {k id _} hx =>
  (h.wrappers k id).trans hx

theorem spares_wrap (k : WrapperKind) (realm : RealmId) (n : Native) (w : World E) :
    Spares w (w.wrap k realm n).2 := by
  cases hw : w.wrapperOf? k realm n with
  | some id =>
    rw [wrap_of_some hw]
    exact fun hx => hx
  | none =>
    rw [wrap_of_none hw]
    exact wrapper?_make_old

theorem spares_link (realm : RealmId) (h : HostValue) (w : World E) :
    Spares w (w.link realm h).2 :=
  AdmitsLinks.guarded (R := Spares) ⟨fun _ => id, .trans, fun s w => (neutral_newText s w).spares,
    fun _ _ => (Neutral.of_eq rfl rfl rfl (Nat.le_refl _)).spares, spares_wrap .link realm⟩ h w

theorem spares_modifyCreated (f : NameSet → NameSet) (id : LinkId) (w : World E) :
    Spares w (w.modifyLink id fun l => { l with created := f l.created }) :=
  have h := neutral_modifyLink (f := fun l => { l with created := f l.created })
    (fun _ => ⟨rfl, rfl, rfl⟩) id w
  h.spares

theorem spares_scriptError [Embedding E] (realm : RealmId) (name message : String) (w : World E) :
    Spares (w.collect []) (w.scriptError realm name message).2 :=
  have herror : Spares (w.collect []) ((w.collect []).newError name message).2 :=
    fun {k _ _} hx => by cases k <;> exact hx
  herror.trans (spares_wrap .bridge realm _ _)

/-- Parted worlds remain parted if both spare their wrappers. -/
theorem irreparable_parted : Step.Irreparable Spares (Parted (E := E)) where
  left h := fun ⟨k, id, x, x', hx, hx', hne⟩ => ⟨k, id, x, x', h hx, hx', hne⟩
  right h := fun ⟨k, id, x, x', hx, hx', hne⟩ => ⟨k, id, x, x', hx, h hx', hne⟩

/-! ## Sweeps -/

variable [Embedding E]

/-- A sweep with which worlds do not part finds the same wrappers dead with either embedding. -/
theorem collect_exchange {e : E} {lost : List NativeKey} (hand : List Thing)
    (h : ¬ Parted (w.collect hand, (w.exchange e lost).collect hand)) :
    ∃ lost', (w.exchange e lost).collect hand = (w.collect hand).exchange e lost' := by
  obtain ⟨dies, l, hw⟩ := exists_collect_eq hand w
  obtain ⟨dies', l', hw'⟩ := exists_collect_eq hand (w.exchange e lost)
  have hexpire : w.expire dies = w.expire dies' := expire_congr fun {k id x} hx => by
    refine Decidable.byContradiction fun hne => h ?_
    rw [hw, hw']
    have hmark (dies : WrapperKind → Nat → Bool) (l : List NativeKey) :
        World.wrapper? { w.expire dies with lostNatives := l } k id =
          some { x with live := x.live && !dies k id } := by
      have hx' := wrapper?_expire dies w k id
      rw [hx] at hx'
      cases k <;> exact hx'
    exact ⟨k, id, _, _, hmark dies l, hmark dies' l', hne⟩
  refine ⟨l', ?_⟩
  rw [hw, hw', hexpire]
  rfl

end ScriptSandbox.World

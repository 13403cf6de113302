import ScriptSandbox.Proofs.Interleaving
import ScriptSandbox.Proofs.World.Nesting

/-
  Calm changes that leave the conduct of realms alone.

  How a realm treats new properties is settled when it is made. Nothing that happens behind an
  operation touches it, so every change that is calm is still as well: besides the embedding and
  what links remember, it leaves alone how realms treat new properties.
-/

namespace ScriptSandbox

namespace World

variable {E : Type} {w w' : World E}

/-- Every realm treats new properties as before. -/
def SameConduct (w w' : World E) : Prop :=
  ∀ realm, (w'.realm realm).newProperties = (w.realm realm).newProperties

/-- A calm change that leaves the conduct of realms alone. -/
structure Still (w w' : World E) : Prop where
  calm : Calm w w'
  conduct : SameConduct w w'

theorem SameConduct.of_realms_eq (h : w'.realms = w.realms) : SameConduct w w' := fun realm => by
  rw [World.realm, World.realm, h]

theorem SameConduct.trans {w'' : World E} (h : SameConduct w w') (h' : SameConduct w' w'') :
    SameConduct w w'' := fun realm => (h' realm).trans (h realm)

namespace Still

theorem refl (w : World E) : Still w w := ⟨.refl w, fun _ => rfl⟩

theorem trans {w'' : World E} (h : Still w w') (h' : Still w' w'') : Still w w'' :=
  ⟨h.calm.trans h'.calm, h.conduct.trans h'.conduct⟩

end Still

theorem still_newText (s : String) (w : World E) : Still w (w.newText s).2 := by
  refine ⟨calm_newText s w, .of_realms_eq ?_⟩
  unfold newText
  split <;> rfl

theorem still_hold (things : List Thing) (w : World E) : Still w (w.hold things) :=
  ⟨calm_hold things w, .of_realms_eq rfl⟩

theorem still_letGo (things : List Thing) (w : World E) : Still w (w.letGo things) :=
  ⟨calm_letGo things w, .of_realms_eq rfl⟩

theorem still_collect [Embedding E] (hand : List Thing) (w : World E) :
    Still w (w.collect hand) := by
  refine ⟨calm_collect hand w, .of_realms_eq ?_⟩
  unfold collect
  split <;> rfl

theorem sameConduct_modifyRealm {id : RealmId} {f : Realm → Realm}
    (hf : ∀ r, (f r).newProperties = r.newProperties) (w : World E) :
    SameConduct w (w.modifyRealm id f) := fun realm =>
  realm_modifyRealm (P := fun r => r.newProperties = (w.realm realm).newProperties) rfl fun h =>
    (hf _).trans h

theorem still_bridge (realm : RealmId) (n : Native) (w : World E) :
    Still w (w.bridge realm n).2 := by
  refine ⟨calm_bridge realm n w, ?_⟩
  unfold bridge
  split
  · exact fun _ => rfl
  · exact fun r => sameConduct_modifyRealm (fun _ => by rfl) w r

theorem still_newestLink (realm : RealmId) (n : Native) (w : World E) :
    Still w (w.newestLink realm n).2 := by
  refine ⟨calm_newestLink realm n w, ?_⟩
  unfold newestLink
  split
  · exact fun _ => rfl
  · exact fun r => sameConduct_modifyRealm (fun _ => by rfl) w r

theorem still_scriptError [Embedding E] (realm : RealmId) (name message : String) (w : World E) :
    Still w (w.scriptError realm name message).2 := by
  refine ⟨calm_scriptError realm name message w, ?_⟩
  have hcollect : SameConduct w (w.collect []) := (still_collect [] w).conduct
  exact hcollect.trans (still_bridge realm _ ((w.collect []).newError name message).2).conduct

theorem still_hostError [Embedding E] (realm : RealmId) (e : HostError) (w : World E) :
    Still w (w.hostError realm e).2 := by
  cases e <;> exact still_scriptError realm _ _ w

theorem still_link (realm : RealmId) (h : HostValue) (w : World E) : Still w (w.link realm h).2 :=
  AdmitsLinks.guarded ⟨.refl, .trans, still_newText,
    fun _ _ => ⟨.of_eq rfl rfl, .of_realms_eq rfl⟩, still_newestLink realm⟩ h w

theorem still_toHost (v : Value) (w : World E) : Still w (w.toHost v).2 := by
  refine ⟨calm_toHost v w, ?_⟩
  exact related_toHostWithin (R := SameConduct) (fun _ _ => rfl) (fun h h' => h.trans h')
    (fun _ _ _ => rfl) w.arrays.size v w

end World

/-- No chore touches a host object, what links remember or the conduct of a realm. -/
theorem Chore.still_perform {E : Type} [Embedding E] (ch : Chore) (w : World E) :
    w.Still (ch.perform w).2 := by
  refine ⟨ch.calm_perform w, ?_⟩
  cases ch with
  | inherit id prototype =>
    rcases w.setPrototype_eq id prototype with h | h
    · simp only [perform, h]
      exact fun _ => rfl
    · simp only [perform, h]
      exact fun _ => rfl
  | text s => exact (World.still_newText s w).conduct
  | collect => exact (World.still_collect [] w).conduct
  | object o => exact fun _ => rfl
  | array elements => exact fun _ => rfl
  | hold things => exact fun _ => rfl
  | letGo things => exact fun _ => rfl

end ScriptSandbox

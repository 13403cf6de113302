import ScriptSandbox.Session.Script
import ScriptSandbox.Proofs.Capability.Sealing
import ScriptSandbox.Proofs.World.Nesting
import ScriptSandbox.Proofs.World.Wrapper

/-
  Values that cross to the host.

  A script can put an array into itself, and such an array has no form on the host side: converting
  it does not end. The crossing ends for all other values, and then writing to a wrapper and calling
  one come to an outcome as well (`crossing_ends_iff_acyclic`). That this covers every heap a script
  can build is a run lemma: creating arrays and storing into them keeps all arrays of arrays in the
  heap (`ArrayEvent.sound_run`).
-/

namespace ScriptSandbox

/-! ## Steps without faults -/

namespace Step

variable {σ α β : Type} {w : σ}

/-- The step comes to an outcome, whatever is answered and whatever happens in the meantime. -/
def Faultless : Step σ α → σ → Prop
  | .done _, _ => True
  | .fault _, _ => False
  | .inspect next, w => Faultless (next w) w
  | .modify change next, w => Faultless next (change w)
  | .ask _ _ resume, _ => ∀ answer w', Faultless (resume answer) w'

theorem Faultless.andThen {s : Step σ α} {f : α → Step σ β} (h : s.Faultless w)
    (hf : ∀ a w', (f a).Faultless w') : (s.andThen f).Faultless w := by
  induction s generalizing w with
  | done flow =>
    cases flow with
    | ok a => exact hf a w
    | error c => trivial
  | fault e => exact h.elim
  | inspect next ih => exact ih w h
  | modify change next ih => exact ih h
  | ask r release resume ih => exact fun answer w' => ih answer (h answer w')

theorem Faultless.releasing {s : Step σ α} {undo : σ → σ} (h : s.Faultless w) :
    (s.releasing undo).Faultless w := by
  induction s generalizing w with
  | done flow => trivial
  | fault e => exact h.elim
  | inspect next ih => exact ih w h
  | modify change next ih => exact ih h
  | ask r release resume ih => exact fun answer w' => ih answer (h answer w')

theorem faultless_checkpoint_bind {k : Unit → Step σ α} (h : ∀ w', (k ()).Faultless w') :
    (checkpoint >>= k).Faultless w := by
  intro answer w'
  cases answer with
  | ok v => exact h w'
  | error c => trivial

end Step

namespace Evaluation

variable {E α : Type} {w : World E}

theorem faultless_holding {things : List Thing} {s : Evaluation E α}
    (h : s.Faultless (w.hold things)) : (holding things s).Faultless w := h.releasing

theorem faultless_toHost_bind {v : Value} {f : HostValue → Evaluation E α}
    (hv : (w.toHost v).1.isSome) (hf : ∀ h, (f h).Faultless (w.toHost v).2) :
    (toHost v >>= f).Faultless w := by
  obtain ⟨h, hh⟩ := Option.isSome_iff_exists.mp hv
  show ((toHost v).andThen f).Faultless w
  simp only [toHost, Step.compute, Step.andThen, Step.Faultless, Step.ready_andThen, hh]
  exact hf h

theorem faultless_toHostList_bind {vs : List Value} {f : List HostValue → Evaluation E α}
    (hv : (w.toHostList vs).1.isSome) (hf : ∀ hs, (f hs).Faultless (w.toHostList vs).2) :
    (toHostList vs >>= f).Faultless w := by
  obtain ⟨hs, hh⟩ := Option.isSome_iff_exists.mp hv
  show ((toHostList vs).andThen f).Faultless w
  simp only [toHostList, Step.compute, Step.andThen, Step.Faultless, Step.ready_andThen, hh]
  exact hf hs

variable [Embedding E]

theorem faultless_hostResult (realm : RealmId)
    (method : World E → Except HostError α × World E) (w : World E) :
    (hostResult realm method).Faultless w := by
  refine Step.Faultless.andThen trivial fun result w' => ?_
  cases result with
  | ok a => trivial
  | error e => trivial

theorem faultless_hostSet (realm : RealmId) (n : Native) (name : String) (value : HostValue)
    (w : World E) : (hostSet realm n name value).Faultless w :=
  Step.faultless_checkpoint_bind fun _ => faultless_holding (faultless_hostResult realm _ _)

theorem faultless_hostCall {wrap : Wrapper E} {realm : RealmId} {n : Native} {receiver : Value}
    {args : List Value} (hr : (w.toHost receiver).1.isSome)
    (ha : ((w.toHost receiver).2.toHostList args).1.isSome) :
    (hostCall wrap realm n receiver args).Faultless w := by
  show Step.Faultless (ite (w.isNativeCallable n = true) _ _) w
  split
  · refine faultless_toHost_bind hr fun receiver' => faultless_toHostList_bind ha fun args' => ?_
    refine Step.faultless_checkpoint_bind fun w' => faultless_holding ?_
    exact (faultless_hostResult realm _ _).andThen fun _ _ => trivial
  · trivial

end Evaluation

/-! ## Writing and calling -/

namespace WrapperKind

variable {E : Type} [Embedding E] {w : World E} {realm : RealmId}

theorem faultless_put (k : WrapperKind) (id : Nat) (name : String) {value : Value}
    (h : (w.toHost value).1.isSome) :
    ((k.value id).put name value realm : Evaluation E Unit).Faultless w := by
  cases k with
  | bridge =>
    simp only [WrapperKind.value, Value.put, Step.Faultless]
    split
    · exact Evaluation.faultless_toHost_bind h fun _ => Evaluation.faultless_hostSet _ _ _ _ _
    · trivial
  | link =>
    simp only [WrapperKind.value, Value.put, Step.Faultless]
    split
    · next l hl =>
      show Step.Faultless (ite ((!!w.hasProperty l.native name && !w.allowsWrite l name) = true)
        _ _) w
      split
      · trivial
      · refine Evaluation.faultless_toHost_bind h fun a => ?_
        have hset := Evaluation.faultless_hostSet l.realm l.native name a (w.toHost value).2
        refine hset.andThen fun _ w' => ?_
        split <;> trivial
    · trivial

theorem faultless_call (k : WrapperKind) (id : Nat) {receiver : Value} {args : List Value}
    (hr : (w.toHost receiver).1.isSome)
    (ha : ((w.toHost receiver).2.toHostList args).1.isSome) :
    ((k.value id).call receiver args realm : Evaluation E Value).Faultless w := by
  cases k with
  | bridge =>
    simp only [WrapperKind.value, Value.call, Step.Faultless]
    split
    · exact Evaluation.faultless_hostCall hr ha
    · trivial
  | link =>
    simp only [WrapperKind.value, Value.call, Step.Faultless]
    split
    · exact Evaluation.faultless_hostCall hr ha
    · trivial

end WrapperKind

/-! ## Building arrays -/

/-- What a script does to build arrays. -/
inductive ArrayEvent where
  | create (elements : Array Value)
  | put (id : ArrayId) (name : String) (value : Value)
  | delete (id : ArrayId) (name : String)

namespace World

variable {E : Type} {w : World E}

instance decidableInHeap (w : World E) : (v : Value) → Decidable (w.InHeap v)
  | .array id => decidable_of_iff (id < w.arrays.size)
    ⟨fun h _ hid => Value.array.inj hid ▸ h, fun h => h id rfl⟩
  | .primitive _ | .object _ | .bridge _ | .link _ => .isTrue fun _ h => nomatch h

theorem sound_newArray {elements : Array Value} (h : w.Sound)
    (he : ∀ u ∈ elements, w.InHeap u) : (w.newArray elements).2.Sound := by
  have hsize : w.arrays.size ≤ (w.newArray elements).2.arrays.size := by
    simp only [newArray, Array.size_push]
    omega
  rintro v u ⟨id, rfl, hu⟩
  simp only [World.array, newArray, Array.getElem?_push] at hu
  split at hu
  · exact (he u hu).mono hsize
  · exact (h (.array id) u ⟨id, rfl, hu⟩).mono hsize

/-- A change of an array that brings in no element from outside the heap. -/
theorem sound_modifyArray {id : ArrayId} {f : ScriptArray → ScriptArray} (h : w.Sound)
    (hf : ∀ a, ∀ u ∈ (f a).elements, u ∈ a.elements ∨ w.InHeap u) :
    (w.modifyArray id f).Sound := by
  have hsize : w.arrays.size ≤ (w.modifyArray id f).arrays.size := by
    simp only [modifyArray, Array.size_modify, Nat.le_refl]
  rintro v u ⟨j, rfl, hu⟩
  have hcase : u ∈ (w.array j).elements ∨ w.InHeap u := by
    simp only [World.array, modifyArray, Array.getElem?_modify] at hu ⊢
    split at hu
    · cases ha : w.arrays[j]? with
      | none =>
        rw [ha] at hu
        exact .inl hu
      | some a =>
        rw [ha] at hu
        exact hf a u hu
    · exact .inl hu
  rcases hcase with hold | hnew
  · exact (h (.array j) u ⟨j, rfl, hold⟩).mono hsize
  · exact hnew.mono hsize

theorem sound_of_no_arrays (h : w.arrays = #[]) : w.Sound := by
  rintro v u ⟨id, rfl, hu⟩
  rw [World.array, h] at hu
  cases hu with
  | mk hu => cases hu

theorem inHeap_undefined (w : World E) : w.InHeap .undefined := nofun

end World

namespace ArrayEvent

variable {E : Type} [Embedding E]

/-- The values that go into an event. -/
def operands : ArrayEvent → List Value
  | create elements => elements.toList
  | put id _ value => [.array id, value]
  | delete id _ => [.array id]

/-- What an event does to a world. -/
def effect (w : World E) : ArrayEvent → World E
  | create elements => (w.newArray elements).2
  | put id name value => (((Value.array id).put name value 0).settle w).2
  | delete id name => (((Value.array id).delete name 0).settle w).2

/-- The world after an event. A script has only arrays that are in the heap. -/
def apply (w : World E) (event : ArrayEvent) : World E :=
  if ∀ v ∈ event.operands, w.InHeap v then event.effect w else w

/-- The world after some events. -/
def run (w : World E) (events : List ArrayEvent) : World E := events.foldl apply w

theorem sound_apply {w : World E} (h : w.Sound) (event : ArrayEvent) : (event.apply w).Sound := by
  unfold apply
  split
  · next hin =>
    cases event with
    | create elements =>
      exact World.sound_newArray h fun u hu => hin u (Array.mem_toList_iff.mpr hu)
    | put id name value =>
      refine World.sound_modifyArray h fun a u hu => ?_
      rcases World.mem_put hu with hold | rfl | rfl
      · exact .inl hold
      · exact .inr (World.inHeap_undefined w)
      · exact .inr (hin u (List.mem_cons_of_mem _ (List.mem_singleton_self u)))
    | delete id name =>
      refine World.sound_modifyArray h fun a u hu => ?_
      rcases World.mem_delete hu with hold | rfl
      · exact .inl hold
      · exact .inr (World.inHeap_undefined w)
  · exact h

theorem sound_run {w : World E} (h : w.Sound) (events : List ArrayEvent) : (run w events).Sound :=
  List.foldlRecOn events apply h fun _ hw event _ => sound_apply hw event

end ArrayEvent

/-! ## The crossing ends -/

namespace World

variable {E : Type} [Embedding E]

/-- In every heap that a script builds, a value crosses to the host unless an array that contains
    itself is in it. How deep the conversion may go makes no difference either way. And if neither
    the value written to a wrapper nor the receiver nor an argument of a call is such a value, the
    operation comes to an outcome. -/
theorem crossing_ends_iff_acyclic {w₀ : World E} (h₀ : w₀.Sound) (events : List ArrayEvent) :
    let w := ArrayEvent.run w₀ events
    (∀ v, w.InHeap v →
      ((w.toHost v).1.isSome ↔ ¬ w.Endless v) ∧
      (¬ w.Endless v → ∀ depth, w.arrays.size ≤ depth → toHostWithin depth v w = w.toHost v) ∧
      (w.Endless v → ∀ depth, (toHostWithin depth v w).1 = none)) ∧
    (∀ k id name value realm, w.InHeap value → ¬ w.Endless value →
      ((WrapperKind.value k id).put name value realm : Evaluation E Unit).Faultless w) ∧
    ∀ k id receiver args realm, (∀ v ∈ receiver :: args, w.InHeap v ∧ ¬ w.Endless v) →
      ((WrapperKind.value k id).call receiver args realm : Evaluation E Value).Faultless w := by
  intro w
  have hs : w.Sound := ArrayEvent.sound_run h₀ events
  have hcross : ∀ v, w.InHeap v → ((w.toHost v).1.isSome ↔ ¬ w.Endless v) := fun v hv => by
    rw [Option.isSome_iff_ne_none, ne_eq, toHost_eq_none_iff hs hv]
  refine ⟨fun v hv => ⟨hcross v hv, fun hn depth hd => ?_, fun he depth => he.toHostWithin depth⟩,
    fun k id name value realm hv hn => ?_, fun k id receiver args realm hall => ?_⟩
  · exact toHostWithin_of_le ((hcross v hv).mpr hn) hd
  · exact k.faultless_put id name ((hcross value hv).mpr hn)
  · obtain ⟨hr, hn⟩ := hall receiver List.mem_cons_self
    refine k.faultless_call id ((hcross receiver hr).mpr hn) ?_
    -- converting the receiver leaves all arrays as they are
    have harrays : (w.toHost receiver).2.arrays = w.arrays := arrays_toHost receiver w
    have hin : ∀ v ∈ args, (w.toHost receiver).2.InHeap v := fun v hv =>
      (hall v (List.mem_cons_of_mem receiver hv)).1.mono (Nat.le_of_eq (harrays ▸ rfl))
    rw [Option.isSome_iff_ne_none, ne_eq, toHostList_eq_none_iff (hs.congr harrays) hin]
    rintro ⟨v, hv, he⟩
    exact (hall v (List.mem_cons_of_mem receiver hv)).2 ((endless_congr harrays).mp he)

/-- A world with a link on a box that takes everything, and without arrays. -/
def boxWorld : World Session :=
  { World.empty (Session.ofRecords #[⟨"box", ∅, some .undeclared,
      .active ⟨false, [], ⟨∅, ∅, ∅⟩, none, none⟩⟩]) with
    links := #[⟨0, .hosted 0, ∅, true⟩]
    realms := #[.fresh .trackCreated] }

/-- An array that holds another one twice is not endless, so it can be put into the box. -/
theorem crossing_ends_shared :
    boxWorld.Sound ∧
      let w := ArrayEvent.run boxWorld [.create #[.null], .create #[.array 0, .array 0]]
      (w.InHeap (.array 1) ∧ ¬ w.Endless (.array 1)) ∧
        ((Value.link 0).put "x" (.array 1) 0 : Evaluation Session Unit).Faultless w := by
  have hs : boxWorld.Sound := sound_of_no_arrays rfl
  refine ⟨hs, ?_⟩
  intro w
  obtain ⟨hcross, hput, -⟩ :=
    crossing_ends_iff_acyclic hs [.create #[.null], .create #[.array 0, .array 0]]
  have hin : w.InHeap (.array 1) := by decide
  have hn : ¬ w.Endless (.array 1) := (hcross _ hin).1.mp (by decide)
  exact ⟨⟨hin, hn⟩, hput .link 0 "x" (.array 1) 0 hin hn⟩

/-- An array that is put into itself never crosses, and putting it into the box ends in a fault. -/
theorem own_element_never_crosses :
    let w := ArrayEvent.run boxWorld [.create #[], .put 0 "0" (.array 0)]
    w.InHeap (.array 0) ∧ (∀ depth, (toHostWithin depth (.array 0) w).1 = none) ∧
      ∃ w', ((Value.link 0).put "x" (.array 0) 0 : Evaluation Session Unit).settle w =
        (.faulted .endlessArray, w') := by
  intro w
  have hself : w.HasElement (.array 0) (.array 0) := ⟨0, rfl, by decide +kernel⟩
  have hendless : w.Endless (.array 0) := ⟨.array 0, .refl, .single hself⟩
  exact ⟨by decide, fun depth => hendless.toHostWithin depth, w, rfl⟩

end World

end ScriptSandbox

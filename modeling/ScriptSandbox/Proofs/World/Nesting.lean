import Mathlib.Data.List.Duplicate
import Mathlib.Data.List.Perm.Subperm
import Mathlib.Logic.Relation
import ScriptSandbox.Operation.Member

/-
  Arrays inside arrays.

  A value crosses to the host element by element, so it crosses as long as its arrays do not nest
  without end. Two measures of nesting meet here. `Deep` follows the conversion: it fails at a depth
  just when there are more arrays inside each other than that (`toHostWithin_eq_none_iff`).
  `Endless` does not know the conversion: somewhere inside the value an array contains itself. Where
  all arrays exist, a path deeper than the heap has arrays meets one of them twice, so both agree at
  the depth that the conversion starts with (`toHost_eq_none_iff`).
-/

namespace ScriptSandbox.World

open Relation

variable {E : Type} {w w' : World E} {v u : Value} {depth : Nat}

/-- The first value is an array with the second one as an element. -/
def HasElement (w : World E) (v u : Value) : Prop :=
  ∃ id, v = .array id ∧ u ∈ (w.array id).elements

/-- The value is an array, and inside it are that many arrays more, each an element of the one
    before. -/
def Deep (w : World E) : (depth : Nat) → Value → Prop
  | 0, v => ∃ id, v = .array id
  | depth + 1, v => ∃ u, w.HasElement v u ∧ w.Deep depth u

/-- The value is an array that contains itself, or such an array is inside it. -/
def Endless (w : World E) (v : Value) : Prop :=
  ∃ u, ReflTransGen w.HasElement v u ∧ TransGen w.HasElement u u

/-- If the value is an array, the array is in the heap. -/
def InHeap (w : World E) (v : Value) : Prop := ∀ id, v = .array id → id < w.arrays.size

/-- All arrays in arrays are in the heap. -/
def Sound (w : World E) : Prop := ∀ v u, w.HasElement v u → w.InHeap u

theorem hasElement_congr (h : w'.arrays = w.arrays) : w'.HasElement = w.HasElement := by
  funext v u
  simp only [HasElement, World.array, h]

theorem deep_congr (h : w'.arrays = w.arrays) : w'.Deep depth v ↔ w.Deep depth v := by
  induction depth generalizing v with
  | zero => rfl
  | succ depth ih => simp only [Deep, hasElement_congr h, ih]

theorem endless_congr (h : w'.arrays = w.arrays) : w'.Endless v ↔ w.Endless v := by
  simp only [Endless, hasElement_congr h]

theorem InHeap.mono (h : w.InHeap v) (hs : w.arrays.size ≤ w'.arrays.size) : w'.InHeap v :=
  fun id hv => Nat.lt_of_lt_of_le (h id hv) hs

theorem Sound.congr (h : w.Sound) (ha : w'.arrays = w.arrays) : w'.Sound := by
  intro v u hu
  rw [hasElement_congr ha] at hu
  exact (h v u hu).mono (Nat.le_of_eq (congrArg Array.size ha.symm))

/-! ## Crossing at a depth -/

section

variable {R : World E → World E → Prop} (refl : ∀ w, R w w)
  (trans : ∀ {u v w}, R u v → R v w → R u w)

include refl trans

theorem related_toHostAll {convert : Value → World E → Option HostValue × World E}
    (hc : ∀ v w, R w (convert v w).2) (vs : List Value) (w : World E) :
    R w (toHostAll convert vs w).2 := by
  induction vs generalizing w with
  | nil => exact refl w
  | cons v rest ih =>
    have hv := hc v w
    unfold toHostAll
    split
    · next w' hw =>
      rw [hw] at hv
      exact hv
    · next h w' hw =>
      rw [hw] at hv
      have hrest := trans hv (ih w')
      split <;> next hr => rw [hr] at hrest; exact hrest

/-- Bookmarks are all that a conversion makes. -/
theorem related_toHostWithin (hb : ∀ v w, R w (w.newBookmark v).2) (depth : Nat) (v : Value)
    (w : World E) : R w (toHostWithin depth v w).2 := by
  induction depth generalizing v w with
  | zero =>
    rcases v with ⟨_ | _ | _ | _ | _⟩ | object | _ | _ | _ <;> try exact refl w
    exact hb (.object object) w
  | succ depth ih =>
    rcases v with ⟨_ | _ | _ | _ | _⟩ | object | id | _ | _ <;> try exact refl w
    · exact hb (.object object) w
    · have h := related_toHostAll refl trans ih (w.array id).elements.toList w
      unfold toHostWithin
      split <;> next hs => rw [hs] at h; exact h

end

theorem arrays_toHostWithin (depth : Nat) (v : Value) (w : World E) :
    (toHostWithin depth v w).2.arrays = w.arrays :=
  related_toHostWithin (R := fun w w' => w'.arrays = w.arrays) (fun _ => rfl)
    (fun h h' => h'.trans h) (fun _ _ => rfl) depth v w

theorem arrays_toHost (v : Value) (w : World E) : (w.toHost v).2.arrays = w.arrays :=
  arrays_toHostWithin w.arrays.size v w

/-- A list crosses if each of its values does, whatever was converted before. -/
theorem toHostAll_eq_none_iff {convert : Value → World E → Option HostValue × World E}
    {P : Value → Prop} {vs : List Value} (hc : ∀ v ∈ vs, ∀ w', w'.arrays = w.arrays →
      (convert v w').2.arrays = w'.arrays ∧ ((convert v w').1 = none ↔ P v)) :
    (toHostAll convert vs w).1 = none ↔ ∃ v ∈ vs, P v := by
  suffices h : ∀ w', w'.arrays = w.arrays →
      ((toHostAll convert vs w').1 = none ↔ ∃ v ∈ vs, P v) from h w rfl
  intro w' hw
  induction vs generalizing w' with
  | nil => simp [toHostAll]
  | cons v rest ih =>
    obtain ⟨harrays, hv⟩ := hc v List.mem_cons_self w' hw
    simp only [List.mem_cons, exists_eq_or_imp]
    unfold toHostAll
    split
    · next w₁ hr =>
      rw [hr] at hv
      exact iff_of_true rfl (.inl (hv.mp rfl))
    · next h w₁ hr =>
      rw [hr] at hv harrays
      have hrest := ih (fun u hu => hc u (List.mem_cons_of_mem v hu)) w₁ (harrays.trans hw)
      have hnot : ¬ P v := fun hp => by cases hv.mpr hp
      rw [or_iff_right hnot, ← hrest]
      split <;> next hs => simp [hs]

/-- The conversion gives up just where there are more arrays inside each other than it allows. -/
theorem toHostWithin_eq_none_iff (depth : Nat) (v : Value) (w : World E) :
    (toHostWithin depth v w).1 = none ↔ w.Deep depth v := by
  induction depth generalizing v w with
  | zero => rcases v with ⟨_ | _ | _ | _ | _⟩ | _ | _ | _ | _ <;> simp [toHostWithin, Deep]
  | succ depth ih =>
    rcases v with ⟨_ | _ | _ | _ | _⟩ | _ | id | _ | _
    case array =>
      have helements : (toHostAll (toHostWithin depth) (w.array id).elements.toList w).1 = none ↔
          ∃ u ∈ (w.array id).elements.toList, w.Deep depth u :=
        toHostAll_eq_none_iff fun v _ w' hw =>
          ⟨arrays_toHostWithin depth v w', (ih v w').trans (deep_congr hw)⟩
      have hdeep : w.Deep (depth + 1) (.array id) ↔
          ∃ u ∈ (w.array id).elements.toList, w.Deep depth u := by
        simp [Deep, HasElement]
      rw [hdeep, ← helements]
      unfold toHostWithin
      split <;> next hs => simp [hs]
    all_goals simp [toHostWithin, Deep, HasElement]

/-! ## Depth and cycles -/

/-- What nests without end has an element that does. -/
theorem Endless.element (h : w.Endless v) : ∃ u, w.HasElement v u ∧ w.Endless u := by
  obtain ⟨u, hreach, hcycle⟩ := h
  rcases ReflTransGen.cases_head hreach with rfl | ⟨x, hx, hrest⟩
  · obtain ⟨x, hx, hrest⟩ := TransGen.head'_iff.mp hcycle
    exact ⟨x, hx, v, hrest, hcycle⟩
  · exact ⟨x, hx, u, hrest, hcycle⟩

theorem Endless.deep (h : w.Endless v) (depth : Nat) : w.Deep depth v := by
  induction depth generalizing v with
  | zero =>
    obtain ⟨u, ⟨id, hid, -⟩, -⟩ := h.element
    exact ⟨id, hid⟩
  | succ depth ih =>
    obtain ⟨u, hu, hendless⟩ := h.element
    exact ⟨u, hu, ih hendless⟩

/-- The arrays inside each other, from the value inward. -/
theorem Deep.path (h : w.Deep depth v) : ∃ path : List Value, path.length = depth ∧
    List.IsChain w.HasElement (v :: path) ∧ ∀ u ∈ v :: path, ∃ id, u = .array id := by
  induction depth generalizing v with
  | zero => exact ⟨[], rfl, .singleton v, fun u hu => List.mem_singleton.mp hu ▸ h⟩
  | succ depth ih =>
    obtain ⟨u, hu, hdeep⟩ := h
    obtain ⟨path, hlen, hchain, harrays⟩ := ih hdeep
    refine ⟨u :: path, congrArg (· + 1) hlen, List.isChain_cons_cons.mpr ⟨hu, hchain⟩, ?_⟩
    intro x hx
    rcases List.mem_cons.mp hx with rfl | hx
    · exact hu.imp fun id hid => hid.1
    · exact harrays x hx

/-- On a path inward every array contains all that come later. -/
theorem pairwise_path {path : List Value} (h : List.IsChain w.HasElement path) :
    path.Pairwise (TransGen w.HasElement) :=
  List.IsChain.pairwise (h.imp fun _ _ => TransGen.single)

theorem endless_of_path {path : List Value} (h : List.IsChain w.HasElement (v :: path))
    (hd : ¬ (v :: path).Nodup) : w.Endless v := by
  obtain ⟨u, hu⟩ := List.exists_duplicate_iff_not_nodup.mpr hd
  have hcycle : TransGen w.HasElement u u := by
    have hpair := (pairwise_path h).sublist (List.duplicate_iff_sublist.mp hu)
    exact List.rel_of_pairwise_cons hpair (List.mem_singleton_self u)
  rcases List.mem_cons.mp hu.mem with rfl | hmem
  · exact ⟨u, .refl, hcycle⟩
  · exact ⟨u, (List.rel_of_pairwise_cons (pairwise_path h) hmem).to_reflTransGen, hcycle⟩

/-- Where all arrays exist, so do those inside the value. -/
theorem inHeap_of_reach (hs : w.Sound) (hv : w.InHeap v) (h : ReflTransGen w.HasElement v u) :
    w.InHeap u := by
  rcases ReflTransGen.cases_tail h with rfl | ⟨x, -, hx⟩
  · exact hv
  · exact hs x u hx

/-- A path with more arrays than the heap has meets one of them twice. -/
theorem Deep.endless (hin : ∀ u, ReflTransGen w.HasElement v u → w.InHeap u)
    (h : w.Deep w.arrays.size v) : w.Endless v := by
  obtain ⟨path, hlen, hchain, harrays⟩ := h.path
  have hreach : ∀ u ∈ v :: path, ReflTransGen w.HasElement v u := fun u hu => by
    rcases List.mem_cons.mp hu with rfl | hmem
    · exact .refl
    · exact (List.rel_of_pairwise_cons (pairwise_path hchain) hmem).to_reflTransGen
  refine endless_of_path hchain fun hd => ?_
  have hsub : v :: path ⊆ (List.range w.arrays.size).map Value.array := by
    intro u hu
    obtain ⟨id, rfl⟩ := harrays u hu
    have hid : id < w.arrays.size := hin _ (hreach _ hu) id rfl
    exact List.mem_map_of_mem (List.mem_range.mpr hid)
  have hle := (List.subperm_of_subset hd hsub).length_le
  rw [List.length_cons, List.length_map, List.length_range] at hle
  omega

/-! ## Crossing to the host -/

/-- At no depth whatever does an endless value cross. -/
theorem Endless.toHostWithin (h : w.Endless v) (depth : Nat) :
    (World.toHostWithin depth v w).1 = none :=
  (toHostWithin_eq_none_iff depth v w).mpr (h.deep depth)

theorem toHost_eq_none_iff (hs : w.Sound) (hv : w.InHeap v) :
    (w.toHost v).1 = none ↔ w.Endless v := by
  refine ⟨fun h => ?_, fun h => h.toHostWithin _⟩
  exact Deep.endless (fun _ => inHeap_of_reach hs hv) ((toHostWithin_eq_none_iff _ v w).mp h)

theorem toHostList_eq_none_iff {vs : List Value} (hs : w.Sound) (hv : ∀ v ∈ vs, w.InHeap v) :
    (w.toHostList vs).1 = none ↔ ∃ v ∈ vs, w.Endless v := by
  refine toHostAll_eq_none_iff fun v hmem w' hw => ⟨arrays_toHost v w', ?_⟩
  have hv' : w'.InHeap v := (hv v hmem).mono (Nat.le_of_eq (congrArg Array.size hw.symm))
  rw [toHost_eq_none_iff (hs.congr hw) hv', endless_congr hw]

/-! ## More room -/

theorem toHostAll_eq_of_isSome {convert convert' : Value → World E → Option HostValue × World E}
    (hc : ∀ v w, (convert v w).1.isSome → convert' v w = convert v w) {vs : List Value}
    (h : (toHostAll convert vs w).1.isSome) : toHostAll convert' vs w = toHostAll convert vs w := by
  induction vs generalizing w with
  | nil => rfl
  | cons v rest ih =>
    cases hv : convert v w with
    | mk first w₁ =>
      cases first with
      | none =>
        simp only [toHostAll, hv] at h
        cases h
      | some a =>
        have hv' : convert' v w = (some a, w₁) := (hc v w (by rw [hv]; rfl)).trans hv
        have hrest : (toHostAll convert rest w₁).1.isSome := by
          simp only [toHostAll, hv] at h
          split at h
          · cases h
          · next hr =>
            rw [hr]
            rfl
        simp only [toHostAll, hv, hv', ih hrest]

/-- What crosses at a depth crosses in the same way with more room. -/
theorem toHostWithin_succ {depth : Nat} {v : Value} {w : World E}
    (h : (toHostWithin depth v w).1.isSome) :
    toHostWithin (depth + 1) v w = toHostWithin depth v w := by
  induction depth generalizing v w with
  | zero =>
    rcases v with ⟨_ | _ | _ | _ | _⟩ | _ | _ | _ | _ <;> try rfl
    cases h
  | succ depth ih =>
    rcases v with ⟨_ | _ | _ | _ | _⟩ | _ | id | _ | _ <;> try rfl
    have hall : (toHostAll (toHostWithin depth) (w.array id).elements.toList w).1.isSome := by
      unfold toHostWithin at h
      split at h
      · cases h
      · next hr =>
        rw [hr]
        rfl
    have heq : toHostAll (toHostWithin (depth + 1)) (w.array id).elements.toList w =
        toHostAll (toHostWithin depth) (w.array id).elements.toList w :=
      toHostAll_eq_of_isSome (fun _ _ => ih) hall
    rw [toHostWithin, heq, ← toHostWithin]

theorem toHostWithin_of_le {v : Value} (h : (w.toHost v).1.isSome) {depth : Nat}
    (hd : w.arrays.size ≤ depth) : toHostWithin depth v w = w.toHost v := by
  induction hd with
  | refl => rfl
  | step _ ih => rw [toHostWithin_succ (ih ▸ h), ih]

end ScriptSandbox.World

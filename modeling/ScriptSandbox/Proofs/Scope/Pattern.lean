import Mathlib.Algebra.GroupWithZero.Nat
import Mathlib.Algebra.Order.BigOperators.Group.List
import Mathlib.Algebra.Order.Group.Nat
import ScriptSandbox.Scope.Pattern

/-
  The names of a pattern, from left to right.

  `boundNames` reads the names of a pattern off its shape by recursion. The scan for them keeps a
  stack of pending patterns instead: it takes one off, notes its own name and pushes what is
  directly inside it (`Scans`). One round of the scan is one step of the recursion
  (`boundNames_eq`), and what is pushed weighs less than what was taken off
  (`sum_weights_innerPatterns_lt`). So every scan ends, with the names of the pending patterns in
  the order in which they stand (`scans_iff`, `pendingNames_eq`).
-/

namespace ScriptSandbox

/-! ## Parts of a document weigh less -/

namespace Document

variable {d v : Document} {fields : List (String × Document)} {key : String}

theorem weight_pos (d : Document) : 0 < d.weight := by
  cases d <;> simp [weight]

theorem weightItems_eq (items : List Document) : weightItems items = (items.map weight).sum := by
  induction items with
  | nil => rfl
  | cons d items ih => rw [weightItems, ih, List.map_cons, List.sum_cons]

theorem weight_le_of_fieldValue? (h : fieldValue? key fields = some v) :
    v.weight ≤ weightFields fields := by
  induction fields with
  | nil => cases h
  | cons e fields ih =>
    obtain ⟨k, u⟩ := e
    rw [fieldValue?] at h
    rw [weightFields]
    split at h
    · cases h
      omega
    · have := ih h
      omega

theorem weight_lt_of_get? (h : d.get? key = some v) : v.weight < d.weight := by
  cases d with
  | object fields =>
    have := weight_le_of_fieldValue? (show fieldValue? key fields = some v from h)
    rw [weight]
    omega
  | _ => cases h

/-- The items of the array at a key. -/
def itemsAt (d : Document) (key : String) : List Document := ((d.get? key).bind array?).getD []

theorem sum_weights_itemsAt_lt (d : Document) (key : String) :
    ((d.itemsAt key).map weight).sum < d.weight := by
  unfold itemsAt
  cases h : d.get? key with
  | none => exact d.weight_pos
  | some v =>
    have hlt := weight_lt_of_get? h
    cases v with
    | array items =>
      rw [weight, weightItems_eq] at hlt
      exact (Nat.lt_add_of_pos_left Nat.one_pos).trans hlt
    | _ => exact d.weight_pos

theorem weight_lt_of_mem_itemsAt (h : v ∈ d.itemsAt key) : v.weight < d.weight :=
  (List.single_le_sum (fun _ _ => Nat.zero_le _) _ (List.mem_map_of_mem h)).trans_lt
    (sum_weights_itemsAt_lt d key)

end Document

namespace Scope

open Document

/-! ## Recursion over a pattern -/

/-- The names that a pattern binds, by recursion over the pattern: the name of an identifier, the
    names of the left side of a default, of the argument of a rest element, of the elements of an
    array pattern that are no holes, and of the values and rest arguments of an object pattern, in
    order. Anything else binds nothing. -/
def boundNames (p : Document) : List String :=
  match p.getString? "type" with
  | some "Identifier" => (p.getString? "name").toList
  | some "AssignmentPattern" => (p.get? "left").toList.attach.flatMap fun q => boundNames q.1
  | some "RestElement" => (p.get? "argument").toList.attach.flatMap fun q => boundNames q.1
  | some "ArrayPattern" =>
    (p.itemsAt "elements").attach.flatMap fun q => if q.1.isNull then [] else boundNames q.1
  | some "ObjectPattern" =>
    (p.itemsAt "properties").attach.flatMap fun e =>
      let key := if e.1.getString? "type" = some "RestElement" then "argument" else "value"
      (e.1.get? key).toList.attach.flatMap fun q => boundNames q.1
  | _ => []
termination_by p.weight
decreasing_by
  · exact weight_lt_of_get? (Option.mem_toList.mp q.2)
  · exact weight_lt_of_get? (Option.mem_toList.mp q.2)
  · exact weight_lt_of_mem_itemsAt q.2
  · exact (weight_lt_of_get? (Option.mem_toList.mp q.2)).trans (weight_lt_of_mem_itemsAt e.2)

theorem entryPattern?_eq (e : Document) : entryPattern? e =
    e.get? (if e.getString? "type" = some "RestElement" then "argument" else "value") := by
  unfold entryPattern?
  split <;> simp_all

theorem flatMap_filter_isNull (f : Document → List String) (items : List Document) :
    (items.filter fun e => !e.isNull).flatMap f =
      items.flatMap fun e => if e.isNull then [] else f e := by
  induction items with
  | nil => rfl
  | cons e items ih => cases hn : e.isNull <;> simp [hn, ih]

theorem flatMap_attach {α β : Type} (xs : List α) (f : α → List β) :
    (xs.attach.flatMap fun x => f x.1) = xs.flatMap f := by
  rw [List.flatMap_subtype (g := f) fun _ _ => rfl, List.unattach_attach]

/-- A pattern binds its own name and then what the patterns directly inside it bind. -/
theorem boundNames_eq (p : Document) :
    boundNames p = (ownName? p).toList ++ (innerPatterns p).flatMap boundNames := by
  rw [boundNames]
  unfold ownName? innerPatterns
  split
  next htype => simp [htype]
  next htype =>
    simp only [htype, flatMap_attach]
    rfl
  next htype =>
    simp only [htype, flatMap_attach]
    rfl
  next htype =>
    rw [htype, flatMap_attach _ fun q : Document => if q.isNull then [] else boundNames q,
      ← flatMap_filter_isNull]
    rfl
  next htype =>
    simp only [flatMap_attach _ boundNames, ← entryPattern?_eq]
    rw [htype, flatMap_attach _ fun e : Document => (entryPattern? e).toList.flatMap boundNames,
      ← List.flatMap_assoc, ← List.filterMap_eq_flatMap_toList]
    rfl
  next =>
    -- none of the tags with a pattern inside
    split
    · contradiction
    · split <;> first | contradiction | rfl

/-! ## The scan -/

theorem sum_weights_filterMap_le (entries : List Document) :
    ((entries.filterMap entryPattern?).map weight).sum ≤ (entries.map weight).sum := by
  induction entries with
  | nil => exact Nat.le_refl 0
  | cons e entries ih =>
    rw [List.map_cons, List.sum_cons]
    cases he : entryPattern? e with
    | none =>
      rw [List.filterMap_cons_none he]
      omega
    | some q =>
      have hlt : q.weight < e.weight := weight_lt_of_get? ((entryPattern?_eq e).symm.trans he)
      rw [List.filterMap_cons_some he, List.map_cons, List.sum_cons]
      omega

/-- The patterns directly inside a pattern weigh less than it does, all together. -/
theorem sum_weights_innerPatterns_lt (p : Document) :
    ((innerPatterns p).map weight).sum < p.weight := by
  have hfield (key : String) : ((p.get? key).toList.map weight).sum < p.weight := by
    cases h : p.get? key with
    | none => exact p.weight_pos
    | some v => simpa using weight_lt_of_get? h
  unfold innerPatterns
  split
  · exact hfield "left"
  · exact hfield "argument"
  · refine Nat.lt_of_le_of_lt ?_ (p.sum_weights_itemsAt_lt "elements")
    exact (List.filter_sublist.map weight).sum_le_sum fun _ _ => Nat.zero_le _
  · exact (sum_weights_filterMap_le _).trans_lt (p.sum_weights_itemsAt_lt "properties")
  · exact p.weight_pos

/-- With a round for all that the pending patterns weigh, none of them is left over. -/
theorem pendingNames_eq (fuel : ℕ) (pending : List Document)
    (h : (pending.map weight).sum ≤ fuel) :
    pendingNames fuel pending = pending.flatMap boundNames := by
  induction fuel generalizing pending with
  | zero =>
    cases pending with
    | nil => rfl
    | cons p rest =>
      have := p.weight_pos
      rw [List.map_cons, List.sum_cons] at h
      omega
  | succ fuel ih =>
    cases pending with
    | nil => rfl
    | cons p rest =>
      have hinner := sum_weights_innerPatterns_lt p
      have hrest : ((innerPatterns p ++ rest).map weight).sum ≤ fuel := by
        rw [List.map_cons, List.sum_cons] at h
        rw [List.map_append, List.sum_append]
        omega
      rw [pendingNames, ih _ hrest, List.flatMap_append, List.flatMap_cons, boundNames_eq p,
        List.append_assoc]

/-- A scan from a stack of patterns to its end, with the names that it notes. The last pattern on
    the stack is the next, and the patterns directly inside it are pushed in reverse order, so that
    the leftmost of them comes off first. -/
inductive Scans : (stack : List Document) → (names : List String) → Prop
  | done : Scans [] []
  | take {p : Document} {stack : List Document} {names : List String}
    (rest : Scans (stack ++ (innerPatterns p).reverse) names) :
    Scans (stack ++ [p]) ((ownName? p).toList ++ names)

theorem Scans.names_eq {stack : List Document} {names : List String} (h : Scans stack names) :
    names = stack.reverse.flatMap boundNames := by
  induction h with
  | done => rfl
  | @take p stack names _ ih =>
    rw [ih, List.reverse_append, List.reverse_reverse, List.flatMap_append, List.reverse_concat,
      List.flatMap_cons, boundNames_eq p, List.append_assoc]

/-- Every scan ends: what is on the stack weighs less after each round. -/
theorem scans_flatMap (stack : List Document) :
    Scans stack (stack.reverse.flatMap boundNames) := by
  induction hw : (stack.map weight).sum using Nat.strong_induction_on generalizing stack with
  | _ w ih =>
    rcases List.eq_nil_or_concat' stack with rfl | ⟨stack, p, rfl⟩
    · exact .done
    · have hless : ((stack ++ (innerPatterns p).reverse).map weight).sum < w := by
        have hinner := sum_weights_innerPatterns_lt p
        simp only [List.map_append, List.sum_append, List.map_reverse, List.sum_reverse,
          List.map_cons, List.map_nil, List.sum_cons, List.sum_nil] at hw ⊢
        omega
      have hrest := (ih _ hless _ rfl).take
      rwa [List.reverse_append, List.reverse_reverse, List.flatMap_append, ← List.append_assoc,
        ← boundNames_eq, ← List.flatMap_cons, ← List.reverse_concat] at hrest

theorem scans_iff {stack : List Document} {names : List String} :
    Scans stack names ↔ names = stack.reverse.flatMap boundNames :=
  ⟨Scans.names_eq, fun h => h ▸ scans_flatMap stack⟩

/-- Whatever a document looks like, the names it binds as a pattern are those that the recursion
    over it lists, from left to right; the scan for them ends, and it notes just these. -/
theorem pattern_names_in_order (p : Document) :
    patternNames p = boundNames p ∧ ∀ names, Scans [p] names ↔ names = patternNames p := by
  have hnames : patternNames p = boundNames p := by
    rw [patternNames, pendingNames_eq _ _ (by simp), List.flatMap_singleton]
  refine ⟨hnames, fun names => ?_⟩
  rw [scans_iff, List.reverse_singleton, List.flatMap_singleton, hnames]

end Scope

end ScriptSandbox

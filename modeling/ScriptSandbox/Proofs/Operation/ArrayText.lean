import Mathlib.Logic.Relation
import ScriptSandbox.Proofs.Step.Suspension
import ScriptSandbox.Proofs.World.Marks
import ScriptSandbox.Session.Basic

/-
  The text of an array.

  `joinedText` says what an array reads as without any marks: the arrays on the way down from the
  outermost one are kept in a path, and an array on the path reads as nothing. A join cuts cycles
  with marks instead. While it goes on, the marked arrays are just those on the path (`Joining`),
  so both cut at the same places; and since every array that is entered is one more on the path,
  the joins nest no deeper than there are arrays. As long as no object in reach has a conversion
  method of its own, nothing is asked, and the join comes out with the text at once
  (`array_text_eq`).
-/

namespace ScriptSandbox

/-! ## Evaluations that end at once -/

section

variable {E α β : Type} {P : α → Prop} {Q : β → Prop} {w : World E} {id : ArrayId}

/-- The mark of an array that was not marked can be taken back. -/
theorem World.markJoining_markJoining (h : (w.array id).joining = false) (n : Nat) :
    World.markJoining id false { w.markJoining id true with nextText := n } =
      { w with nextText := n } := by
  have harrays : (w.arrays.modify id fun a => { a with joining := true }).modify id
      (fun a => { a with joining := false }) = w.arrays := by
    refine Array.ext_getElem? fun j => ?_
    simp only [Array.getElem?_modify]
    split
    · next hj =>
      subst hj
      cases ha : w.arrays[id]? with
      | none => rfl
      | some a =>
        have hmark : a.joining = false := by
          rw [← h, World.array, ha]
          rfl
        simp only [Option.map_some, ← hmark]
    · rfl
  simp only [markJoining, modifyArray, harrays]

/-- The evaluation asks nothing and has a result, and of the world it uses up no more than numbers
    of strings. -/
def Step.Computes (P : α → Prop) (s : Evaluation E α) (w : World E) : Prop :=
  ∃ a n, s.settle w = (.finished (.ok a), { w with nextText := n }) ∧ P a

namespace Step.Computes

theorem ready {a : α} (h : P a) : Computes P (.ready a) w := ⟨a, w.nextText, rfl, h⟩

theorem mono {s : Evaluation E α} {P' : α → Prop} (h : s.Computes P w) (hP : ∀ a, P a → P' a) :
    s.Computes P' w := by
  obtain ⟨a, n, hs, ha⟩ := h
  exact ⟨a, n, hs, hP a ha⟩

theorem andThen {s : Evaluation E α} {f : α → Evaluation E β} (h : s.Computes P w)
    (hf : ∀ a n, P a → (f a).Computes Q { w with nextText := n }) : (s.andThen f).Computes Q w := by
  obtain ⟨a, n, hs, ha⟩ := h
  obtain ⟨b, n', hb, hQ⟩ := hf a n ha
  refine ⟨b, n', ?_, hQ⟩
  rw [settle_andThen, hs]
  exact hb

theorem holding (things : List Thing) {s : Evaluation E α} (h : s.Computes P (w.hold things)) :
    (Evaluation.holding things s).Computes P w := by
  obtain ⟨a, n, hs, ha⟩ := h
  refine ⟨a, n, ?_, ha⟩
  have hrelease : World.letGo things { w.hold things with nextText := n } =
      { w with nextText := n } := World.letGo_hold things { w with nextText := n }
  rw [Evaluation.holding, settle, settle_releasing, hs]
  exact congrArg _ hrelease

theorem marking {s : Evaluation E α} (hw : (w.array id).joining = false)
    (h : s.Computes P (w.markJoining id true)) :
    Computes P (.modify (World.markJoining id true) (s.releasing (World.markJoining id false)))
      w := by
  obtain ⟨a, n, hs, ha⟩ := h
  refine ⟨a, n, ?_, ha⟩
  rw [settle, settle_releasing, hs]
  exact congrArg _ (World.markJoining_markJoining hw n)

theorem newText (s : String) :
    Computes (fun t : Text => t.content = s) (.compute (World.newText s)) w := by
  by_cases hs : s = ""
  · refine ⟨.empty, w.nextText, ?_, hs.symm⟩
    simp only [settle_compute, World.newText, if_pos hs]
  · refine ⟨⟨w.nextText, s⟩, w.nextText + 1, ?_, rfl⟩
    simp only [settle_compute, World.newText, if_neg hs]

end Step.Computes

/-- The primitive is a string with these characters. -/
def Primitive.Reads (s : String) (p : Primitive) : Prop := ∃ t : Text, p = .string t ∧ t.content = s

end

/-! ## The text without marks -/

namespace World

variable {E : Type}

/-- The arrays of the heap that are not on a path. -/
def offPath (w : World E) (path : List ArrayId) : List ArrayId :=
  (List.range w.arrays.size).filter fun id => id ∉ path

/-- An array with elements is one of the heap, so there are fewer arrays off the path below it. -/
theorem length_offPath_lt {w : World E} {path : List ArrayId} {id : ArrayId} {v : Value}
    (hid : id ∉ path) (hv : v ∈ (w.array id).elements) :
    (w.offPath (id :: path)).length < (w.offPath path).length := by
  have hlt : id < w.arrays.size := by
    refine Nat.lt_of_not_le fun hle => ?_
    rw [elements_of_size_le hle] at hv
    exact Array.not_mem_empty v hv
  have hsplit : w.offPath (id :: path) = (w.offPath path).filter fun j => j ≠ id := by
    simp only [offPath, List.filter_filter, List.mem_cons, not_or, Bool.decide_and]
  rw [hsplit]
  refine List.length_filter_lt_length_iff_exists.mpr ⟨id, ?_, by simp⟩
  exact List.mem_filter.mpr ⟨List.mem_range.mpr hlt, by simpa using hid⟩

variable [Embedding E]

/-- What an object reads as when no conversion method says otherwise. -/
def builtInText (w : World E) (v : Value) : String :=
  if w.isCallable v then "function () \x7b [code] \x7d" else "[object Object]"

/-- What an element reads as inside the arrays of a path. -/
def elementText (w : World E) (path : List ArrayId) (v : Value) : String :=
  match v with
  | .primitive p => if p.isNullish then "" else p.text
  | .array id =>
    if _h : id ∈ path then ""
    else
      ",".intercalate
        ((w.array id).elements.toList.attach.map fun ⟨v, _⟩ => w.elementText (id :: path) v)
  | v => w.builtInText v
termination_by (w.offPath path).length
decreasing_by
  next hv => exact length_offPath_lt _h (Array.mem_toList_iff.mp hv)

/-- What an array inside the arrays of a path reads as: the texts of its elements with commas
    between them. -/
def joinedText (w : World E) (path : List ArrayId) (id : ArrayId) : String :=
  ",".intercalate ((w.array id).elements.toList.map (w.elementText (id :: path)))

theorem elementText_array (w : World E) (path : List ArrayId) (id : ArrayId) :
    w.elementText path (.array id) = if id ∈ path then "" else w.joinedText path id := by
  rw [elementText, joinedText]
  split
  · rfl
  · exact congrArg _ (List.attach_map_val (f := w.elementText (id :: path)) ..)

theorem elementText_primitive (w : World E) (path : List ArrayId) (p : Primitive) :
    w.elementText path (.primitive p) = if p.isNullish then "" else p.text := by
  rw [elementText]

theorem elementText_object (w : World E) (path : List ArrayId) (id : ObjectId) :
    w.elementText path (.object id) = w.builtInText (.object id) := by
  simp only [elementText]

/-! ## Heaps without conversion methods -/

/-- A value that converts without asking anybody, apart from the elements of an array: no wrapper,
    and no object that has a conversion method or inherits one. -/
def Inert (w : World E) : Value → Prop
  | .primitive _ | .array _ => True
  | .object id => ∀ m, w.conversionMethod? (.object id) m = none
  | .bridge _ | .link _ => False

omit [Embedding E] in
/-- The second array is an element of the first one. -/
def HasArray (w : World E) (id sub : ArrayId) : Prop := .array sub ∈ (w.array id).elements

/-- Everything in an array, and in the arrays in it, is inert. -/
def InertBelow (w : World E) (id : ArrayId) : Prop :=
  ∀ sub, Relation.ReflTransGen w.HasArray id sub → ∀ v ∈ (w.array sub).elements, w.Inert v

theorem InertBelow.sub {w : World E} {id sub : ArrayId} (h : w.InertBelow id)
    (hsub : w.HasArray id sub) : w.InertBelow sub :=
  fun sub' hsub' => h sub' (.head hsub hsub')

omit [Embedding E] in
theorem chainWithin_congr {w w' : World E} (h : w'.objects = w.objects) (steps : Nat)
    (id : ObjectId) : w'.chainWithin steps id = w.chainWithin steps id := by
  induction steps generalizing id with
  | zero => rfl
  | succ steps ih =>
    have hparent : w'.parent? id = w.parent? id := by simp only [parent?, object, h]
    simp only [chainWithin, hparent, ih]

theorem conversionMethod?_congr {w w' : World E} (ho : w'.objects = w.objects)
    (hc : w'.isCallable = w.isCallable) (v : Value) (m : ConversionMethod) :
    w'.conversionMethod? v m = w.conversionMethod? v m := by
  cases v with
  | object id =>
    have hlookup : w'.lookup? id m.property = w.lookup? id m.property := by
      simp only [lookup?, chain, object, chainWithin_congr ho, ho]
    simp only [conversionMethod?, hlookup, hc]
  | _ => rfl

/-! ## Worlds in the middle of a join -/

/-- The world while the arrays of a path are being joined in a heap: the heap is as it was, apart
    from the marks, and those are on the arrays of the path. -/
structure Joining (heap : World E) (path : List ArrayId) (w : World E) : Prop where
  objects : w.objects = heap.objects
  callable : w.isCallable = heap.isCallable
  size : w.arrays.size = heap.arrays.size
  elements : ∀ id, (w.array id).elements = (heap.array id).elements
  marked : ∀ id, id < heap.arrays.size → ((w.array id).joining = true ↔ id ∈ path)

namespace Joining

variable {heap w : World E} {path : List ArrayId}

theorem start (h : ∀ id, (heap.array id).joining = false) : Joining heap [] heap where
  objects := rfl
  callable := rfl
  size := rfl
  elements _ := rfl
  marked id _ := by simp [h id]

theorem nextText (h : Joining heap path w) (n : Nat) :
    Joining heap path { w with nextText := n } := ⟨h.1, h.2, h.3, h.4, h.5⟩

theorem hold (h : Joining heap path w) (things : List Thing) :
    Joining heap path (w.hold things) := ⟨h.1, h.2, h.3, h.4, h.5⟩

theorem mark (h : Joining heap path w) (id : ArrayId) :
    Joining heap (id :: path) (w.markJoining id true) where
  objects := h.objects
  callable := h.callable
  size := (size_markJoining id true w).trans h.size
  elements j := by
    rw [← h.elements j]
    simp only [array, markJoining, modifyArray, Array.getElem?_modify]
    split
    · cases w.arrays[j]? <;> rfl
    · rfl
  marked j hj := by
    rw [joining_markJoining, List.mem_cons]
    by_cases hji : id = j
    · simp [hji, h.size, hj]
    · simp [hji, Ne.symm hji, h.marked j hj]

theorem method (h : Joining heap path w) {v : Value} {m : ConversionMethod}
    (hv : heap.conversionMethod? v m = none) : w.conversionMethod? v m = none := by
  rw [conversionMethod?_congr h.objects h.callable v m, hv]

theorem mem_path (h : Joining heap path w) {id : ArrayId} (hmark : (w.array id).joining = true) :
    id ∈ path := by
  have hlt : id < heap.arrays.size := by
    refine Nat.lt_of_not_le fun hle => ?_
    rw [joining_of_size_le (h.size ▸ hle)] at hmark
    cases hmark
  exact (h.marked id hlt).mp hmark

/-- What stands on the path without a mark is no array of the heap. -/
theorem elements_of_mem_path (h : Joining heap path w) {id : ArrayId}
    (hmark : ¬ (w.array id).joining = true) (hid : id ∈ path) : (heap.array id).elements = #[] := by
  refine elements_of_size_le (Nat.le_of_not_lt fun hlt => hmark ?_)
  exact (h.marked id hlt).mpr hid

end Joining

end World

/-! ## Joins -/

namespace Evaluation

open World (Joining)

variable {E : Type} [Embedding E] {heap w : World E} {path : List ArrayId} {realm : RealmId}
  {id : ArrayId} {v : Value}

theorem computes_elementTexts {toText : Value → Evaluation E String} (vs : List Value)
    (h : ∀ v ∈ vs, v.primitive? = none → ∀ w', Joining heap path w' →
      (toText v).Computes (· = heap.elementText path v) w')
    (done : List String) (hw : Joining heap path w) :
    (elementTexts toText vs done).Computes
      (· = done.reverse ++ vs.map (heap.elementText path)) w := by
  induction vs generalizing done w with
  | nil => exact .ready (by simp)
  | cons v rest ih =>
    have hrest {w' : World E} (done : List String) (hw' : Joining heap path w') :=
      ih (w := w') (fun u hu => h u (List.mem_cons_of_mem v hu)) done hw'
    have hmore {s : String} (hs : s = heap.elementText path v) (texts : List String)
        (ht : texts = (s :: done).reverse ++ rest.map (heap.elementText path)) :
        texts = done.reverse ++ (v :: rest).map (heap.elementText path) := by
      rw [ht, hs, List.reverse_cons, List.append_assoc, List.map_cons, List.singleton_append]
    cases v with
    | primitive p =>
      exact (hrest _ hw).mono (hmore (heap.elementText_primitive path p).symm)
    | _ =>
      refine (Step.Computes.holding _ (h _ List.mem_cons_self rfl _ (hw.hold _))).andThen ?_
      intro s n hs
      exact (hrest _ (hw.nextText n)).mono (hmore hs)

variable (realm) in
/-- Without a conversion method an object has its built-in text. -/
theorem settle_convertBy {joinArray : ArrayId → Evaluation E Primitive}
    (h : ∀ m, w.conversionMethod? v m = none) (hint : Hint) :
    (convertBy joinArray realm v hint.methods).settle w =
      (intrinsicText joinArray v).settle w := by
  cases hint <;> simp only [Hint.methods, convertBy, Step.settle, h]

variable (realm) in
theorem computes_toPrimitiveBy {joinArray : ArrayId → Evaluation E Primitive}
    (hv : heap.Inert v) (hp : v.primitive? = none) (hw : Joining heap path w)
    (hj : ∀ id, v = .array id →
      (joinArray id).Computes (Primitive.Reads (heap.elementText path v)) w) (hint : Hint) :
    (toPrimitiveBy joinArray realm hint v).Computes
      (Primitive.Reads (heap.elementText path v)) w := by
  cases v with
  | primitive p => cases hp
  | bridge id => exact hv.elim
  | link id => exact hv.elim
  | array id =>
    obtain ⟨p, n, hs, hr⟩ := hj id rfl
    refine ⟨p, n, ?_, hr⟩
    rw [← hs]
    exact settle_convertBy realm (fun _ => rfl) hint
  | object id =>
    have htext : (intrinsicText joinArray (.object id)).Computes
        (Primitive.Reads (heap.elementText path (.object id))) w := by
      rw [World.elementText_object, World.builtInText, ← hw.callable]
      exact (Step.Computes.newText _).andThen fun t n ht => .ready ⟨t, rfl, ht⟩
    obtain ⟨p, n, hs, hr⟩ := htext
    refine ⟨p, n, ?_, hr⟩
    rw [← hs]
    exact settle_convertBy realm (fun m => hw.method (hv m)) hint

/-- A join reads the array as nothing where it is on the path, and otherwise joins its elements
    with one more array on the path. -/
theorem computes_join {toText : Value → Evaluation E String}
    (h : id ∉ path → ∀ v ∈ (heap.array id).elements, v.primitive? = none →
      ∀ w', Joining heap (id :: path) w' →
        (toText v).Computes (· = heap.elementText (id :: path) v) w')
    (hw : Joining heap path w) :
    (join toText id).Computes (Primitive.Reads (heap.elementText path (.array id))) w := by
  rw [World.elementText_array]
  by_cases hmark : (w.array id).joining = true
  · rw [if_pos (hw.mem_path hmark)]
    refine ⟨.string .empty, w.nextText, ?_, .empty, rfl, rfl⟩
    simp only [join, Step.settle, if_pos hmark]
    rfl
  · have hjoin : (join toText id).settle w =
        (Step.modify (World.markJoining id true) <|
          Step.releasing (World.markJoining id false) do
            let texts ←
              holding [.value (.array id)] (elementTexts toText (w.array id).elements.toList [])
            let t ← Step.compute (World.newText (",".intercalate texts))
            return .string t : Evaluation E Primitive).settle w := by
      simp only [join, Step.settle, if_neg hmark]
    have hempty : id ∈ path → (heap.array id).elements = #[] := hw.elements_of_mem_path hmark
    have helements : ∀ v ∈ (w.array id).elements.toList, v.primitive? = none →
        ∀ w', Joining heap (id :: path) w' →
          (toText v).Computes (· = heap.elementText (id :: path) v) w' := by
      intro v hv
      rw [Array.mem_toList_iff, hw.elements id] at hv
      by_cases hid : id ∈ path
      · rw [hempty hid] at hv
        exact absurd hv (Array.not_mem_empty v)
      · exact h hid v hv
    have htext : (if id ∈ path then "" else heap.joinedText path id) =
        ",".intercalate ((w.array id).elements.toList.map (heap.elementText (id :: path))) := by
      rw [hw.elements id]
      split
      · next hid =>
        rw [hempty hid]
        rfl
      · rfl
    rw [htext, Step.Computes, hjoin]
    refine Step.Computes.marking (Bool.eq_false_iff.mpr hmark) ?_
    have hholding := Step.Computes.holding [.value (.array id)]
      (computes_elementTexts _ helements [] ((hw.mark id).hold _))
    refine hholding.andThen fun texts n ht => ?_
    refine (Step.Computes.newText _).andThen fun t n' hcontent => .ready ⟨t, rfl, ?_⟩
    rw [hcontent, ht]
    rfl

variable (realm) in
/-- Joins that may nest as deep as there are arrays off the path come out with the text. -/
theorem computes_joinWithin {depth : Nat} (hdepth : (heap.offPath path).length < depth)
    (hid : heap.InertBelow id) (hw : Joining heap path w) :
    (joinWithin realm depth id).Computes
      (Primitive.Reads (heap.elementText path (.array id))) w := by
  induction depth generalizing id path w with
  | zero => omega
  | succ depth ih =>
    refine computes_join (fun hnew v hv hp w' hw' => ?_) hw
    have hless := World.length_offPath_lt hnew hv
    have hinert : heap.Inert v := hid id .refl v hv
    have harray (sub : ArrayId) (hsub : v = .array sub) :
        (joinWithin realm depth sub).Computes
          (Primitive.Reads (heap.elementText (id :: path) v)) w' := by
      subst hsub
      exact ih (by omega) (hid.sub hv) hw'
    refine (computes_toPrimitiveBy realm hinert hp hw' harray .string).andThen ?_
    rintro p n ⟨t, rfl, ht⟩
    exact .ready ht

end Evaluation

open World in
/-- The text of an array, in a heap where no join is in progress and nothing in the array or in the
    arrays in it has a conversion method: it is there at once, without any request, and it is the
    text that `joinedText` gives, with the array as the outermost one. Only numbers of strings have
    been used up. An array that stands there twice, side by side, is written out both times. -/
theorem Value.array_text_eq {E : Type} [Embedding E] (w : World E) (id : ArrayId)
    (realm : RealmId) (hrest : ∀ id, (w.array id).joining = false) (hid : w.InertBelow id) :
    (∃ n, ((Value.array id).toText realm).settle w =
      (.finished (.ok (w.joinedText [] id)), { w with nextText := n })) ∧
    (∀ hint, ∃ t n, ((Value.array id).toPrimitive hint realm).settle w =
      (.finished (.ok (.string t)), { w with nextText := n }) ∧ t.content = w.joinedText [] id) ∧
    ∀ sub front back, sub ≠ id →
      (w.array id).elements.toList = front ++ [.array sub, .array sub] ++ back →
      w.joinedText [] id =
        ",".intercalate (front.map (w.elementText [id]) ++
          [w.joinedText [id] sub, w.joinedText [id] sub] ++ back.map (w.elementText [id])) := by
  have hprimitive (hint : Hint) : ((Value.array id).toPrimitive hint realm).Computes
      (Primitive.Reads (w.joinedText [] id)) w := by
    have hdepth : (w.offPath []).length < w.arrays.size + Evaluation.arrayReserve := by
      have hle : (w.offPath []).length ≤ (List.range w.arrays.size).length :=
        List.length_filter_le _ _
      have hpos : 0 < Evaluation.arrayReserve := Nat.pow_pos (by decide)
      rw [List.length_range] at hle
      omega
    have htext : w.elementText [] (.array id) = w.joinedText [] id := elementText_array w [] id
    have hjoin := Evaluation.computes_joinWithin realm hdepth hid (.start hrest)
    have hconvert := Evaluation.computes_toPrimitiveBy realm (v := .array id) trivial rfl
      (.start hrest) (fun sub hsub => by cases hsub; exact hjoin) hint
    rw [htext] at hconvert
    exact hconvert
  refine ⟨?_, fun hint => ?_, fun sub front back hsub helements => ?_⟩
  · obtain ⟨s, n, hs, rfl⟩ := (hprimitive .string).andThen
      (f := fun p => Step.ready p.text) (Q := (· = w.joinedText [] id))
      (by rintro p n ⟨t, rfl, ht⟩; exact .ready ht)
    exact ⟨n, hs⟩
  · obtain ⟨p, n, hs, t, rfl, ht⟩ := hprimitive hint
    exact ⟨t, n, hs, ht⟩
  · have htext : w.elementText [id] (.array sub) = w.joinedText [id] sub := by
      rw [elementText_array, if_neg (by simpa using hsub)]
    rw [joinedText, helements, List.map_append, List.map_append, List.map_cons, List.map_cons,
      List.map_nil, htext]

/-- A world with an array that holds another one twice, itself, a plain object and a function. The
    inner array holds the outer one. -/
def Session.ringWorld : World Session :=
  { World.empty (ofRecords #[]) with
    objects := #[⟨∅, none, none⟩, ⟨∅, none, some ⟨0, none⟩⟩]
    arrays := #[⟨#[.array 1, .array 1, .array 0, .object 0, .object 1, .null], false⟩,
      ⟨#[.boolean true, .array 0, .undefined], false⟩] }

/-- Both occurrences of the inner array are written out, and both cycles are cut. -/
theorem Session.array_text_eq_ring :
    (∀ id, (ringWorld.array id).joining = false) ∧ ringWorld.InertBelow 0 ∧
      ∃ n, ((Value.array 0).toText 0).settle ringWorld =
        (.finished (.ok "true,,,true,,,,[object Object],function () \x7b [code] \x7d,"),
          { ringWorld with nextText := n }) := by
  have hrest : ∀ id, (ringWorld.array id).joining = false
    | 0 | 1 | _ + 2 => rfl
  have hobject : ∀ id m, ringWorld.conversionMethod? (.object id) m = none
    | 0, m | 1, m | _ + 2, m => by cases m <;> rfl
  have hid : ringWorld.InertBelow 0 := by
    intro sub _ v hv
    have hwrapper : ∀ sub, ∀ v ∈ (ringWorld.array sub).elements.toList,
        ∀ id, v ≠ .bridge id ∧ v ≠ .link id
      | 0 | 1 => by simp [ringWorld, World.array]
      | _ + 2 => fun v hv => absurd hv List.not_mem_nil
    cases v with
    | object id => exact hobject id
    | bridge id => exact absurd rfl (hwrapper sub _ (Array.mem_toList_iff.mpr hv) id).1
    | link id => exact absurd rfl (hwrapper sub _ (Array.mem_toList_iff.mpr hv) id).2
    | _ => trivial
  have houter : (ringWorld.array 0).elements.toList =
      [.array 1, .array 1, .array 0, .object 0, .object 1, .null] := rfl
  have hinner : ringWorld.joinedText [0] 1 = "true,," := by
    have helements : (ringWorld.array 1).elements.toList =
        [.boolean true, .array 0, .undefined] := rfl
    rw [World.joinedText, helements]
    simp only [List.map_cons, List.map_nil, World.elementText_primitive, World.elementText_array]
    rfl
  have htext : ringWorld.joinedText [] 0 =
      "true,,,true,,,,[object Object],function () \x7b [code] \x7d," := by
    rw [World.joinedText, houter]
    simp only [List.map_cons, List.map_nil, World.elementText_primitive, World.elementText_array,
      World.elementText_object, hinner]
    rfl
  rw [← htext]
  exact ⟨hrest, hid, (Value.array_text_eq ringWorld 0 0 hrest hid).1⟩

end ScriptSandbox

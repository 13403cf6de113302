import Mathlib.Data.List.Perm.Subperm
import ScriptSandbox.Proofs.Operation.Asking
import ScriptSandbox.Proofs.Operation.Joining
import ScriptSandbox.Proofs.Step.Ending

/-
  The depth of joins.

  Every array that is joined inside another one carries a mark of its own, so the joins that are in
  progress make up a path without repetition (`World.Nests`), and no such path is longer than there
  are arrays. Scripts make arrays while a join waits for them, but they cannot take a mark back
  (`Handler.keepsMarks_of_scripted`). So a join breaks off for want of arrays only when as many were
  made as are reserved for it (`World.Spent`), and behind a handler that answers every conversion
  ends otherwise (`Value.ends_toPrimitive`).
-/

namespace ScriptSandbox

variable {E α β : Type} {start w w' : World E} {path : List ArrayId} {id : ArrayId}

namespace World

/-- As many arrays were made as are reserved for a join. -/
def Spent (start w : World E) : Prop :=
  start.arrays.size + Evaluation.arrayReserve ≤ w.arrays.size

/-- The arrays of the path are being joined, each one inside the next. -/
structure Nests (start : World E) (path : List ArrayId) (w : World E) : Prop where
  nodup : path.Nodup
  marked : ∀ id ∈ path, (w.array id).joining = true
  size : start.arrays.size ≤ w.arrays.size

namespace Nests

theorem refl (w : World E) : Nests w [] w :=
  ⟨List.nodup_nil, by simp, Nat.le_refl _⟩

theorem keepsMarks (h : Nests start path w) (hw : KeepsMarks w w') : Nests start path w' :=
  ⟨h.nodup, fun id hid => hw.marked id (h.marked id hid), Nat.le_trans h.size hw.size⟩

theorem sameMarks (h : Nests start path w) (hw : SameMarks w w') : Nests start path w' :=
  h.keepsMarks hw.keepsMarks

theorem length_le (h : Nests start path w) : path.length ≤ w.arrays.size := by
  have hsub : path ⊆ List.range w.arrays.size := fun id hid => by
    refine List.mem_range.mpr (Nat.lt_of_not_le fun hle => ?_)
    have hmark := h.marked id hid
    rw [joining_of_size_le hle] at hmark
    cases hmark
  have hle := (List.subperm_of_subset h.nodup hsub).length_le
  rwa [List.length_range] at hle

theorem notMem (h : Nests start path w) (hw : (w.array id).joining = false) : id ∉ path := by
  intro hid
  rw [h.marked id hid] at hw
  cases hw

/-- One more array is joined inside the others. -/
theorem mark (h : Nests start path w) (hw : (w.array id).joining = false)
    (hid : id < w.arrays.size) : Nests start (id :: path) (w.markJoining id true) := by
  refine ⟨List.nodup_cons.mpr ⟨h.notMem hw, h.nodup⟩, fun i hi => ?_, ?_⟩
  · rw [joining_markJoining]
    by_cases hsame : id = i
    · rw [if_pos ⟨hsame, hsame ▸ hid⟩]
    · rw [if_neg fun hboth => hsame hboth.1]
      obtain rfl | hi := List.mem_cons.mp hi
      · exact absurd rfl hsame
      · exact h.marked i hi
  · rw [size_markJoining]
    exact h.size

/-- To take back the mark of an array that is not on the path changes none of the others. -/
theorem unmark_of_notMem (h : Nests start path w) (hid : id ∉ path) (joining : Bool) :
    Nests start path (w.markJoining id joining) := by
  refine ⟨h.nodup, fun i hi => ?_, ?_⟩
  · have hne : id ≠ i := fun hsame => hid (hsame ▸ hi)
    rw [joining_markJoining, if_neg fun hboth => hne hboth.1]
    exact h.marked i hi
  · rw [size_markJoining]
    exact h.size

theorem unmark (h : Nests start (id :: path) w) : Nests start path (w.markJoining id false) := by
  obtain ⟨hid, hnodup⟩ := List.nodup_cons.mp h.nodup
  have hrest : Nests start path w :=
    ⟨hnodup, fun i hi => h.marked i (List.mem_cons_of_mem id hi), h.size⟩
  exact hrest.unmark_of_notMem hid false

end Nests

theorem Spent.markJoining (h : Spent start w) (id : ArrayId) (joining : Bool) :
    Spent start (w.markJoining id joining) := by
  rw [Spent, size_markJoining]
  exact h

end World

open World (KeepsMarks Nests Spent)

namespace Evaluation

/-- Whatever the answers are, as long as no mark is taken back meanwhile: the arrays of the path are
    still being joined at the end, and for want of arrays the evaluation breaks off only when they
    are spent. -/
abbrev LastsOn (start : World E) (path : List ArrayId) (s : Evaluation E α) (w : World E) : Prop :=
  s.Lasts KeepsMarks (Nests start path) (Spent start) w

/-! ## Rules -/

theorem lastsOn_ready (a : α) (hw : Nests start path w) :
    LastsOn start path (.ready a : Evaluation E α) w := hw

theorem lastsOn_inspect {next : World E → Evaluation E α} (h : (next w).LastsOn start path w) :
    LastsOn start path (.inspect next) w := h

theorem lastsOn_holding {things : List Thing} {s : Evaluation E α}
    (h : ∀ w', Nests start path w' → s.LastsOn start path w') (hw : Nests start path w) :
    (holding things s).LastsOn start path w :=
  have hletGo (w' : World E) (hn : Nests start path w') : Nests start path (w'.letGo things) :=
    hn.sameMarks (.of_arrays_eq rfl)
  (h (w.hold things) (hw.sameMarks (.of_arrays_eq rfl))).releasing hletGo fun _ hs => hs

theorem lastsOn_holdingAtFirst {things : List Thing} {s : Evaluation E α}
    (h : ∀ w', Nests start path w' → s.LastsOn start path w') (hw : Nests start path w) :
    (holdingAtFirst things s).LastsOn start path w :=
  have hletGo (w' : World E) (hn : Nests start path w') : Nests start path (w'.letGo things) :=
    hn.sameMarks (.of_arrays_eq rfl)
  (h (w.hold things) (hw.sameMarks (.of_arrays_eq rfl))).untilRequest hletGo (fun _ hs => hs)
    fun _ _ hk => ⟨hk.size, hk.marked⟩

theorem lastsOn_newText (s : String) (hw : Nests start path w) :
    LastsOn start path (Step.compute (World.newText s) : Evaluation E Text) w :=
  hw.sameMarks (World.sameMarks_newText s w)

/-! ## Joins -/

theorem lastsOn_elementTexts {toText : Value → Evaluation E String} (vs : List Value)
    (ht : ∀ v ∈ vs, ∀ w', Nests start path w' → (toText v).LastsOn start path w')
    (done : List String) (hw : Nests start path w) :
    (elementTexts toText vs done).LastsOn start path w := by
  induction vs generalizing w done with
  | nil => exact hw
  | cons v rest ih =>
    have hrest {w' : World E} (done : List String) (hw' : Nests start path w') :=
      ih (w := w') (fun u hu => ht u (List.mem_cons_of_mem v hu)) done hw'
    cases v with
    | primitive p => exact hrest _ hw
    | _ =>
      exact (lastsOn_holding (ht _ List.mem_cons_self) hw).andThen fun _ _ hw' => hrest _ hw'

/-- What a join does between its marks. -/
theorem lastsOn_joined {toText : Value → Evaluation E String} {vs : List Value}
    (ht : ∀ v ∈ vs, ∀ w', Nests start path w' → (toText v).LastsOn start path w')
    (hw : Nests start path w) :
    LastsOn start path (do
      let texts ← holding [.value (.array id)] (elementTexts toText vs [])
      let t ← Step.compute (World.newText (",".intercalate texts))
      return Primitive.string t) w :=
  Step.Lasts.andThen (lastsOn_holding (fun _ hw' => lastsOn_elementTexts vs ht [] hw') hw)
    fun _ _ hw' => (lastsOn_newText _ hw').andThen fun _ _ => lastsOn_ready _

/-- The elements of an array are converted with one more array on the path. -/
theorem lastsOn_join {toText : Value → Evaluation E String}
    (ht : ∀ v w', Nests start (id :: path) w' → (toText v).LastsOn start (id :: path) w')
    (hw : Nests start path w) : (join toText id).LastsOn start path w := by
  refine lastsOn_inspect ?_
  simp only
  split
  · exact hw
  · next hmark =>
    have hunmarked : (w.array id).joining = false := Bool.eq_false_iff.mpr hmark
    by_cases hid : id < w.arrays.size
    · exact (lastsOn_joined (fun v _ => ht v) (hw.mark hunmarked hid)).releasing
        (fun _ hn => hn.unmark) fun _ hs => hs.markJoining id false
    · -- without such an array there is nothing to mark, and there are no elements
      have hempty : (w.array id).elements.toList = [] := by
        rw [World.elements_of_size_le (Nat.le_of_not_lt hid)]
      have hnone : ∀ v ∈ (w.array id).elements.toList, ∀ w', Nests start path w' →
          (toText v).LastsOn start path w' := fun v hv => by
        rw [hempty] at hv
        cases hv
      have hsame := hw.notMem hunmarked
      exact (lastsOn_joined hnone (hw.unmark_of_notMem hsame true)).releasing
        (fun _ hn => hn.unmark_of_notMem hsame false) fun _ hs => hs.markJoining id false

/-! ## Conversions -/

variable [Embedding E]

/-- A bounded step that touches no mark. -/
theorem lastsOn_of_touches {n : Nat} {s : Evaluation E α} (h : s.AsksAtMost n)
    (hs : s.Touches .nothing w) (hw : Nests start path w) : s.LastsOn start path w :=
  h.lasts hs (fun _ _ hc hn => hn.sameMarks (hc.sameMarks fun hf => hf))
    (fun _ _ hk hn => hn.keepsMarks hk) hw

variable {joinArray : ArrayId → Evaluation E Primitive} {realm : RealmId} {hint : Hint} {v : Value}

theorem lastsOn_intrinsicText
    (hj : ∀ id w', Nests start path w' → (joinArray id).LastsOn start path w')
    (hw : Nests start path w) : (intrinsicText joinArray v).LastsOn start path w := by
  have htext (s : String) : LastsOn start path
      ((Step.compute (World.newText s)).andThen fun t => .ready (Primitive.string t)) w :=
    (lastsOn_newText s hw).andThen fun _ _ => lastsOn_ready _
  cases v with
  | array id => exact hj id w hw
  | primitive p | object id | bridge id | link id => exact lastsOn_inspect (htext _)

theorem lastsOn_convertBy
    (hj : ∀ id w', Nests start path w' → (joinArray id).LastsOn start path w')
    (methods : List ConversionMethod) (hw : Nests start path w) :
    (convertBy joinArray realm v methods).LastsOn start path w := by
  induction methods generalizing w with
  | nil => exact lastsOn_of_touches (n := 0) (fun _ => trivial) (touches_fail realm _) hw
  | cons m rest ih =>
    refine lastsOn_inspect ?_
    split
    · next method _ =>
      have hcall (w' : World E) (hw' : Nests start path w') :
          (method.call v [] realm).LastsOn start path w' :=
        lastsOn_of_touches (asksAtMost_call method v []) Value.touches_call hw'
      refine (lastsOn_holding hcall hw).andThen fun result w' hw' => ?_
      split
      · exact hw'
      · exact lastsOn_holdingAtFirst (fun w' hw' => ih hw') hw'
    · cases m with
      | toString => exact lastsOn_intrinsicText hj hw
      | valueOf => exact ih hw

theorem lastsOn_wrapper (hw : Nests start path w) :
    LastsOn start path (.inspect fun w => match w.native? v with
      | some n => hostToPrimitive n
      | none => .ready .undefined) w := by
  refine lastsOn_inspect ?_
  split
  · exact lastsOn_of_touches (asksAtMost_hostToPrimitive _) (touches_hostToPrimitive _) hw
  · exact hw

theorem lastsOn_toPrimitiveBy
    (hj : ∀ id w', Nests start path w' → (joinArray id).LastsOn start path w')
    (hw : Nests start path w) : (toPrimitiveBy joinArray realm hint v).LastsOn start path w := by
  cases v with
  | primitive p => exact hw
  | object id => exact lastsOn_convertBy hj _ hw
  | array id => exact lastsOn_convertBy hj _ hw
  | bridge id => exact lastsOn_wrapper hw
  | link id => exact lastsOn_wrapper hw

/-- The depth is used up only with as many arrays on the path as that takes. -/
theorem lastsOn_joinWithin {depth : Nat}
    (hdepth : start.arrays.size + arrayReserve ≤ depth + path.length)
    (hw : Nests start path w) : (joinWithin realm depth id).LastsOn start path w := by
  induction depth generalizing path w id with
  | zero =>
    intro _
    rw [Nat.zero_add] at hdepth
    exact Nat.le_trans hdepth hw.length_le
  | succ depth ih =>
    refine lastsOn_join (fun v w' hw' => ?_) hw
    have hinner : start.arrays.size + arrayReserve ≤ depth + (id :: path).length := by
      rw [List.length_cons]
      omega
    exact (lastsOn_toPrimitiveBy (fun _ _ => ih hinner) hw').andThen fun _ _ => lastsOn_ready _

theorem lastsOn_toPrimitive (v : Value) (hint : Hint) (realm : RealmId) (hw : Nests start [] w) :
    (v.toPrimitive hint realm).LastsOn start [] w := by
  have hdepth : start.arrays.size + arrayReserve ≤
      w.arrays.size + arrayReserve + ([] : List ArrayId).length :=
    Nat.add_le_add_right hw.size arrayReserve
  exact lastsOn_toPrimitiveBy (fun _ _ hw' => lastsOn_joinWithin hdepth hw') hw

theorem lastsOn_add (a b : Value) (realm : RealmId) (hw : Nests start [] w) :
    (a.add b realm).LastsOn start [] w := by
  refine Step.Lasts.andThen (lastsOn_holding (fun _ hw' => lastsOn_toPrimitive a _ realm hw') hw)
    fun p _ hw' => (lastsOn_toPrimitive b .default realm hw').andThen fun q w' hw' => ?_
  have hprimitives : (Value.addPrimitives p q : Evaluation E Value).Makes World.SameMarks w' := by
    rw [Value.addPrimitives]
    split
    · exact ⟨World.sameMarks_newText _ w', trivial⟩
    · cases p.toNumber <;> cases q.toNumber <;> trivial
  exact (asksAtMost_addPrimitives p q).lasts hprimitives (fun _ _ hs hn => hn.sameMarks hs)
    (fun _ _ hk hn => hn.keepsMarks hk) hw'

end Evaluation

/-! ## Handlers -/

variable [Embedding E]

open Driver (Evaluates Ends)

/-- No array is lost, and no mark is taken back, while a request is answered. -/
def Handler.KeepsMarks (handler : Handler (World E)) : Prop :=
  ∀ r w log answer w', Evaluates handler (handler r) w log answer w' → World.KeepsMarks w w'

/-- Whatever operations a handler performs, they give all marks back that they take. -/
theorem Handler.keepsMarks_of_scripted {handler : Handler (World E)}
    (h : ∀ r w, Scripted (handler r) w) : handler.KeepsMarks := by
  intro r w log answer w' heval
  have hrun : Driver.runWithin log.length .none handler (handler r) w = (.finished answer, w') :=
    (Driver.runWithin_iff_evaluates.mpr ⟨heval, Nat.le_refl _⟩).1
  have hbears (id : ArrayId) : World.Bears w id 0 w' := by
    have hpaid : (Driver.runWithin log.length .none handler (handler r) w).1.Orderly →
        World.Bears w id 0 (Driver.runWithin log.length .none handler (handler r) w).2 :=
      Driver.runWithin_owes (h r w).owes (fun r w => (h r w).owes) (World.bears_start w id) _
    rw [hrun] at hpaid
    exact hpaid trivial
  refine ⟨?_, fun id hid => (hbears id).joining_eq.trans hid⟩
  by_contra hlt
  have hlast : w'.arrays.size < w.arrays.size := Nat.lt_of_not_le hlt
  exact Nat.lt_irrefl _ ((hbears w'.arrays.size).settled hlast).1

namespace Value

variable {handler : Handler (World E)}

/-- Behind a handler that answers, the conversion of a value ends, or the arrays are spent. -/
theorem ends_toPrimitive (ha : handler.Answers (Spent w)) (hk : handler.KeepsMarks) (v : Value)
    (hint : Hint) (realm : RealmId) : Ends (Spent w) handler (v.toPrimitive hint realm) w :=
  (Evaluation.lastsOn_toPrimitive v hint realm (.refl w)).ends ha hk

theorem ends_add (ha : handler.Answers (Spent w)) (hk : handler.KeepsMarks) (a b : Value)
    (realm : RealmId) : Ends (Spent w) handler (a.add b realm) w :=
  (Evaluation.lastsOn_add a b realm (.refl w)).ends ha hk

end Value

end ScriptSandbox

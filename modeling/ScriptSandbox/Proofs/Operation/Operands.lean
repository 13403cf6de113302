import ScriptSandbox.Proofs.Number.WordOperator
import ScriptSandbox.Proofs.Operation.Equality
import ScriptSandbox.Proofs.Step.Sequence

/-
  Operands.

  A binary operator converts its left operand while the right one is held, and then the right one.
  `RunsInTurn` is a run of two evaluations like that: of the first one alone when it comes to no
  result, and else of both, one behind the other. The runs of the numeric operators and of the
  addition are the runs of their conversions in turn. What is computed on the results makes no
  request and does not fail, neither for the numbers nor for the primitives of an addition
  (`operands_in_turn`).
-/

namespace ScriptSandbox

open Driver (Runs runs_of_finished_iff)

variable {E α β γ : Type} {limits : Limits (World E)} {handler : Handler (World E)} {steps : Nat}
  {things : List Thing} {w w' : World E} {log : List Request}

/-! ## Two evaluations in turn -/

namespace Evaluation

/-- Of two evaluations the first one is run while things are held, and the second one is run if the
    first one comes to a result. A pair of results comes out, or else what the last evaluation came
    to. The state is the one in which that ended. -/
inductive RunsInTurn (limits : Limits (World E)) (handler : Handler (World E)) (steps : Nat)
    (things : List Thing) (first : Evaluation E α) (second : Evaluation E β) (w : World E) :
    (log : List Request) → Outcome (α × β) → World E → Prop
  | first {log o both w₁}
    (h : Runs limits handler steps (.main first) (w.hold things) log o w₁) (hp : o.Passes both) :
    RunsInTurn limits handler steps things first second w log both w₁
  | second {log₁ x w₁ log₂ o both w₂}
    (h₁ : Runs limits handler steps (.main first) (w.hold things) log₁ (.finished (.ok x)) w₁)
    (h₂ : Runs limits handler (steps + log₁.length) (.main second) (w₁.letGo things) log₂ o w₂)
    (hp : o.Passes both) :
    RunsInTurn limits handler steps things first second w (log₁ ++ log₂) both w₂
  | both {log₁ x w₁ log₂ y w₂}
    (h₁ : Runs limits handler steps (.main first) (w.hold things) log₁ (.finished (.ok x)) w₁)
    (h₂ : Runs limits handler (steps + log₁.length) (.main second) (w₁.letGo things) log₂
      (.finished (.ok y)) w₂) :
    RunsInTurn limits handler steps things first second w (log₁ ++ log₂)
      (.finished (.ok (x, y))) w₂

theorem runs_holding {s : Evaluation E α} {outcome : Outcome α} :
    Runs limits handler steps (.main (holding things s)) w log outcome w' ↔
      Runs limits handler steps ((Driver.Task.main s).releasing (World.letGo things))
        (w.hold things) log outcome w' := by
  have hmove : Driver.move limits steps (.main (holding things s)) w =
      Driver.move limits steps ((Driver.Task.main s).releasing (World.letGo things))
        (w.hold things) := rfl
  exact ⟨fun h => h.of_move_eq hmove.symm, fun h => h.of_move_eq hmove⟩

variable {first : Evaluation E α} {second : Evaluation E β}

theorem RunsInTurn.of_results {x : α} {y : β}
    (h : RunsInTurn limits handler steps things first second w log (.finished (.ok (x, y))) w') :
    ∃ log₁ w₁ log₂, log = log₁ ++ log₂ ∧
      Runs limits handler steps (.main first) (w.hold things) log₁ (.finished (.ok x)) w₁ ∧
      Runs limits handler (steps + log₁.length) (.main second) (w₁.letGo things) log₂
        (.finished (.ok y)) w' := by
  cases h with
  | first _ hp => cases hp
  | second _ _ hp => cases hp
  | both h₁ h₂ => exact ⟨_, _, _, rfl, h₁, h₂⟩

/-- A run of a sequence that uses the results of two evaluations. -/
theorem runs_use_iff {use : α → β → Evaluation E γ} {outcome : Outcome γ} :
    (∃ w', Runs limits handler steps (.main ((holding things first).andThen fun x =>
        second.andThen fun y => use x y)) w log outcome w') ↔
      (∃ both w₁, RunsInTurn limits handler steps things first second w log both w₁ ∧
        both.Passes outcome) ∨
      ∃ x y log₁ w₁ log₂ w', log = log₁ ++ log₂ ∧
        RunsInTurn limits handler steps things first second w log₁ (.finished (.ok (x, y))) w₁ ∧
        Runs limits handler (steps + log₁.length) (.main (use x y)) w₁ log₂ outcome w' := by
  constructor
  · rintro ⟨w', h⟩
    obtain ⟨o, hheld, hp⟩ | ⟨x, log₁, w₁, log₂, rfl, hheld, hsecond⟩ :=
      Driver.runs_andThen_iff.mp h
    · obtain ⟨w₁, hfirst, -⟩ := (runs_holding.mp hheld).of_releasing
      obtain ⟨both, hpboth, hp⟩ := hp.exists_between (β := α × β)
      exact .inl ⟨both, w₁, .first hfirst hpboth, hp⟩
    · obtain ⟨w₁, hfirst, rfl⟩ := (runs_holding.mp hheld).of_releasing
      obtain ⟨o, hsecond, hp⟩ | ⟨y, log₂, w₂, log₃, rfl, hsecond, huse⟩ :=
        Driver.runs_andThen_iff.mp hsecond
      · obtain ⟨both, hpboth, hp⟩ := hp.exists_between (β := α × β)
        exact .inl ⟨both, w', .second hfirst hsecond hpboth, hp⟩
      · refine .inr ⟨x, y, log₁ ++ log₂, w₂, log₃, w', (List.append_assoc ..).symm,
          .both hfirst hsecond, ?_⟩
        rwa [List.length_append, ← Nat.add_assoc]
  · rintro (⟨both, w₁, hboth, hp⟩ | ⟨x, y, log₁, w₁, log₂, w', rfl, hboth, huse⟩)
    · cases hboth with
      | first hfirst hpboth =>
        obtain ⟨w₂, hheld, -⟩ := hfirst.releasing (World.letGo things)
        exact ⟨w₂, (runs_holding.mpr hheld).andThen_of_passes (hpboth.trans hp)⟩
      | @second log₁ x _ log₂ o _ _ hfirst hsecond hpboth =>
        obtain ⟨_, hheld, rfl⟩ := hfirst.releasing (World.letGo things)
        have hpassed := hsecond.andThen_of_passes (f := use x) (hpboth.trans hp)
        exact ⟨w₁, (runs_holding.mpr hheld).andThen hpassed⟩
      | both => cases hp
    · obtain ⟨log₁, w₂, log₃, rfl, hfirst, hsecond⟩ := hboth.of_results
      obtain ⟨_, hheld, rfl⟩ := hfirst.releasing (World.letGo things)
      rw [List.length_append, ← Nat.add_assoc] at huse
      rw [List.append_assoc]
      exact ⟨w', (runs_holding.mpr hheld).andThen (hsecond.andThen huse)⟩

/-- A computation that asks for nothing and has one result adds that result to the runs of the two
    evaluations, and nothing else. -/
theorem runs_compute_iff {use : α → β → Evaluation E γ} (result : α → β → World E → γ → Prop)
    (huse : ∀ x y u, ∃ v u', (use x y).settle u = (.finished (.ok v), u') ∧
      ∀ v', result x y u v' ↔ v' = v)
    {outcome : Outcome γ} :
    (∃ w', Runs limits handler steps (.main ((holding things first).andThen fun x =>
        second.andThen fun y => use x y)) w log outcome w') ↔
      ∃ both w₁, RunsInTurn limits handler steps things first second w log both w₁ ∧
        (both.Passes outcome ∨ ∃ x y v, both = .finished (.ok (x, y)) ∧ result x y w₁ v ∧
          outcome = .finished (.ok v)) := by
  refine runs_use_iff.trans ⟨?_, ?_⟩
  · rintro (⟨both, w₁, hboth, hp⟩ | ⟨x, y, log₁, w₁, log₂, w', rfl, hboth, hruns⟩)
    · exact ⟨both, w₁, hboth, .inl hp⟩
    · obtain ⟨v, w₂, hsettle, hresult⟩ := huse x y w₁
      obtain ⟨rfl, rfl, rfl⟩ := (runs_of_finished_iff hsettle).mp hruns
      rw [List.append_nil]
      exact ⟨_, w₁, hboth, .inr ⟨x, y, v, rfl, (hresult v).mpr rfl, rfl⟩⟩
  · rintro ⟨both, w₁, hboth, hp | ⟨x, y, v, rfl, hv, rfl⟩⟩
    · exact .inl ⟨both, w₁, hboth, hp⟩
    · obtain ⟨v', w₂, hsettle, hresult⟩ := huse x y w₁
      obtain rfl := (hresult v).mp hv
      exact .inr ⟨x, y, log, w₁, [], w₂, (List.append_nil log).symm, hboth,
        (runs_of_finished_iff hsettle).mpr ⟨rfl, rfl, rfl⟩⟩

end Evaluation

/-! ## Sums of primitives -/

theorem World.asString?_newString (s : String) (w : World E) :
    (w.newString s).1.asString? = some s := by
  unfold newString newText
  by_cases hs : s = ""
  · rw [if_pos hs, hs]
    rfl
  · rw [if_neg hs]
    rfl

/-- The sum of two primitives in a world: a string there of both their texts, when one of them is a
    string, and the sum of their numeric values otherwise. -/
inductive Primitive.Sum (p q : Primitive) (w : World E) : Value → Prop
  | joined (h : p.isString = true ∨ q.isString = true) :
    Sum p q w (w.newString (p.text ++ q.text)).1
  | numeric {x y : Binary64} (hp : p.isString = false) (hq : q.isString = false)
    (hx : p.toNumber = .ok x) (hy : q.toNumber = .ok y) : Sum p q w (.number (x.add y))

/-- A sum is a string just when one of the primitives is, and then it reads as both texts. -/
theorem Primitive.Sum.asString?_eq {p q : Primitive} {v : Value} (h : p.Sum q w v) :
    v.asString? = if p.isString || q.isString then some (p.text ++ q.text) else none := by
  cases h with
  | joined heither =>
    rw [if_pos (Bool.or_eq_true_iff.mpr heither)]
    exact World.asString?_newString (p.text ++ q.text) w
  | numeric hp hq _ _ =>
    rw [hp, hq]
    rfl

namespace Value

/-- Primitives are added on the spot, and their sum is the result. -/
theorem settle_addPrimitives (p q : Primitive) (w : World E) :
    ∃ v w', (addPrimitives p q).settle w = (.finished (.ok v), w') ∧
      ∀ v', p.Sum q w v' ↔ v' = v := by
  cases hstring : p.isString || q.isString with
  | true =>
    rw [addPrimitives, if_pos hstring]
    have heither := Bool.or_eq_true_iff.mp hstring
    refine ⟨_, _, Step.settle_compute _ w, fun v' => ⟨?_, ?_⟩⟩
    · rintro (_ | ⟨hp, hq, _, _⟩)
      · rfl
      · simp [hp, hq] at hstring
    · rintro rfl
      exact .joined heither
  | false =>
    obtain ⟨hp, hq⟩ := Bool.or_eq_false_iff.mp hstring
    obtain ⟨x, hx⟩ := Primitive.exists_toNumber hp
    obtain ⟨y, hy⟩ := Primitive.exists_toNumber hq
    rw [addPrimitives, if_neg (by simp [hstring]), hx, hy]
    refine ⟨.number (x.add y), w, rfl, fun v' => ⟨?_, ?_⟩⟩
    · rintro (⟨heither⟩ | ⟨-, -, hx', hy'⟩)
      · simp [hp, hq] at heither
      · rw [hx] at hx'
        rw [hy] at hy'
        cases hx'
        cases hy'
        rfl
    · rintro rfl
      exact .numeric hp hq hx hy

open Evaluation

variable [Embedding E]

/-- Under every handler and all limits the operands are converted from left to right. The requests
    of a numeric operator are those of the conversion of its left operand to a number, with the
    right one held, and then, if that had a result, those of the right one, and no others; an
    operand without a result is the outcome as it is, and two results are computed on. For the
    addition it is the same with the conversions to primitives: behind both of them comes no
    request, and the sum joins their texts just when one of them is a string. -/
theorem operands_in_turn (a b : Value) (realm : RealmId) (limits : Limits (World E))
    (handler : Handler (World E)) (steps : Nat) (w : World E) (log : List Request)
    (outcome : Outcome Value) :
    (∀ op : NumericOperator,
      (∃ w', Runs limits handler steps (.main (a.binary op b realm)) w log outcome w') ↔
        ∃ both w₁, RunsInTurn limits handler steps (Thing.ofValues [b]) (a.toNumber realm)
            (b.toNumber realm) w log both w₁ ∧
          (both.Passes outcome ∨ ∃ x y v, both = .finished (.ok (x, y)) ∧ v = op.apply x y ∧
            outcome = .finished (.ok v))) ∧
    ((∃ w', Runs limits handler steps (.main (a.add b realm)) w log outcome w') ↔
      ∃ both w₁, RunsInTurn limits handler steps (Thing.ofValues [b])
          (a.toPrimitive .default realm) (b.toPrimitive .default realm) w log both w₁ ∧
        (both.Passes outcome ∨ ∃ p q v, both = .finished (.ok (p, q)) ∧ p.Sum q w₁ v ∧
          outcome = .finished (.ok v))) ∧
    (∀ (p q : Primitive) (u : World E) (v : Value), p.Sum q u v →
      v.asString? = if p.isString || q.isString then some (p.text ++ q.text) else none) := by
  refine ⟨fun op => ?_, runs_compute_iff Primitive.Sum settle_addPrimitives,
    fun p q u v h => h.asString?_eq⟩
  refine runs_compute_iff (fun x y _ v => v = op.apply x y) ?_
  intro x y u
  exact ⟨op.apply x y, u, rfl, fun v' => Iff.rfl⟩

end Value

/-- A truth value and a string are joined as texts. -/
theorem Session.operands_in_turn_text :
    let w := World.empty (ofRecords #[])
    ∃ v : Value, (Primitive.boolean true).Sum (.string ⟨1, "!"⟩) w v ∧
      v.asString? = some "true!" := by
  intro w
  have hsum : (Primitive.boolean true).Sum (.string ⟨1, "!"⟩) w (w.newString "true!").1 :=
    .joined (.inr rfl)
  have htext := (Value.operands_in_turn .undefined .undefined 0 .none (fun _ => .ready .undefined)
    0 w [] .unfinished).2.2 _ _ w _ hsum
  exact ⟨_, hsum, htext⟩

/-! ## Operators on words -/

/-- The operators that see the words of their operands only. -/
def NumericOperator.onWords : List NumericOperator :=
  [.bitAnd, .bitOr, .bitXor, .shiftLeft, .shiftRight, .shiftRightUnsigned]

theorem NumericOperator.apply_congr {op : NumericOperator} (hop : op ∈ onWords)
    {a a' b b' : Binary64} (ha : a.wordPart ≡ a'.wordPart [ZMOD 2 ^ 32])
    (hb : b.wordPart ≡ b'.wordPart [ZMOD 2 ^ 32]) : op.apply a b = op.apply a' b' := by
  obtain ⟨hau, has⟩ := Binary64.words_congr ha
  obtain ⟨hbu, hbs⟩ := Binary64.words_congr hb
  have hcount : b.shiftCount = b'.shiftCount := congrArg (· &&& 31) hbu
  cases op with
  | bitAnd => simp only [apply, Binary64.bitAnd, has, hbs]
  | bitOr => simp only [apply, Binary64.bitOr, has, hbs]
  | bitXor => simp only [apply, Binary64.bitXor, has, hbs]
  | shiftLeft => simp only [apply, Binary64.shiftLeft, hau, hcount]
  | shiftRight => simp only [apply, Binary64.shiftRight, has, hcount]
  | shiftRightUnsigned => simp only [apply, Binary64.shiftRightUnsigned, hau, hcount]
  | gt | lt | gte | lte | subtract | multiply | divide | remainder => simp [onWords] at hop

namespace Value

open Evaluation

variable [Embedding E] {realm : RealmId} {x y v : Value} {a a' b : Binary64}

theorem runs_bitNot
    (h : Runs limits handler steps (.main (x.toNumber realm)) w log (.finished (.ok a)) w') :
    Runs limits handler steps (.main (x.bitNot realm)) w log
      (.finished (.ok (.number a.bitNot))) w' := by
  have hruns := h.andThen (f := fun n => .ready (Value.number n.bitNot)) (.ended rfl)
  rwa [List.append_nil] at hruns

theorem runs_binary (op : NumericOperator)
    (h : RunsInTurn limits handler steps (Thing.ofValues [y]) (x.toNumber realm)
      (y.toNumber realm) w log (.finished (.ok (a, b))) w') :
    Runs limits handler steps (.main (x.binary op y realm)) w log
      (.finished (.ok (op.apply a b))) w' := by
  obtain ⟨log₁, w₁, log₂, rfl, hfirst, hsecond⟩ := h.of_results
  obtain ⟨_, hheld, rfl⟩ := hfirst.releasing (World.letGo (Thing.ofValues [y]))
  have hresult := hsecond.andThen (f := fun n => .ready (op.apply a n)) (.ended rfl)
  rw [List.append_nil] at hresult
  exact (runs_holding.mpr hheld).andThen hresult

theorem bitNot_number_congr (h : a'.wordPart ≡ a.wordPart [ZMOD 2 ^ 32]) :
    ((Value.number a').bitNot realm : Evaluation E Value) = (Value.number a).bitNot realm := by
  show (Step.inspect fun _ => Step.ready (Value.number a'.bitNot) : Evaluation E Value) = _
  rw [Binary64.bitNot_congr h]
  rfl

theorem binary_number_congr {op : NumericOperator} (hop : op ∈ NumericOperator.onWords)
    (h : a'.wordPart ≡ a.wordPart [ZMOD 2 ^ 32]) :
    ((Value.number a').binary op v realm : Evaluation E Value) =
        (Value.number a).binary op v realm ∧
      (v.binary op (.number a') realm : Evaluation E Value) = v.binary op (.number a) realm := by
  constructor
  · have hleft : (fun y => op.apply a' y) = op.apply a :=
      funext fun y => op.apply_congr hop h rfl
    show (holding (Thing.ofValues [v]) (.inspect fun _ => .ready ())).andThen
      (fun _ => (v.toNumber realm).andThen fun y => .ready ((fun y => op.apply a' y) y)) = _
    rw [hleft]
    rfl
  · have hright : (fun x => op.apply x a') = fun x => op.apply x a :=
      funext fun x => op.apply_congr hop rfl h
    show (holding [] (v.toNumber realm)).andThen
      (fun x => .inspect fun _ => .ready ((fun x => op.apply x a') x)) = _
    rw [hright]
    rfl

/-- The operators on words are integer arithmetic on the words of their operands. Under every
    handler and all limits operands that convert to numbers give the result of the operator on these
    numbers. And a number can be replaced by any other one whose integer part is congruent modulo
    `2 ^ 32`: the results are the same, and so are the steps of the operators, whatever the other
    operand is. -/
theorem word_operators_exact (a b : Binary64) :
    a.WordArithmetic b a.toInt32.toInt b.toInt32.toInt a.toUInt32.toNat
        (b.toUInt32.toNat % 32) ∧
    (∀ (realm : RealmId) (limits : Limits (World E)) (handler : Handler (World E)) (steps : Nat)
        (w w' : World E) (log : List Request) (x y : Value),
      (Runs limits handler steps (.main (x.toNumber realm)) w log (.finished (.ok a)) w' →
        Runs limits handler steps (.main (x.bitNot realm)) w log
          (.finished (.ok (.number a.bitNot))) w') ∧
      (RunsInTurn limits handler steps (Thing.ofValues [y]) (x.toNumber realm)
          (y.toNumber realm) w log (.finished (.ok (a, b))) w' →
        ∀ op : NumericOperator, Runs limits handler steps (.main (x.binary op y realm)) w log
          (.finished (.ok (op.apply a b))) w')) ∧
    (∀ a' : Binary64, a'.wordPart ≡ a.wordPart [ZMOD 2 ^ 32] →
      a'.bitNot = a.bitNot ∧
      (∀ op ∈ NumericOperator.onWords, op.apply a' b = op.apply a b ∧
        op.apply b a' = op.apply b a) ∧
      ∀ realm : RealmId,
        ((Value.number a').bitNot realm : Evaluation E Value) = (Value.number a).bitNot realm ∧
        ∀ op ∈ NumericOperator.onWords, ∀ v : Value,
          ((Value.number a').binary op v realm : Evaluation E Value) =
            (Value.number a).binary op v realm ∧
          (v.binary op (.number a') realm : Evaluation E Value) =
            v.binary op (.number a) realm) := by
  refine ⟨Binary64.wordArithmetic a b, fun realm limits handler steps w w' log x y => ?_,
    fun a' h => ⟨Binary64.bitNot_congr h, fun op hop => ?_, fun realm => ?_⟩⟩
  · exact ⟨runs_bitNot, fun hruns op => runs_binary op hruns⟩
  · exact ⟨op.apply_congr hop h rfl, op.apply_congr hop rfl h⟩
  · exact ⟨bitNot_number_congr h, fun op hop v => binary_number_congr hop h⟩

end Value

open Evaluation Value in
/-- The word of `-1` has all its bits set. Shifted by 31 without its sign it is 1, its complement is
    0, and `2 ^ 32 - 1` has the same word. -/
theorem Session.word_operators_exact_ones :
    let ones := Binary64.ofInt (-1)
    let distance := Binary64.ofNat 31
    let handler : Handler (World Session) := fun _ => .ready .undefined
    let w := World.empty (ofRecords #[])
    (ones.shiftRightUnsigned distance).IsInteger 1 ∧
    Runs .none handler 0
      (.main ((number ones).binary .shiftRightUnsigned (number distance) 0)) w []
      (.finished (.ok (number (ones.shiftRightUnsigned distance)))) w ∧
    Runs .none handler 0 (.main ((number ones).bitNot 0)) w []
      (.finished (.ok (number ones.bitNot))) w ∧
    (Binary64.ofNat 4294967295).shiftLeft distance = ones.shiftLeft distance := by
  intro ones distance handler w
  have hwords : ones.toUInt32.toNat = 4294967295 ∧ distance.toUInt32.toNat % 32 = 31 := by
    decide +kernel
  have hones : ones.Represents (-1 : ℤ) := Binary64.ofInt32_represents (-1)
  have hsame : (Binary64.ofNat 4294967295).wordPart ≡ ones.wordPart [ZMOD 2 ^ 32] := by
    have hwide : (Binary64.ofNat 4294967295).Represents (4294967295 : ℤ) :=
      Binary64.ofNat_represents (by norm_num)
    rw [hwide.wordPart_eq, hones.wordPart_eq]
    decide
  obtain ⟨harithmetic, hruns, hcongr⟩ := word_operators_exact (E := Session) ones distance
  obtain ⟨hnot, hbinary⟩ := hruns 0 .none handler 0 w w [] (number ones) (number distance)
  refine ⟨?_, hbinary (.both (.ended rfl) (.ended rfl)) .shiftRightUnsigned, hnot (.ended rfl), ?_⟩
  · have hshift := harithmetic.shiftRightUnsigned.1
    rw [hwords.1, hwords.2] at hshift
    have hfloor : ⌊(4294967295 / 2 ^ 31 : ℚ)⌋ = 1 := by norm_num
    exact_mod_cast hfloor ▸ hshift
  · have happly := ((hcongr _ hsame).2.1 .shiftLeft (by decide)).1
    exact Primitive.number.inj (Value.primitive.inj happly)

end ScriptSandbox

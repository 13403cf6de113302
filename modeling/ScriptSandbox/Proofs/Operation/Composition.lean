import ScriptSandbox.Proofs.Interleaving

/-
  How operations are put together.

  Operations on values are built by a few combinators from a few accesses to the world and to host
  objects. A property of computations that the combinators keep and that the accesses have, all
  operations have. `Compositional` lists the combinators; `Coercing` adds what coercions call, and
  `Accessing` what members and calls do to the heap and to host objects. The lemmas of each follow
  the modules of the operations, up to `Accessing.step` for every operation.
-/

namespace ScriptSandbox

variable {E α β : Type} [Embedding E]

namespace Evaluation

/-- A property that is kept by going on and by holding, and that a refusal has. -/
structure Compositional (P : (α : Type) → Evaluation E α → World E → Prop) : Prop where
  ready {α : Type} {w : World E} (a : α) : P α (.ready a) w
  fault {α : Type} {w : World E} (e : Fault) : P α (.fault e) w
  inspect {α : Type} {next : World E → Evaluation E α} {w : World E} (h : P α (next w) w) :
    P α (.inspect next) w
  andThen {α β : Type} {s : Evaluation E α} {f : α → Evaluation E β} {w : World E} (h : P α s w)
    (hf : ∀ a w', P β (f a) w') : P β (s.andThen f) w
  holding {α : Type} {things : List Thing} {s : Evaluation E α} {w : World E}
    (h : ∀ w', P α s w') : P α (holding things s) w
  holdingAtFirst {α : Type} {things : List Thing} {s : Evaluation E α} {w : World E}
    (h : ∀ w', P α s w') : P α (holdingAtFirst things s) w
  /-- Joining an array that is not being joined already. -/
  joining {α : Type} {id : ArrayId} {s : Evaluation E α} {w : World E}
    (hw : (w.array id).joining = false) (h : ∀ w', P α s w') :
    P α (.modify (World.markJoining id true) (s.releasing (World.markJoining id false))) w
  newText {w : World E} (s : String) : P Text (Step.compute (World.newText s)) w
  fail {α : Type} {w : World E} (realm : RealmId) (f : Failure) : P α (fail realm f) w
  hostToPrimitive {w : World E} (n : Native) : P Primitive (hostToPrimitive n) w

variable {P : (α : Type) → Evaluation E α → World E → Prop} {w : World E}

namespace Compositional

variable (hP : Compositional P)

include hP

theorem orFault (result : Except Fault α) : P α (Step.orFault result) w := by
  cases result with
  | ok a => exact hP.ready a
  | error e => exact hP.fault e

theorem map {s : Evaluation E α} (h : P α s w) (f : α → β) :
    P β (s >>= fun x => Step.ready (f x)) w :=
  hP.andThen h fun _ _ => hP.ready _

/-- A look at the world, and what is done about it. -/
theorem read_bind {f : World E → β} {k : β → Evaluation E α} (h : P α (k (f w)) w) :
    P α (Step.read f >>= k) w :=
  hP.inspect h

theorem newString (s : String) : P Value (Step.compute (World.newString s)) w :=
  hP.andThen (hP.newText s) fun t _ => hP.ready (Value.string t)

theorem refusingIf {c : Prop} [Decidable c] {s : Evaluation E α} {realm : RealmId} {f : Failure}
    (h : P α s w) : P α (if c then Evaluation.fail realm f else s) w := by
  split
  · exact hP.fail realm f
  · exact h

end Compositional

/-! ## Coercions -/

/-- A property that coercions have too: calls and new receivers have it. -/
structure Coercing (P : (α : Type) → Evaluation E α → World E → Prop) : Prop
    extends Compositional P where
  call {w : World E} (v receiver : Value) (args : List Value) (realm : RealmId) :
    P Value (v.call receiver args realm) w
  makeThisForNew {w : World E} (v : Value) (realm : RealmId) :
    P Value (v.makeThisForNew realm) w

namespace Coercing

variable (hP : Coercing P) {joinArray : ArrayId → Evaluation E Primitive} {v a b : Value}
  {realm : RealmId} {hint : Hint}

include hP

theorem intrinsicText (hj : ∀ id w', P Primitive (joinArray id) w') :
    P Primitive (intrinsicText joinArray v) w := by
  cases v with
  | array id => exact hj id w
  | _ => exact hP.inspect (hP.andThen (hP.newText _) fun _ _ => hP.ready _)

theorem convertBy (hj : ∀ id w', P Primitive (joinArray id) w') (methods : List ConversionMethod) :
    P Primitive (convertBy joinArray realm v methods) w := by
  induction methods generalizing w with
  | nil => exact hP.fail realm _
  | cons m rest ih =>
    refine hP.inspect ?_
    split
    · refine hP.andThen (hP.holding fun _ => hP.call _ _ _ _) fun result w' => ?_
      split
      · exact hP.ready _
      · exact hP.holdingAtFirst fun _ => ih
    · cases m with
      | toString => exact hP.intrinsicText hj
      | valueOf => exact ih

theorem elementTexts {toText : Value → Evaluation E String} (ht : ∀ v w', P String (toText v) w')
    (vs : List Value) (done : List String) : P (List String) (elementTexts toText vs done) w := by
  induction vs generalizing w done with
  | nil => exact hP.ready _
  | cons v rest ih =>
    cases v with
    | primitive p => exact ih _
    | _ => exact hP.andThen (hP.holding fun w' => ht _ w') fun _ _ => ih _

theorem join {toText : Value → Evaluation E String} (ht : ∀ v w', P String (toText v) w')
    (id : ArrayId) : P Primitive (join toText id) w := by
  refine hP.inspect ?_
  simp only
  split
  · exact hP.ready _
  · next hw =>
    refine hP.joining (Bool.eq_false_iff.mpr hw) fun _ => ?_
    refine hP.andThen (hP.holding fun _ => hP.elementTexts ht _ []) fun texts _ => ?_
    exact hP.andThen (hP.newText _) fun _ _ => hP.ready _

theorem toPrimitiveBy (hj : ∀ id w', P Primitive (joinArray id) w') (v : Value) :
    P Primitive (toPrimitiveBy joinArray realm hint v) w := by
  cases v with
  | primitive p => exact hP.ready p
  | object id => exact hP.convertBy hj _
  | array id => exact hP.convertBy hj _
  | bridge id =>
    refine hP.inspect ?_
    split
    · exact hP.hostToPrimitive _
    · exact hP.ready _
  | link id =>
    refine hP.inspect ?_
    split
    · exact hP.hostToPrimitive _
    · exact hP.ready _

theorem joinWithin (depth : Nat) (id : ArrayId) : P Primitive (joinWithin realm depth id) w := by
  induction depth generalizing w id with
  | zero => exact hP.fault _
  | succ depth ih =>
    exact hP.join (fun v w' => hP.map (hP.toPrimitiveBy (fun id _ => ih id) v) Primitive.text) id

theorem toPrimitive : P Primitive (v.toPrimitive hint realm) w := by
  have within (depth : Nat) :
      P Primitive (Evaluation.toPrimitiveBy (Evaluation.joinWithin realm depth) realm hint v) w :=
    hP.toPrimitiveBy (fun id _ => hP.joinWithin depth id) v
  exact hP.inspect (within _)

theorem toNumber : P Binary64 (v.toNumber realm) w :=
  hP.andThen hP.toPrimitive fun _ _ => hP.orFault _

/-! ## Operators -/

theorem binary (op : NumericOperator) : P Value (a.binary op b realm) w :=
  hP.andThen (hP.holding fun _ => hP.toNumber) fun _ _ => hP.map hP.toNumber _

theorem addPrimitives (p q : Primitive) : P Value (Value.addPrimitives p q) w := by
  unfold Value.addPrimitives
  split
  · exact hP.newString _
  · exact hP.andThen (hP.orFault _) fun _ _ => hP.map (hP.orFault _) _

theorem add : P Value (a.add b realm) w :=
  hP.andThen (hP.holding fun _ => hP.toPrimitive) fun _ _ =>
    hP.andThen hP.toPrimitive fun _ _ => hP.addPrimitives _ _

theorem looseEq : P Bool (a.looseEq b realm) w := by
  unfold Value.looseEq
  split
  · exact hP.orFault _
  · split
    · exact hP.ready _
    · exact hP.andThen hP.toPrimitive fun _ _ => hP.orFault _
  · split
    · exact hP.ready _
    · exact hP.andThen hP.toPrimitive fun _ _ => hP.orFault _
  · exact hP.ready _

theorem unary (op : UnaryOperation) (v : Value) : P Result (op.step realm v) w := by
  have converted {γ : Type} (f : Binary64 → γ) :
      P γ (v.toNumber realm >>= fun n => Step.ready (f n)) w := hP.map hP.toNumber f
  cases op with
  | toNumber => exact hP.map hP.toNumber _
  | toNumberValue => exact hP.map hP.toNumber _
  | toText => exact hP.map (hP.map hP.toPrimitive Primitive.text) _
  | toBoolean => exact hP.ready _
  | toInt32 => exact hP.map (converted Binary64.toInt32) _
  | toUInt32 => exact hP.map (converted Binary64.toUInt32) _
  | toInteger => exact hP.map (converted Binary64.toInteger) _
  | negate => exact hP.map (converted fun n => Value.number n.neg) _
  | unaryPlus => exact hP.map (converted Value.number) _
  | bitNot => exact hP.map (converted fun n => Value.number n.bitNot) _
  | not => exact hP.map (hP.ready _) _
  | typeOf => exact hP.map (hP.inspect (hP.newString _)) _
  | makeThisForNew => exact hP.map (hP.makeThisForNew v realm) _

theorem binaryOperation (op : BinaryOperation) (a b : Value) : P Result (op.step realm a b) w := by
  cases op with
  | numeric op => exact hP.map (hP.binary op) _
  | add => exact hP.map hP.add _
  | strictEq => exact hP.ready _
  | strictNe => exact hP.ready _
  | looseEq => exact hP.map hP.looseEq _
  | looseNe => exact hP.map (hP.map hP.looseEq (!·)) _

end Coercing

/-! ## Members and calls -/

/-- A property that accesses have too: those to the heap, and those to host objects when they are
    given host values that are `known`, as host forms of values are. -/
structure Accessing (P : (α : Type) → Evaluation E α → World E → Prop)
    (known : HostValue → World E → Prop) : Prop extends Compositional P where
  request {w : World E} (r : Request) : P Value (Step.request r) w
  newObject {w : World E} (o : ScriptObject) : P Value (Step.compute (World.newObject o)) w
  modifyObject {w : World E} (id : ObjectId) (f : ScriptObject → ScriptObject) :
    P Unit (Step.write (World.modifyObject id f)) w
  modifyArray {w : World E} (id : ArrayId) (f : ScriptArray → ScriptArray) :
    P Unit (Step.write (World.modifyArray id f)) w
  addCreated {w : World E} (id : LinkId) (name : String) :
    P Unit (Step.write (World.addCreated id name)) w
  removeCreated {w : World E} (id : LinkId) (name : String) :
    P Unit (Step.write (World.removeCreated id name)) w
  toHost_bind {α : Type} {w : World E} {v : Value} {k : HostValue → Evaluation E α}
    (hk : ∀ h w', known h w' → P α (k h) w') : P α (toHost v >>= k) w
  hostSet {w : World E} {h : HostValue} (hh : known h w) (realm : RealmId) (n : Native)
    (name : String) : P Unit (hostSet realm n name h) w
  hostDelete {w : World E} (realm : RealmId) (n : Native) (name : String) :
    P Bool (hostDelete realm n name) w
  hostGet {w : World E} {wrap : Wrapper E} (hw : wrap = World.fromHost ∨ wrap = World.link)
    (realm : RealmId) (n : Native) (name : String) : P Value (hostGet wrap realm n name) w
  hostCall {w : World E} {wrap : Wrapper E} (hw : wrap = World.fromHost ∨ wrap = World.link)
    (realm : RealmId) (n : Native) (receiver : Value) (args : List Value) :
    P Value (hostCall wrap realm n receiver args) w

namespace Accessing

variable {known : HostValue → World E → Prop} (hP : Accessing P known) {v : Value} {name : String}
  {realm : RealmId}

include hP

theorem noMembers : P α (v.noMembers name realm) w := hP.read_bind (hP.fail realm _)

theorem linkMember (l : Link) : P Value (l.member name) w := by
  refine hP.read_bind ?_
  split
  · exact hP.ready _
  · exact hP.read_bind (hP.refusingIf (hP.hostGet (.inr rfl) l.realm l.native name))

theorem member : P Value (v.member name realm) w := by
  rcases v with ⟨_ | _ | _ | _ | s⟩ | id | id | id | id <;> simp only [Value.member]
  case primitive.undefined => exact hP.noMembers
  case primitive.null => exact hP.noMembers
  case primitive.boolean => exact hP.noMembers
  case primitive.number => exact hP.noMembers
  case primitive.string =>
    split
    · exact hP.ready _
    · exact hP.newString _
    · exact hP.ready _
  case object => exact hP.inspect (hP.ready _)
  case array => exact hP.inspect (hP.ready _)
  case bridge =>
    refine hP.inspect ?_
    split
    · next b _ =>
      refine hP.read_bind ?_
      split
      · exact hP.hostGet (.inl rfl) b.realm b.native name
      · exact hP.ready _
    · exact hP.ready _
  case link =>
    refine hP.inspect ?_
    split
    · exact hP.linkMember _
    · exact hP.ready _

theorem linkPut (id : LinkId) (l : Link) (value : Value) : P Unit (l.put id name value) w := by
  refine hP.read_bind (hP.read_bind (hP.refusingIf (hP.toHost_bind fun h w₁ hh => hP.read_bind ?_)))
  refine hP.andThen (hP.hostSet hh l.realm l.native name) fun _ _ => ?_
  split
  · exact hP.addCreated id name
  · exact hP.ready _

theorem put (value : Value) : P Unit (v.put name value realm) w := by
  rcases v with p | id | id | id | id
  case primitive => exact hP.noMembers
  case object => exact hP.modifyObject id _
  case array => exact hP.modifyArray id _
  case bridge =>
    refine hP.inspect ?_
    split
    · next b _ => exact hP.toHost_bind fun h w' hh => hP.hostSet hh b.realm b.native name
    · exact hP.ready _
  case link =>
    refine hP.inspect ?_
    split
    · exact hP.linkPut id _ value
    · exact hP.ready _

theorem linkDelete (id : LinkId) (l : Link) : P Bool (l.delete id name) w := by
  refine hP.read_bind ?_
  split
  · exact hP.ready _
  · refine hP.read_bind (hP.refusingIf (hP.andThen (hP.hostDelete l.realm l.native name) ?_))
    intro deleted w'
    split
    · exact hP.map (hP.removeCreated id name) _
    · exact hP.ready _

theorem delete : P Bool (v.delete name realm) w := by
  rcases v with p | id | id | id | id
  case primitive => exact hP.noMembers
  case object => exact hP.map (hP.modifyObject id _) fun _ => true
  case array => exact hP.map (hP.modifyArray id _) fun _ => _
  case bridge =>
    refine hP.inspect ?_
    split
    · next b _ => exact hP.hostDelete b.realm b.native name
    · exact hP.ready _
  case link =>
    refine hP.inspect ?_
    split
    · exact hP.linkDelete id _
    · exact hP.ready _

theorem call (receiver : Value) (args : List Value) : P Value (v.call receiver args realm) w := by
  have refuse : P Value (Step.read (·.debugText v) >>= fun text =>
      Evaluation.fail realm (.notCallable text)) w := hP.read_bind (hP.fail realm _)
  rcases v with p | id | id | id | id
  case primitive => exact refuse
  case array => exact refuse
  case object =>
    refine hP.inspect ?_
    split
    · exact hP.request _
    · exact refuse
  case bridge =>
    refine hP.inspect ?_
    split
    · next b _ => exact hP.hostCall (.inl rfl) b.realm b.native receiver args
    · exact refuse
  case link =>
    refine hP.inspect ?_
    split
    · next l _ => exact hP.hostCall (.inr rfl) l.realm l.native receiver args
    · exact refuse

theorem makeThisForNew : P Value (v.makeThisForNew realm) w := by
  have refuse : P Value (Step.read (·.debugText v) >>= fun text =>
      Evaluation.fail realm (.notConstructor text)) w := hP.read_bind (hP.fail realm _)
  rcases v with p | id | id | id | id
  case primitive => exact refuse
  case array => exact refuse
  case object =>
    refine hP.inspect ?_
    split
    · exact hP.newObject _
    · exact refuse
  case bridge =>
    refine hP.inspect ?_
    split
    · exact hP.newObject _
    · exact refuse
  case link =>
    refine hP.inspect ?_
    split
    · exact hP.newObject _
    · exact refuse

theorem coercing : Coercing P where
  toCompositional := hP.toCompositional
  call _ receiver args _ := hP.call receiver args
  makeThisForNew _ _ := hP.makeThisForNew

/-! ## Operations -/

theorem step (op : ValueOperation) (realm : RealmId) : P Reply (op.step realm) w := by
  cases op with
  | member base name => exact hP.map hP.member _
  | put base name value => exact hP.map (hP.put value) fun _ => Reply.result .done
  | delete base name => exact hP.map hP.delete _
  | refer base name => exact hP.inspect (hP.ready _)
  | get r => exact hP.map (hP.refusingIf hP.member) _
  | set r value => exact hP.map (hP.refusingIf (hP.put value)) fun _ => Reply.result .done
  | remove r => exact hP.map (hP.refusingIf hP.delete) _
  | describe v => exact hP.inspect (hP.ready _)
  | call callee receiver args => exact hP.map (hP.call receiver args) _
  | toPrimitive v hint => exact hP.map hP.coercing.toPrimitive _
  | unary op v => exact hP.map (hP.coercing.unary op v) _
  | binary op a b => exact hP.map (hP.coercing.binaryOperation op a b) _

end Accessing

end Evaluation

end ScriptSandbox

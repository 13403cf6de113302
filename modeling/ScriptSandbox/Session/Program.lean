import ScriptSandbox.Host.Record
import ScriptSandbox.Operation.Coercion
import ScriptSandbox.Operation.Operator

/-
  Programs of a session.

  Literals describe values that are yet to be made: they may name slots and hosts, and inside a
  behaviour the receiver and the arguments of the call. An operation is one of the sandbox's
  operations applied to literals. A behaviour says what a script function does.
-/

namespace ScriptSandbox

/-- A description of a value. -/
inductive Literal where
  | undefined
  | null
  | boolean (b : Bool)
  | number (n : Binary64)
  | string (s : String)
  | array (items : List Literal)
  | slot (name : String)
  | receiver
  | argument (index : Nat)

mutual

/-- A description of a host value. -/
inductive HostLiteral where
  | undefined
  | null
  | boolean (b : Bool)
  | number (n : Binary64)
  | string (s : String)
  | array (items : List HostLiteral)
  | named (host : String)
  /-- A new host object without a name. -/
  | fresh (host : HostSpec)
  /-- A new stand-in for a value. -/
  | bookmark (target : Literal)
  /-- The host form of a value. -/
  | crossed (v : Literal)

/-- A description of a host object. -/
inductive HostSpec where
  | bookmark (target : Literal)
  | error (name message : String)
  | record (label : String) (properties : List (String × HostLiteral)) (policy : Option Policy)
      (kind : RecordSpec)

/-- A description of the kind of a record. -/
inductive RecordSpec where
  | passive (callable : Bool)
  | active (readOnly : Bool) (stuck : List String) (refusals : Refusals)
      (primitive : Option HostLiteral) (reaction : Option ReactionSpec)

/-- A description of what a record does when it is called. -/
inductive ReactionSpec where
  | returns (v : HostLiteral)
  | echoReceiver
  | echoArguments
  | stores (name : String)
  | fails (e : HostError)

end

/-- A description of a completion. -/
inductive CompletionSpec where
  | ofKind (kind : CompletionKind) (value : Literal) (target : Option String)
  | typeError (message : String)
  | hostError (e : HostError)

/-- The operations on one value. -/
inductive UnaryOperation where
  | toNumber
  | toNumberValue
  | toText
  | toBoolean
  | toInt32
  | toUInt32
  | toInteger
  | negate
  | unaryPlus
  | bitNot
  | not
  | typeOf
  | makeThisForNew
deriving DecidableEq, Repr

/-- The operations on two values. -/
inductive BinaryOperation where
  | numeric (op : NumericOperator)
  | add
  | strictEq
  | strictNe
  | looseEq
  | looseNe
deriving DecidableEq, Repr

mutual

/-- An operation of the sandbox on described operands. -/
inductive Operation where
  | member (base : Literal) (name : String)
  | put (base : Literal) (name : String) (value : Literal)
  | delete (base : Literal) (name : String)
  | call (callee self : Literal) (args : List Literal)
  | getReference (handle : String)
  | setReference (handle : String) (value : Literal)
  | deleteReference (handle : String)
  | toPrimitive (v : Literal) (hint : Hint)
  | unary (op : UnaryOperation) (v : Literal)
  | binary (op : BinaryOperation) (a b : Literal)
  /-- Yield a number of times; the result is that number. -/
  | checkpoints (count : Nat)
  | behave (body : Behaviour)

/-- What a script function does. -/
inductive Behaviour where
  | returns (v : Literal)
  | completes (c : CompletionSpec)
  | performs (realm : String) (op : Operation)
  /-- Yield first. -/
  | yields (rest : Behaviour)
  /-- The second behaviour follows a result of the first. -/
  | sequence (first second : Behaviour)
  /-- The handler takes a completion of the body; its receiver is the completion's value. -/
  | recovers (body handler : Behaviour)

end

instance : Inhabited Literal := ⟨.undefined⟩

instance : Inhabited HostLiteral := ⟨.undefined⟩

instance : Inhabited HostSpec := ⟨.bookmark .undefined⟩

instance : Inhabited ReactionSpec := ⟨.returns .undefined⟩

instance : Inhabited Behaviour := ⟨.returns .undefined⟩

end ScriptSandbox

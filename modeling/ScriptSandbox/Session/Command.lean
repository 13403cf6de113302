import ScriptSandbox.Operation.Reference
import ScriptSandbox.Session.Program
import ScriptSandbox.Session.View

/-
  Commands and answers.

  What a session can be told, and what it answers. Answers hold views, so they stay as they are
  when the session goes on.
-/

namespace ScriptSandbox

/-! ## Commands -/

/-- How to run an operation. -/
structure RunSettings where
  realm : String
  budget : Option Nat
  cancelAfter : Option Nat
  /-- The slot for the result. -/
  resultSlot : Option String
  /-- The slot for the value of a completion. -/
  catchSlot : Option String
  /-- Only look how far the operation gets without an answer. -/
  peek : Bool

/-- A description of a value that is made at once. -/
inductive Making where
  | value (v : Literal)
  | object (prototype : Option Literal)
  | array (items : List Literal)
  | function (node : Nat) (name : Option String)
  /-- A host value, unrestricted, with or without a realm. -/
  | fromHost (h : HostLiteral) (realm : Option String)
  | linked (h : HostLiteral) (realm : String)
  /-- The bridge of a host object, even of a bookmark. -/
  | bridged (h : HostLiteral) (realm : String)
  | wellKnown (h : HostLiteral) (realm : String)

/-- A method of a host object. -/
inductive NativeMethod where
  | display
  | has (name : String)
  | callable
  | primitive
  | bookmarked
  | policy
  | get (name : String)
  | set (name : String) (value : HostLiteral)
  | delete (name : String)
  | call (self : HostLiteral) (args : List HostLiteral)

inductive Command where
  | run (op : Operation) (settings : RunSettings)
  | make (m : Making) (slot : Option String)
  | push (base value : Literal)
  | constants
  | drop (slot : String)
  | info (v : Literal)
  | tagged (v : Literal)
  | compare (a b : Literal)
  | inspect (v : Literal) (name : Option String)
  | setPrototype (v : Literal) (prototype : Option Literal)
  | complete (c : CompletionSpec)
  | refer (base : Literal) (name : String) (handle : Option String)
  | host (name : String) (spec : HostSpec)
  | dropHost (name : String)
  | defineProperty (host name : String) (value : HostLiteral)
  | properties (host : String)
  | native (target : HostLiteral) (method : NativeMethod)
  | crossed (v : Literal)
  | register (h : HostLiteral) (value : Literal) (realm : String)
  | realm (name : String)
  | purge (realm : String)
  | wrapper (v : Literal) (names : List String)
  | repeated (times : Nat) (commands : List Command)

/-! ## Answers -/

/-- Why a command is refused. -/
inductive Refusal where
  | notAnArray
  | notAnObject
  | notAWrapper
  | notAHost
  /-- There is no well-known value. -/
  | notRegistered
  | missingRealm (e : MissingRealm)

structure CompletionView where
  kind : CompletionKind
  abrupt : Bool
  thrown : Bool
  value : View
  target : Option String
  text : String

/-- What a run came to. -/
inductive ResultView where
  | value (v : View)
  | flag (b : Bool)
  | integer (n : Int)
  | number (n : Binary64)
  | text (s : String)
  | done

/-- The result of a method of a host object. -/
inductive MethodView where
  | text (s : String)
  | flag (b : Bool)
  | names (l : Option (List String))
  | hostValue (h : Option HostView)
  | value (v : Option View)
  | done
  | failed (e : HostError)

structure ValueInfo where
  truthy : Bool
  typeName : String
  callable : Bool
  primitive : Bool
  nullish : Bool
  text : String
  number : Option Binary64
  string : Option String
  boolean : Option Bool

inductive Answer where
  | finished (result : ResultView) (trace : List TraceEntry)
  | abrupt (c : CompletionView) (trace : List TraceEntry)
  | stopped (text message : String) (trace : List TraceEntry)
  | peeked (text : String) (ready : Bool)
  | value (v : View)
  | values (vs : List View)
  | refused (r : Refusal)
  | done
  | length (n : Nat)
  | dropped (b : Bool)
  | info (i : ValueInfo)
  | tagged (text : String)
  | compared (sameRef strictEq : Bool)
  | inspected (own : List (String × View)) (prototype : Option View)
      (function : Option (Nat × Option String)) (has : Option Bool)
  | prototypeSet (b : Bool)
  | completion (c : CompletionView)
  | reference (access : Access) (name : String) (base : View)
  | host (display : String)
  | properties (own : List (String × HostView))
  | native (m : MethodView)
  | crossed (h : HostView)
  | realm (newProperties : NewProperties) (bridges links : Nat) (text : String)
  | removed (n : Nat)
  | bridge (realm : String)
  | link (realm : String) (guarded : Bool) (allows : List (String × Bool × Bool))
  | repeated (last : List Answer)
  /-- A fault ended the session. -/
  | faulted

end ScriptSandbox

import ScriptSandbox.Number.Binary64

/-
  Views.

  A view is a finite picture of a value, taken at one moment. Names stand for identity: a view of
  something on the heap lists the slots that hold that very thing, and a host object appears under
  its name if it has one.
-/

namespace ScriptSandbox

mutual

/-- A picture of a script value. -/
inductive View where
  | undefined
  | null
  | boolean (b : Bool)
  | number (n : Binary64)
  | string (s : String)
  | object (text : String) (same : List String)
  /-- An array; there are no items where the picture ends. -/
  | array (items : Option (List View)) (same : List String)
  | bridge (native : NativeView) (text : String) (same : List String)
  | link (native : NativeView) (text : String) (same : List String)

/-- A picture of a host object. -/
inductive NativeView where
  | named (name : String)
  | bookmark (target : View)
  | other (display : String)

end

/-- A picture of a host value. -/
inductive HostView where
  | undefined
  | null
  | boolean (b : Bool)
  | number (n : Binary64)
  | string (s : String)
  | array (items : List HostView)
  | object (n : NativeView)

/-- A request as it was seen when it arrived. -/
inductive TraceEntry where
  | checkpoint
  | call (callee : String) (receiver : View) (args : List View)

instance : Inhabited View := ⟨.undefined⟩

instance : Inhabited NativeView := ⟨.other ""⟩

end ScriptSandbox

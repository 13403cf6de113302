import ScriptSandbox.Session.Basic

/-
  Views of values.

  Arrays are opened up to a fixed depth. What a nameless bookmark stands for is shown as if it lay
  one level above that depth.
-/

namespace ScriptSandbox.World

/-- The depth at which an array is not opened. -/
def viewDepth : Nat := 4

/-- The depth at which the value behind a bookmark is shown. -/
def bookmarkDepth : Nat := 3

/-- The slots that hold a value, in order. -/
def slotsOf (w : World Session) (v : Value) : List String :=
  (w.embedding.slots.sorted.filter fun e => e.2.sameRef v).map (·.1)

/-- The first name of a host object. -/
def hostName? (w : World Session) (n : Native) : Option String :=
  (w.embedding.hosts.sorted.find? fun e => e.2.key == n.key).map (·.1)

/-- The view of a host object, given views of script values. -/
def nativeViewBy (w : World Session) (view : Value → View) (n : Native) : NativeView :=
  match w.hostName? n with
  | some name => .named name
  | none =>
    match n.bookmarked? with
    | some v => .bookmark (view v)
    | none => .other (w.display n)

/-- The view of the host object behind a wrapper. -/
def wrappedViewBy (w : World Session) (view : Value → View) (n? : Option Native) : NativeView :=
  (n?.map (w.nativeViewBy view)).getD (.other "")

def primitiveView : Primitive → View
  | .undefined => .undefined
  | .null => .null
  | .boolean b => .boolean b
  | .number n => .number n
  | .string s => .string s.content

/-- The view of a value at a depth, following at most `fuel` handles in a row. -/
def viewAt (w : World Session) : (fuel depth : Nat) → Value → View
  | _, _, .primitive p => primitiveView p
  | _, _, .object id => .object (w.debugText (.object id)) (w.slotsOf (.object id))
  | 0, _, v => .array none (w.slotsOf v)
  | fuel + 1, depth, .array id =>
    let items :=
      if viewDepth ≤ depth then none
      else some ((w.array id).elements.toList.map (viewAt w fuel (depth + 1)))
    .array items (w.slotsOf (.array id))
  | fuel + 1, _, .bridge id =>
    .bridge (w.wrappedViewBy (viewAt w fuel bookmarkDepth) (w.bridgeNative? id))
      (w.debugText (.bridge id)) (w.slotsOf (.bridge id))
  | fuel + 1, _, .link id =>
    .link (w.wrappedViewBy (viewAt w fuel bookmarkDepth) (w.linkNative? id))
      (w.debugText (.link id)) (w.slotsOf (.link id))

/-- Between two wrappers on a path of handles lie at most a few arrays. -/
def viewFuel (w : World Session) : Nat := (viewDepth + 2) * (w.bridges.size + w.links.size + 1)

/-- The view of a value. -/
def view (w : World Session) (v : Value) : View := w.viewAt w.viewFuel 0 v

/-- The view of a host object. -/
def nativeView (w : World Session) (n : Native) : NativeView :=
  w.nativeViewBy (w.viewAt w.viewFuel bookmarkDepth) n

mutual

/-- The view of a host value. -/
def hostView (w : World Session) : HostValue → HostView
  | .undefined => .undefined
  | .null => .null
  | .boolean b => .boolean b
  | .number n => .number n
  | .string s => .string s
  | .array items => .array (hostViews w items)
  | .object n => .object (w.nativeView n)

def hostViews (w : World Session) : List HostValue → List HostView
  | [] => []
  | h :: rest => w.hostView h :: hostViews w rest

end

/-- A request as it is seen on arrival. -/
def requestView (w : World Session) : Request → TraceEntry
  | .checkpoint => .checkpoint
  | .call callee receiver args =>
    .call (w.debugText callee) (w.view receiver) (args.map w.view)

end ScriptSandbox.World

import ScriptSandbox.World.Basic

/-
  Liveness.

  What holds what: objects their properties and prototypes, arrays their elements, wrappers their
  host objects, bookmarks the values that they stand for, and the objects of the embedding whatever
  it says they hold. The roots are the well-known values and what the embedding and the running
  computation hold. `collect` marks every wrapper that is not held any more as dead, and notes the
  lost ones among the host objects with well-known values.

  What hangs only on a cycle that nothing else holds is dead here. An implementation that counts
  references never frees such a cycle, and keeps what hangs on it alive: there it lives on as if
  somebody held the cycle. So what is to be true of both is stated for whatever is held, let go and
  lost, and a run in which the cycle is kept is one of the runs that it speaks of.
-/

namespace ScriptSandbox

namespace World

/-- What is known to be held. -/
structure Reached where
  objects : Array Bool
  arrays : Array Bool
  bridges : Array Bool
  links : Array Bool
  natives : List NativeKey

namespace Reached

/-- Whether a thing needs no visit: primitives hold nothing. -/
def contains (r : Reached) : Thing → Bool
  | .value (.primitive _) => true
  | .value (.object id) => r.objects[id]?.getD true
  | .value (.array id) => r.arrays[id]?.getD true
  | .value (.bridge id) => r.bridges[id]?.getD true
  | .value (.link id) => r.links[id]?.getD true
  | .native n => r.natives.contains n.key

def insert (t : Thing) (r : Reached) : Reached :=
  match t with
  | .value (.primitive _) => r
  | .value (.object id) => { r with objects := r.objects.setIfInBounds id true }
  | .value (.array id) => { r with arrays := r.arrays.setIfInBounds id true }
  | .value (.bridge id) => { r with bridges := r.bridges.setIfInBounds id true }
  | .value (.link id) => { r with links := r.links.setIfInBounds id true }
  | .native n => { r with natives := n.key :: r.natives }

end Reached

variable {E : Type}

/-- Nothing reached yet. -/
def unreached (w : World E) : Reached :=
  { objects := Array.replicate w.objects.size false
    arrays := Array.replicate w.arrays.size false
    bridges := Array.replicate w.bridges.size false
    links := Array.replicate w.links.size false
    natives := [] }

/-- What a thing holds, given what the objects of the embedding hold. -/
def holds (w : World E) (hosted : Array (List HostValue)) : Thing → List Thing
  | .value (.primitive _) => []
  | .value (.object id) =>
    let o := w.object id
    Thing.ofValues (o.properties.entries.map (·.2) ++ o.prototype.toList)
  | .value (.array id) => ((w.array id).elements.filter fun v => !v.isPrimitive).toList.map .value
  | .value v => ((w.native? v).map Thing.native).toList
  | .native (.error _ _ _) => []
  | .native (.bookmark _ target) => [.value target]
  | .native (.hosted id) => (hosted[id]?.getD []).flatMap HostValue.things

/-- Visit things and what they hold, making at most `fuel` visits. -/
def visit (w : World E) (hosted : Array (List HostValue)) :
    (fuel : Nat) → List Thing → Reached → Reached
  | 0, _, r => r
  | _, [], r => r
  | fuel + 1, t :: rest, r =>
    if r.contains t then visit w hosted fuel rest r
    else visit w hosted fuel (w.holds hosted t ++ rest) (r.insert t)

/-- Every thing is looked into once, so there are no more visits than roots and holdings; a
    bookmark holds one thing. -/
def visitFuel (w : World E) (hosted : Array (List HostValue)) (roots : List Thing) : Nat :=
  let objects := w.objects.foldl (fun n o => n + o.properties.entries.length + 1) 0
  let arrays := w.arrays.foldl (fun n a => n + a.elements.size) 0
  let natives := hosted.foldl (fun n hs => n + (hs.flatMap HostValue.natives).length) 0
  roots.length + objects + arrays + natives + w.bridges.size + w.links.size + w.nextNative

/-- What is held by the roots. -/
def reached (w : World E) (hosted : Array (List HostValue)) (roots : List Thing) : Reached :=
  visit w hosted (w.visitFuel hosted roots) roots w.unreached

/-- The well-known values of all realms. -/
def wellKnownValues (w : World E) : List Value :=
  w.realms.toList.flatMap fun r => r.wellKnown.map (·.2)

/-- The host objects that have well-known values. -/
def wellKnownKeys (w : World E) : List NativeKey :=
  w.realms.toList.flatMap fun r => r.wellKnown.map (·.1)

variable [Embedding E]

/-- What holds everything else: the embedding, the running computation and the well-known
    values. -/
def roots (w : World E) : List Thing :=
  Thing.ofValues w.wellKnownValues ++ w.held ++ Embedding.roots w.embedding

/-- Mark what is not held any more. The things in `hand` are held besides the roots. -/
def collect (hand : List Thing) (w : World E) : World E :=
  if w.bridges.isEmpty && w.links.isEmpty && w.wellKnownKeys.isEmpty then w
  else
    let found := w.reached (Embedding.contents w.embedding) (hand ++ w.roots)
    { w with
      bridges := w.bridges.mapIdx fun i b =>
        { b with live := b.live && found.bridges[i]?.getD false }
      links := w.links.mapIdx fun i l =>
        { l with live := l.live && found.links[i]?.getD false }
      lostNatives := w.wellKnownKeys.filter fun k => !found.natives.contains k }

end World

end ScriptSandbox

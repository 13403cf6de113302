import Mathlib.Logic.Relation
import ScriptSandbox.Proofs.Interleaving
import ScriptSandbox.Proofs.World.Nesting

/-
  Elementary changes.

  Whatever the sandbox does to a world is made of a few changes: to allocate, to change an object or
  an array, to hold and let go, to sweep, to make a wrapper, to let the embedding act, and to change
  the names that a link remembers or the mark of an array. Only the last two kinds are restricted,
  by an `Allowance`. What every elementary change keeps, everything keeps that is built from them
  (`Changes`): so a fact about operations is proved by cases on this list.
-/

namespace ScriptSandbox

namespace World

/-- What is not allowed everywhere: to make a link take up or forget a name, and to mark or unmark
    an array as being joined. -/
structure Allowance where
  adds : LinkId → String → Prop
  removes : LinkId → String → Prop
  marks : Prop

/-- Nothing of the kind. -/
def Allowance.nothing : Allowance := ⟨fun _ _ => False, fun _ _ => False, False⟩

variable {E : Type} [Embedding E]

/-- One change of a world, as far as it is allowed. -/
inductive Elementary (allows : Allowance) : World E → World E → Prop
  | text (s : String) (w : World E) : Elementary allows w (w.newText s).2
  | object (o : ScriptObject) (w : World E) : Elementary allows w (w.newObject o).2
  | array (elements : Array Value) (w : World E) :
    Elementary allows w (w.newArray elements).2
  | modifyObject (id : ObjectId) (f : ScriptObject → ScriptObject) (w : World E) :
    Elementary allows w (w.modifyObject id f)
  | modifyArray (id : ArrayId) {f : ScriptArray → ScriptArray}
    (hf : ∀ a, (f a).joining = a.joining) (w : World E) :
    Elementary allows w (w.modifyArray id f)
  | hold (things : List Thing) (w : World E) : Elementary allows w (w.hold things)
  | letGo (things : List Thing) (w : World E) : Elementary allows w (w.letGo things)
  | collect (hand : List Thing) (w : World E) : Elementary allows w (w.collect hand)
  | error (name message : String) (w : World E) :
    Elementary allows w (w.newError name message).2
  | bookmark (target : Value) (w : World E) : Elementary allows w (w.newBookmark target).2
  | bridge (realm : RealmId) (n : Native) (w : World E) :
    Elementary allows w (w.bridge realm n).2
  | link (realm : RealmId) (n : Native) (w : World E) :
    Elementary allows w (w.newestLink realm n).2
  | embedding (f : E → E) (w : World E) : Elementary allows w (w.modifyEmbedding f)
  | add {id : LinkId} {name : String} (h : allows.adds id name) (w : World E) :
    Elementary allows w (w.addCreated id name)
  | remove {id : LinkId} {name : String} (h : allows.removes id name) (w : World E) :
    Elementary allows w (w.removeCreated id name)
  | mark (h : allows.marks) (id : ArrayId) (joining : Bool) (w : World E) :
    Elementary allows w (w.markJoining id joining)

/-- Changes one after the other. -/
abbrev Changes (allows : Allowance) : World E → World E → Prop :=
  Relation.ReflTransGen (Elementary allows)

variable {allows : Allowance}

/-- Changes that need no allowance may be made under any. -/
theorem Changes.of_nothing {w w' : World E} (h : Changes .nothing w w') : Changes allows w w' := by
  refine Relation.ReflTransGen.mono (fun u v h => ?_) w w' h
  cases h with
  | text s => exact .text s u
  | object o => exact .object o u
  | array elements => exact .array elements u
  | modifyObject id f => exact .modifyObject id f u
  | modifyArray id hf => exact .modifyArray id hf u
  | hold things => exact .hold things u
  | letGo things => exact .letGo things u
  | collect hand => exact .collect hand u
  | error name message => exact .error name message u
  | bookmark target => exact .bookmark target u
  | bridge realm n => exact .bridge realm n u
  | link realm n => exact .link realm n u
  | embedding f => exact .embedding f u
  | add h => cases h
  | remove h => cases h
  | mark h => cases h

/-! ## Throwing -/

theorem changes_scriptError (realm : RealmId) (name message : String) (w : World E) :
    Changes allows w (w.scriptError realm name message).2 :=
  .tail (.tail (.single (.collect [] w)) (.error name message _)) (.bridge realm _ _)

theorem changes_hostError (realm : RealmId) (e : HostError) (w : World E) :
    Changes allows w (w.hostError realm e).2 := by
  cases e <;> exact changes_scriptError realm _ _ w

/-! ## Crossing the boundary -/

theorem changes_link (realm : RealmId) (h : HostValue) (w : World E) :
    Changes allows w (w.link realm h).2 :=
  AdmitsLinks.guarded ⟨fun _ => .refl, .trans, fun s w => .single (.text s w),
    fun elements w => .single (.array elements w), fun n w => .single (.link realm n w)⟩ h w

mutual

theorem changes_fromHost (realm : RealmId) :
    ∀ (h : HostValue) (w : World E), Changes allows w (w.fromHost realm h).2
  | .undefined, w | .null, w | .boolean _, w | .number _, w => .refl
  | .string s, w => .single (.text s w)
  | .array items, w => .tail (changes_fromHostAll realm items w) (.array _ _)
  | .object n, w => by
    unfold fromHost
    split
    · exact .refl
    · exact .single (.bridge realm n w)

theorem changes_fromHostAll (realm : RealmId) :
    ∀ (hs : List HostValue) (w : World E), Changes allows w (fromHostAll realm hs w).2
  | [], _ => .refl
  | h :: rest, w => (changes_fromHost realm h w).trans (changes_fromHostAll realm rest _)

end

theorem changes_fromHostIn (realm? : Option RealmId) (h : HostValue) (w : World E) :
    Changes allows w (w.fromHostIn realm? h).2 :=
  Admits.fromHostIn ⟨fun _ => .refl, .trans, fun s w => .single (.text s w),
    fun elements w => .single (.array elements w),
    fun _ n w => .single (.bridge _ n w)⟩ h w

theorem changes_toHost (v : Value) (w : World E) : Changes allows w (w.toHost v).2 :=
  related_toHostWithin (R := Changes allows) (fun _ => .refl) .trans
    (fun target w => .single (.bookmark target w)) w.arrays.size v w

theorem changes_toHostList (vs : List Value) (w : World E) :
    Changes allows w (w.toHostList vs).2 :=
  related_toHostAll (R := Changes allows) (fun _ => .refl) .trans changes_toHost vs w

/-! ## Methods of a host object -/

theorem changes_hosted {α : Type} (f : E → α × E) (w : World E) :
    Changes allows w (w.hosted f).2 := .single (.embedding (fun e => (f e).2) w)

theorem changes_getProperty (n : Native) (name : String) (w : World E) :
    Changes allows w (w.getProperty n name).2 := by
  cases n with
  | error serial errorName message =>
    obtain ⟨v, -, hv⟩ := getProperty_error (E := E) serial errorName message name
    rw [hv]
  | bookmark serial target => exact .refl
  | hosted id => exact changes_hosted _ w

theorem changes_setProperty (n : Native) (name : String) (value : HostValue) (w : World E) :
    Changes allows w (w.setProperty n name value).2 := by
  cases n with
  | hosted id => exact changes_hosted _ w
  | _ => exact .refl

theorem changes_deleteProperty (n : Native) (name : String) (w : World E) :
    Changes allows w (w.deleteProperty n name).2 := by
  cases n with
  | hosted id => exact changes_hosted _ w
  | _ => exact .refl

theorem changes_callNative (n : Native) (receiver : HostValue) (args : List HostValue)
    (w : World E) : Changes allows w (w.callNative n receiver args).2 := by
  cases n with
  | hosted id => exact changes_hosted _ w
  | _ => exact .refl

theorem changes_primitiveForm (n : Native) (w : World E) :
    Changes allows w (w.primitiveForm n).2 := by
  cases n with
  | hosted id => exact changes_hosted _ w
  | _ => exact .refl

theorem changes_hostPrimitive (n : Native) (w : World E) :
    Changes allows w (w.hostPrimitive n).2 := by
  have hform : Changes allows w (w.primitiveForm n).2 := changes_primitiveForm n w
  unfold hostPrimitive
  split
  · next w' hr =>
    rw [hr] at hform
    exact hform.tail (.text _ w')
  · next h w' hr =>
    rw [hr] at hform
    have halone := hform.trans (changes_fromHostIn none h w')
    split
    · next p w'' hr' =>
      rw [hr'] at halone
      exact halone
    · next w'' _ hr' =>
      rw [hr'] at halone
      exact halone.tail (.text _ w'')

end World

/-- A chore changes no name that a link remembers. -/
theorem Chore.changes_perform {E : Type} [Embedding E] {allows : World.Allowance}
    (ch : Chore) (w : World E) : World.Changes allows w (ch.perform w).2 := by
  cases ch with
  | object o => exact .single (.object o w)
  | array elements => exact .single (.array elements w)
  | text s => exact .single (.text s w)
  | inherit id prototype =>
    rcases w.setPrototype_eq id prototype with h | h
    · simp only [perform, h]
      exact .refl
    · simp only [perform, h]
      exact .single (.modifyObject id _ w)
  | hold things => exact .single (.hold things w)
  | letGo things => exact .single (.letGo things w)
  | collect => exact .single (.collect [] w)

end ScriptSandbox

import ScriptSandbox.Value.Basic

/-
  Completions.

  How a piece of script code ended. Only `break` and `continue` can name a label. A flow is the
  outcome of a finished step: a result, or a completion that skips what comes next.
-/

namespace ScriptSandbox

inductive CompletionKind where
  | normal
  | breakTo
  | continueTo
  | returned
  | thrown
deriving DecidableEq, Repr

/-- The name of a kind of completion. -/
def CompletionKind.name : CompletionKind → String
  | normal => "normal"
  | breakTo => "break"
  | continueTo => "continue"
  | returned => "return"
  | thrown => "throw"

inductive Completion where
  | normal (value : Value)
  | breakTo (value : Value) (target : Option String)
  | continueTo (value : Value) (target : Option String)
  | returned (value : Value)
  | thrown (value : Value)
deriving DecidableEq, Repr

namespace Completion

/-- A completion of a kind; only a jump keeps the target. -/
def ofKind (kind : CompletionKind) (value : Value) (target : Option String) : Completion :=
  match kind with
  | .normal => normal value
  | .breakTo => breakTo value target
  | .continueTo => continueTo value target
  | .returned => returned value
  | .thrown => thrown value

def kind : Completion → CompletionKind
  | normal _ => .normal
  | breakTo _ _ => .breakTo
  | continueTo _ _ => .continueTo
  | returned _ => .returned
  | thrown _ => .thrown

def value : Completion → Value
  | normal v => v
  | breakTo v _ => v
  | continueTo v _ => v
  | returned v => v
  | thrown v => v

def target? : Completion → Option String
  | breakTo _ target => target
  | continueTo _ target => target
  | _ => none

def isAbrupt : Completion → Bool
  | normal _ => false
  | _ => true

def isThrow : Completion → Bool
  | thrown _ => true
  | _ => false

/-- The text of a completion, given the text of its value. -/
def text (valueText : String) (c : Completion) : String :=
  match c.target? with
  | some target => c.kind.name ++ " " ++ target
  | none => c.kind.name ++ ": " ++ valueText

@[simp] theorem kind_ofKind (kind : CompletionKind) (value : Value) (target : Option String) :
    (ofKind kind value target).kind = kind := by
  cases kind <;> rfl

@[simp] theorem value_ofKind (kind : CompletionKind) (value : Value) (target : Option String) :
    (ofKind kind value target).value = value := by
  cases kind <;> rfl

end Completion

/-- The outcome of a finished step. -/
abbrev Flow (α : Type) := Except Completion α

end ScriptSandbox

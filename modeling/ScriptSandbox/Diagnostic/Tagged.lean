import ScriptSandbox.Diagnostic.Quoted
import ScriptSandbox.Number.Text
import ScriptSandbox.Step.Driver
import ScriptSandbox.World.Wrapping

/-
  Tagged texts.

  Texts for a reader of logs that name the kind of a thing in front of its content: values, how far
  a step got, why a run stopped, and realms.
-/

namespace ScriptSandbox.Diagnostic

variable {E α : Type} [Embedding E]

/-- A value with its kind. -/
def taggedValue (w : World E) (v : Value) : String :=
  match v with
  | .undefined => "Undefined"
  | .null => "Null"
  | .boolean b => "Boolean(" ++ (if b then "true" else "false") ++ ")"
  | .number n => "Number(" ++ n.taggedText ++ ")"
  | .string s => "String(" ++ quoted s.content ++ ")"
  | .object _ => "Object(" ++ w.debugText v ++ ")"
  | .array _ => "Array(" ++ w.debugText v ++ ")"
  | .bridge _ => "Bridge(" ++ w.debugText v ++ ")"
  | .link _ => "Link(" ++ w.debugText v ++ ")"

/-- The fields of a record in braces. -/
def fieldText (name : String) (fields : List String) : String :=
  name ++ " \x7b " ++ ", ".intercalate fields ++ " \x7d"

/-- A request. The receiver of a call is left out, and of its arguments only the number is
    shown. -/
def taggedRequest (w : World E) : Request → String
  | .checkpoint => "Checkpoint"
  | .call callee _ args =>
    fieldText "Call"
      ["callee: " ++ quoted (w.debugText callee), "args: " ++ toString args.length, ".."]

/-- The text of a completion. -/
def completionText (w : World E) (c : Completion) : String := c.text (w.debugText c.value)

/-- How far a step got. A fault has no text. -/
def taggedFront (w : World E) : Step.Front (World E) α → String
  | .finished (.ok _) => "Step::Ready(Ok(..))"
  | .finished (.error c) => "Step::Ready(Err(" ++ completionText w c ++ "))"
  | .faulted _ => ""
  | .waiting r _ _ => "Step::Suspended(" ++ taggedRequest w r ++ ")"

/-- Why a run stopped. -/
def taggedStop : Stop → String
  | .cancelled steps => fieldText "Cancelled" ["steps: " ++ toString steps]
  | .budgetExhausted steps => fieldText "StepBudgetExhausted" ["steps: " ++ toString steps]

/-- The name of the way in which a realm treats new properties. -/
def newPropertiesName : NewProperties → String
  | .allow => "Allow"
  | .trackCreated => "TrackCreated"

/-- A realm with the numbers of its live wrappers. -/
def taggedRealm (w : World E) (realm : RealmId) : String :=
  let config := fieldText "SandboxConfig"
    ["new_properties: " ++ newPropertiesName (w.realm realm).newProperties]
  fieldText "Realm"
    ["config: " ++ config, "bridges: " ++ toString (w.cachedBridges realm),
      "links: " ++ toString (w.cachedLinks realm), ".."]

end ScriptSandbox.Diagnostic

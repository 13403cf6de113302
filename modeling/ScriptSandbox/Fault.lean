/-
  Faults: conditions that end an evaluation outright.

  A fault is no completion. A script cannot catch it, and nothing after it runs.
-/

namespace ScriptSandbox

inductive Fault where
  /-- A numeral was cut inside a character that takes several bytes. -/
  | splitCharacter
  /-- An array that nests without end was to be written out. -/
  | endlessArray
  /-- While an array was joined, more arrays were made than are reserved for that. -/
  | endlessJoin
  /-- A run was not followed to its end. -/
  | endlessRun
deriving DecidableEq, Repr

end ScriptSandbox

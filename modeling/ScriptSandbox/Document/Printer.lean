import ScriptSandbox.Document.Basic
import ScriptSandbox.Number.Layout

/-
  Compact text of a document.

  No blanks; strings escape the quote, the backslash and the control characters; a decimal has the
  fewest digits that read back and always shows that it is no integer.
-/

namespace ScriptSandbox

open Number

/-- Decimals in documents: full notation from `1e-5` up to `1e16`, where there always is a fraction,
    and always a sign on an exponent. -/
def documentLayout : Layout := ⟨-4, 16, true, true⟩

namespace Document

/-- Four lower-case hexadecimal digits. -/
def hex4 (n : Nat) : List Char :=
  let ds := Nat.toDigits 16 n
  List.replicate (4 - ds.length) '0' ++ ds

/-- A character inside a quoted string. -/
def escapeChar (c : Char) : List Char :=
  match c with
  | '"' => ['\\', '"']
  | '\\' => ['\\', '\\']
  | '\n' => ['\\', 'n']
  | '\r' => ['\\', 'r']
  | '\t' => ['\\', 't']
  | '\x08' => ['\\', 'b']
  | '\x0c' => ['\\', 'f']
  | c => if c.toNat < 0x20 then '\\' :: 'u' :: hex4 c.toNat else [c]

/-- A string in quotes. -/
def quote (s : String) : String :=
  "\"" ++ String.ofList (s.toList.flatMap escapeChar) ++ "\""

/-- A finite decimal; what is not finite has no form and reads `null`. -/
def decimalText (x : Binary64) : String :=
  if !x.isFinite then "null"
  else if x.isZero then (if x.isNegative then "-0.0" else "0.0")
  else String.ofList (documentLayout.writeFinite .even x)

def numberText : DocumentNumber → String
  | .integer n => toString n
  | .decimal x => decimalText x

mutual

/-- The compact text of a document. -/
def render : Document → String
  | .null => "null"
  | .boolean b => if b then "true" else "false"
  | .number n => numberText n
  | .string s => quote s
  | .array items => "[" ++ ",".intercalate (renderItems items) ++ "]"
  | .object fields => "\x7b" ++ ",".intercalate (renderFields fields) ++ "\x7d"

def renderItems : List Document → List String
  | [] => []
  | d :: rest => d.render :: renderItems rest

def renderFields : List (String × Document) → List String
  | [] => []
  | (k, v) :: rest => (quote k ++ ":" ++ v.render) :: renderFields rest

end

end Document

end ScriptSandbox

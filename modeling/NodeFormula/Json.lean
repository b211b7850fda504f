import NodeFormula.Number.Style

/-!
# JSON texts

JSON values and their indented text. Integers and doubles are kept apart: a double always shows a
fraction or an exponent.
-/

namespace NodeFormula

/-- A JSON value. -/
inductive Json where
  | bool (value : Bool)
  | int (value : Int)
  | float (value : Float)
  | str (value : String)
  | arr (items : List Json)
  | obj (fields : List (String × Json))

namespace Json

/-- Doubles in JSON: plain from `0.00001` up to `1e+16`, a half to the even digit, and `null` for what
JSON has no number for. -/
def floatStyle : FloatStyle where
  plainFrom := -5
  plainTo := 16
  plus := true
  tie := .even
  infinity := "null"
  minusInfinity := "null"
  notANumber := "null"

/-- A hexadecimal digit in lower case. -/
def hexDigit (n : Nat) : Char := Nat.digitChar n

/-- How one character is written in a string. -/
def escapedChar (c : Char) : List Char :=
  match c with
  | '"' => ['\\', '"']
  | '\\' => ['\\', '\\']
  | '\n' => ['\\', 'n']
  | '\r' => ['\\', 'r']
  | '\t' => ['\\', 't']
  | '\x08' => ['\\', 'b']
  | '\x0c' => ['\\', 'f']
  | c =>
    if c.toNat < 0x20 then
      ['\\', 'u', '0', '0', hexDigit (c.toNat / 16), hexDigit (c.toNat % 16)]
    else [c]

/-- A string in quotes. -/
def quoted (s : String) : String :=
  String.ofList ('"' :: s.toList.flatMap escapedChar ++ ['"'])

/-- A line break and the indentation of a level. -/
def newline (depth : Nat) : String := String.ofList ('\n' :: List.replicate (2 * depth) ' ')

/-- Texts between brackets, each on a line of its own, one level further in than the brackets. -/
def enclose (depth : Nat) (left right : String) (texts : List String) : String :=
  if texts.isEmpty then left ++ right
  else
    left ++ newline (depth + 1) ++ (("," ++ newline (depth + 1)).intercalate texts) ++
      newline depth ++ right

mutual

/-- The text of a value that starts on a line of the given level. -/
def pretty (depth : Nat) : Json → String
  | bool b => if b then "true" else "false"
  | int n => toString n
  | float x => floatStyle.write x
  | str s => quoted s
  | arr items => enclose depth "[" "]" (prettyItems (depth + 1) items)
  | obj fields => enclose depth "\x7b" "\x7d" (prettyFields (depth + 1) fields)

/-- The texts of items. -/
def prettyItems (depth : Nat) : List Json → List String
  | [] => []
  | j :: rest => pretty depth j :: prettyItems depth rest

/-- The texts of fields. -/
def prettyFields (depth : Nat) : List (String × Json) → List String
  | [] => []
  | (key, j) :: rest => (quoted key ++ ": " ++ pretty depth j) :: prettyFields depth rest

end

/-- The text of a value. -/
def text (j : Json) : String := pretty 0 j

end Json

end NodeFormula

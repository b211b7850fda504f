import NodeFormula.Number.Shortest

/-!
# Reading doubles

The double nearest to a decimal. Decimals far outside the range of doubles are settled by their
leading digit, so no power of ten is larger than the digits given ask for.
-/

namespace NodeFormula

/-- The value of a list of decimal digits. -/
def natOfDigits (digits : List Char) : Nat :=
  digits.foldl (fun n c => 10 * n + (c.toNat - '0'.toNat)) 0

namespace Decimal

/-- The double nearest to a decimal. -/
def toFloat (d : Decimal) : Float :=
  if d.digits = 0 then 0.0
  else
    let lead := d.exponent + digitCount d.digits
    if 400 < lead then 1.0 / 0.0
    else if lead < -400 then 0.0
    else Float.ofScientific d.digits (decide (d.exponent < 0)) d.exponent.natAbs

/-- The decimal with the given digits before and after its point and the given exponent. -/
def ofParts (whole fraction : List Char) (exponent : Int) : Decimal :=
  ⟨natOfDigits (whole ++ fraction), exponent - fraction.length⟩

end Decimal

/-- The exponent part of a number: nothing, or `e` and digits with an optional sign. -/
def readExponent? : List Char → Option Int
  | [] => some 0
  | e :: rest =>
    if e != 'e' && e != 'E' then none
    else
      let (negative, digits) := match rest with
        | '-' :: ds => (true, ds)
        | '+' :: ds => (false, ds)
        | ds => (false, ds)
      if digits.isEmpty || !digits.all Char.isDigit then none
      else some (if negative then -natOfDigits digits else natOfDigits digits)

/-- Read a decimal: digits with an optional point among or beside them and an optional exponent. -/
def readDecimal? (cs : List Char) : Option Decimal :=
  let whole := cs.takeWhile Char.isDigit
  let afterWhole := cs.dropWhile Char.isDigit
  let (fraction, tail) := match afterWhole with
    | '.' :: ds => (ds.takeWhile Char.isDigit, ds.dropWhile Char.isDigit)
    | ds => ([], ds)
  if whole.isEmpty && fraction.isEmpty then none
  else (readExponent? tail).map fun e => Decimal.ofParts whole fraction e

/-- Read an unsigned number: a decimal, or the words for infinity and NaN in any case. -/
def readMagnitude? (cs : List Char) : Option Float :=
  let word := String.ofList (cs.map Char.toLower)
  if word = "inf" ∨ word = "infinity" then some (1.0 / 0.0)
  else if word = "nan" then some (0.0 / 0.0)
  else (readDecimal? cs).map Decimal.toFloat

/-- Read a number with an optional sign. -/
def readFloat? (text : String) : Option Float :=
  match text.toList with
  | '-' :: cs => (readMagnitude? cs).map fun x => -x
  | '+' :: cs => readMagnitude? cs
  | cs => readMagnitude? cs

end NodeFormula

import NodeFormula.Number.Shortest

/-!
# Writing doubles

A double is written with its shortest digits, plainly (`0.25`, `1200.0`) or with an exponent
(`1.5e-7`). A `FloatStyle` says which exponents are plain and how the rest is spelled.
-/

namespace NodeFormula

/-- The decisions of a text format for doubles. -/
structure FloatStyle where
  /-- Numbers whose leading digit has at least this exponent are written plainly. -/
  plainFrom : Int
  /-- Numbers whose leading digit has this exponent or more are written with an exponent. -/
  plainTo : Int
  /-- Whether a positive exponent has a `+`. -/
  plus : Bool
  tie : Tie
  infinity : String
  minusInfinity : String
  notANumber : String

namespace FloatStyle

/-- A run of zeros. -/
def zeros (n : Nat) : List Char := List.replicate n '0'

/-- Digits with a decimal point after the digit of exponent zero and at least one digit on each side.
`lead` is the exponent of the first digit. -/
def plain (digits : List Char) (lead : Int) : List Char :=
  if lead < 0 then '0' :: '.' :: zeros (-lead - 1).toNat ++ digits
  else
    let whole := lead.toNat + 1
    if digits.length ≤ whole then digits ++ zeros (whole - digits.length) ++ ['.', '0']
    else digits.take whole ++ '.' :: digits.drop whole

/-- One digit, the others after a point if there are any, and the exponent. -/
def scientific (style : FloatStyle) (digits : List Char) (lead : Int) : List Char :=
  let fraction := digits.drop 1
  let point := if fraction.isEmpty then [] else '.' :: fraction
  let sign := if style.plus && decide (0 ≤ lead) then ['+'] else []
  digits.take 1 ++ point ++ 'e' :: sign ++ (toString lead).toList

/-- The text of a positive finite double. -/
def magnitude (style : FloatStyle) (m : Nat) (q : Int) : List Char :=
  let d := Decimal.shortest style.tie m q
  let digits := Decimal.digitChars d.digits
  let lead := d.exponent + digits.length - 1
  if style.plainFrom ≤ lead ∧ lead < style.plainTo then plain digits lead
  else style.scientific digits lead

/-- The text of a double. -/
def write (style : FloatStyle) (x : Float) : String :=
  match Dyadic.ofFloat? x with
  | some d =>
    let digits := if d.mantissa = 0 then ['0', '.', '0'] else style.magnitude d.mantissa d.exponent
    String.ofList (if d.negative then '-' :: digits else digits)
  | none =>
    if x.isNaN then style.notANumber
    else if x < 0.0 then style.minusInfinity
    else style.infinity

end FloatStyle

end NodeFormula

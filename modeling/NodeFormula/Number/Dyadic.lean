/-!
# Doubles as dyadic numbers

A finite double is a sign and a natural number times a power of two. Exact work on doubles, such as
the remainder of a division or the choice of decimal digits, is done on this form.
-/

namespace NodeFormula

/-- The number `mantissa * 2 ^ exponent`, or its opposite. -/
structure Dyadic where
  negative : Bool
  mantissa : Nat
  exponent : Int
deriving DecidableEq, Repr

namespace Dyadic

/-- The value of a finite double. Infinities and NaN have none. -/
def ofFloat? (x : Float) : Option Dyadic :=
  let bits : Nat := x.toBits.toNat
  let negative := decide (Nat.pow 2 63 ≤ bits)
  let field : Nat := bits / Nat.pow 2 52 % Nat.pow 2 11
  let fraction : Nat := bits % Nat.pow 2 52
  if field = 2047 then none
  else if field = 0 then some ⟨negative, fraction, -1074⟩
  else some ⟨negative, fraction + Nat.pow 2 52, (field : Int) - 1075⟩

/-- The double nearest to a dyadic number. A negative power of two is the same negative power of ten
times a power of five, so the value has a finite decimal form. -/
def toFloat (d : Dyadic) : Float :=
  let magnitude :=
    if 0 ≤ d.exponent then Float.ofScientific (d.mantissa * Nat.pow 2 d.exponent.toNat) false 0
    else Float.ofScientific (d.mantissa * Nat.pow 5 (-d.exponent).toNat) true (-d.exponent).toNat
  if d.negative then -magnitude else magnitude

/-- The remainder of `a` by `b` toward zero, with the sign of `a`. -/
def rem (a b : Dyadic) : Dyadic :=
  let e := min a.exponent b.exponent
  let m := a.mantissa * Nat.pow 2 (a.exponent - e).toNat
  let n := b.mantissa * Nat.pow 2 (b.exponent - e).toNat
  ⟨a.negative, m % n, e⟩

end Dyadic

/-- The remainder of a division of doubles toward zero. It is exact, has the sign of `x`, and is NaN
for an infinite `x` and for a zero `y`. -/
def floatRem (x y : Float) : Float :=
  match Dyadic.ofFloat? x, Dyadic.ofFloat? y with
  | some a, some b => if b.mantissa = 0 then 0.0 / 0.0 else (a.rem b).toFloat
  | some _, none => if y.isNaN then y else x
  | none, _ => 0.0 / 0.0

end NodeFormula

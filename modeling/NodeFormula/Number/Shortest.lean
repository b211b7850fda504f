import NodeFormula.Number.Dyadic

/-!
# Shortest decimal digits

The fewest decimal digits that read back as a given double, and of several such decimals the nearest
to it. All comparisons are exact, on natural numbers.
-/

namespace NodeFormula

/-- The number `digits * 10 ^ exponent`. -/
structure Decimal where
  digits : Nat
  exponent : Int
deriving DecidableEq, Repr

/-- Which of two decimals is taken when a double lies exactly between them. -/
inductive Tie where
  | up
  | even
deriving DecidableEq, Repr

namespace Decimal

/-- Decimal digits of a natural number, most significant first. -/
def digitChars (n : Nat) : List Char := (Nat.repr n).toList

/-- How many decimal digits a natural number has. -/
def digitCount (n : Nat) : Nat := (digitChars n).length

/-- The exponent of the leading decimal digit of `num / den`. -/
def leading (num den : Nat) : Int :=
  let e : Int := digitCount num - digitCount den
  if den * Nat.pow 10 e.toNat ≤ num * Nat.pow 10 (-e).toNat then e else e - 1

/-- The decimals that read back as one double: those between `low / den` and `high / den`, the ends
included if `closed`. The double itself is `value / den`. -/
structure Window where
  low : Nat
  value : Nat
  high : Nat
  den : Nat
  closed : Bool

/-- The window of `m * 2 ^ q`. Its ends are halfway to the neighbouring doubles; below a power of two
the neighbour is half as far, except for the least of the normal numbers. -/
def Window.ofDyadic (m : Nat) (q : Int) : Window :=
  let below := if m = Nat.pow 2 52 ∧ -1074 < q then 1 else 2
  let scale := Nat.pow 2 (q - 2).toNat
  ⟨(4 * m - below) * scale, 4 * m * scale, (4 * m + 2) * scale, Nat.pow 2 (2 - q).toNat,
    m % 2 = 0⟩

/-- Whether `n / unit` lies in the window, whose numbers are over the denominator `unit` too. -/
def Window.holds (w : Window) (n : Nat) : Bool :=
  if w.closed then w.low ≤ n && n ≤ w.high else w.low < n && n < w.high

/-- The window with its numbers scaled so that one step of the grid `10 ^ k` is `den`. -/
def Window.onGrid (w : Window) (k : Int) : Window :=
  let f := Nat.pow 10 (-k).toNat
  ⟨w.low * f, w.value * f, w.high * f, w.den * Nat.pow 10 k.toNat, w.closed⟩

/-- The neighbour of the double on the grid `10 ^ k` that reads back, the nearer of two. -/
def Window.onGrid? (w : Window) (tie : Tie) (k : Int) : Option Nat :=
  let g := w.onGrid k
  let d := g.value / g.den
  let rest := 2 * (g.value % g.den)
  let nearest :=
    if rest < g.den then d
    else if g.den < rest then d + 1
    else match tie with
      | .up => d + 1
      | .even => d + d % 2
  match g.holds (d * g.den), g.holds ((d + 1) * g.den) with
  | true, true => some nearest
  | true, false => some d
  | false, true => some (d + 1)
  | false, false => none

/-- Drop trailing zeros, at most `fuel` of them. -/
def trim : Nat → Decimal → Decimal
  | 0, d => d
  | fuel + 1, d =>
    if d.digits % 10 = 0 then trim fuel ⟨d.digits / 10, d.exponent + 1⟩ else d

/-- The shortest decimal that reads back as `m * 2 ^ q`, for a positive `m`: the coarsest grid with a
hit decides. Seventeen digits are enough for every double. -/
def shortest (tie : Tie) (m : Nat) (q : Int) : Decimal :=
  let w := Window.ofDyadic m q
  let top := leading w.value w.den
  let hit := (List.range 17).findSome? fun (n : Nat) =>
    (w.onGrid? tie (top - n)).map fun d => (⟨d, top - n⟩ : Decimal)
  trim 17 (hit.getD ⟨w.value / w.den, 0⟩)

end Decimal

end NodeFormula

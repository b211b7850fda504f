import NodeFormula.Constant
import NodeFormula.Formula.Operator

/-!
# Operators on constants

The value of an operator on two constants, where it is known without a node. Integers stay integers
as long as the result is exact and in range; a double that would be infinite or no number is not a
value.
-/

namespace NodeFormula.Constant

/-- A double as a constant, if it is finite. -/
def finite? (x : Float) : Option Constant := if x.isFinite then some (float x) else none

/-- An operator on two doubles. -/
def foldFloats (op : BinaryOp) (a b : Float) : Option Constant :=
  match op with
  | .add => finite? (a + b)
  | .sub => finite? (a - b)
  | .mul => finite? (a * b)
  | .div => if b == 0.0 then none else finite? (a / b)
  | .mod => if b == 0.0 then none else finite? (floatRem a b)
  | .pow => finite? (a.pow b)
  | .lt => some (bool (a < b))
  | .le => some (bool (a ≤ b))
  | .gt => some (bool (b < a))
  | .ge => some (bool (b ≤ a))
  | .eq => some (bool (a == b))
  | .ne => some (bool (a != b))
  | .and => none
  | .or => none

/-- An operator on two integers. Quotients, negative powers and comparisons are those of the nearest
doubles; an exponent beyond 32 bits is left to a node. -/
def foldInts (op : BinaryOp) (a b : Int64) : Option Constant :=
  let x := Float.ofInt a.toInt
  let y := Float.ofInt b.toInt
  match op with
  | .add => (Word.add? a b).map int
  | .sub => (Word.sub? a b).map int
  | .mul => (Word.mul? a b).map int
  | .mod => (Word.rem? a b).map int
  | .pow =>
    if b.toInt < 0 then finite? (x.pow y)
    else if b.toInt < 0x100000000 then (Word.pow? a b.toInt.toNat).map int
    else none
  | op => foldFloats op x y

/-- The value of an operator on two constants. Without one the operator becomes a node. -/
def fold (op : BinaryOp) (a b : Constant) : Option Constant :=
  match op, a, b with
  | .and, bool p, bool q => some (bool (p && q))
  | .or, bool p, bool q => some (bool (p || q))
  | op, int i, int j => foldInts op i j
  | op, int i, float y => foldFloats op (Float.ofInt i.toInt) y
  | op, float x, int j => foldFloats op x (Float.ofInt j.toInt)
  | op, float x, float y => foldFloats op x y
  | _, _, _ => none

/-- The opposite of a constant number or vector, where it is known without a node. -/
def negate? : Constant → Option Constant
  | int i => (Word.neg? i).map int
  | float x => some (float (-x))
  | vec3 x y z => some (vec3 (-x) (-y) (-z))
  | _ => none

/-- An operator before a constant. -/
def foldUnary (op : UnaryOp) (v : Constant) : Option Constant :=
  match op, v with
  | .neg, v => negate? v
  | .not, bool b => some (bool !b)
  | .not, _ => none

end NodeFormula.Constant

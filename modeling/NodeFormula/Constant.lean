import NodeFormula.Number.Style
import NodeFormula.Number.Word
import NodeFormula.Socket
import NodeFormula.Text.Quoted

/-!
# Constants

Values that are known before any node exists, their types, their conversion and their text.
-/

namespace NodeFormula

/-- A value known at compile time. -/
inductive Constant where
  | bool (value : Bool)
  | int (value : Int64)
  | float (value : Float)
  | vec3 (x y z : Float)
  | rgba (r g b a : Float)
  | str (value : String)
deriving DecidableEq

namespace Constant

/-- The type of a constant. -/
def type : Constant → SocketType
  | bool _ => .bool
  | int _ => .int
  | float _ => .float
  | vec3 .. => .vec3
  | rgba .. => .rgba
  | str _ => .string

/-- A truth value or number as a double, the nearest one for an integer. -/
def scalar? : Constant → Option Float
  | bool b => some (if b then 1.0 else 0.0)
  | int i => some (Float.ofInt i.toInt)
  | float x => some x
  | _ => none

/-- The components of a vector or colour. -/
def components : Constant → List Float
  | vec3 x y z => [x, y, z]
  | rgba r g b a => [r, g, b, a]
  | _ => []

/-- The same value as a constant of another type, where the conversion is allowed. A scalar fills
every component, and a colour made from anything else is opaque. -/
def convert? (v : Constant) (target : SocketType) : Option Constant :=
  if v.type = target then some v
  else if !v.type.convertsTo target then none
  else match v, target with
    | bool b, .int => some (int (if b then 1 else 0))
    | vec3 x y z, .rgba => some (rgba x y z 1.0)
    | rgba r g b _, .vec3 => some (vec3 r g b)
    | v, .float => v.scalar?.map float
    | v, .vec3 => v.scalar?.map fun s => vec3 s s s
    | v, .rgba => v.scalar?.map fun s => rgba s s s 1.0
    | _, _ => none

/-- Doubles in formulas and op listings: plain from `0.0001` up to `1e16`, a half away from zero. -/
def floatStyle : FloatStyle where
  plainFrom := -4
  plainTo := 16
  plus := false
  tie := .up
  infinity := "inf"
  minusInfinity := "-inf"
  notANumber := "NaN"

/-- The text of a double. -/
def floatText (x : Float) : String := floatStyle.write x

/-- Texts of doubles, separated by commas. -/
def floatTexts (xs : List Float) : String := ", ".intercalate (xs.map floatText)

/-- The text of a constant, as it is written in a formula. -/
def text : Constant → String
  | bool b => if b then "true" else "false"
  | int i => Word.text i
  | float x => floatText x
  | vec3 x y z => "\x7b" ++ floatTexts [x, y, z] ++ "\x7d"
  | rgba r g b a => "\x7b" ++ floatTexts [r, g, b, a] ++ "\x7d"
  | str s => Text.quoted s

/-- The text of a constant together with its kind. -/
def describe : Constant → String
  | bool b => "Bool(" ++ text (bool b) ++ ")"
  | int i => "Int(" ++ Word.text i ++ ")"
  | float x => "Float(" ++ floatText x ++ ")"
  | vec3 x y z => "Vec3([" ++ floatTexts [x, y, z] ++ "])"
  | rgba r g b a => "Rgba([" ++ floatTexts [r, g, b, a] ++ "])"
  | str s => "Str(" ++ Text.quoted s ++ ")"

/-- Conversion gives a constant of the type asked for. -/
theorem type_of_convert? {v w : Constant} {target : SocketType} (h : v.convert? target = some w) :
    w.type = target := by
  unfold convert? at h
  split at h
  next heq => cases h; exact heq
  next hne =>
    split at h
    · cases h
    · split at h <;> simp_all <;> grind [type]

end Constant

end NodeFormula

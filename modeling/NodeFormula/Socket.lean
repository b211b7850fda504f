/-!
# Socket types

The types of data that a node socket carries, their names in formulas and in node trees, and the cost
of converting one into another.
-/

namespace NodeFormula

/-- The data carried by a node socket. -/
inductive SocketType where
  | bool
  | int
  | float
  | rgba
  | vec3
  | rotation
  | geometry
  | string
  | shader
  | object
  | image
  | collection
  | texture
  | material
deriving DecidableEq, Repr, Inhabited

namespace SocketType

/-- The type that an annotation in a formula names. -/
def ofName? : String → Option SocketType
  | "bool" => some .bool
  | "int" => some .int
  | "float" => some .float
  | "color" => some .rgba
  | "rgba" => some .rgba
  | "vec3" => some .vec3
  | "rot" => some .rotation
  | "rotation" => some .rotation
  | "geo" => some .geometry
  | "geometry" => some .geometry
  | "str" => some .string
  | "string" => some .string
  | "shader" => some .shader
  | "object" => some .object
  | "image" => some .image
  | "collection" => some .collection
  | "texture" => some .texture
  | "material" => some .material
  | _ => none

/-- The name of a type in messages. -/
def name : SocketType → String
  | bool => "bool"
  | int => "int"
  | float => "float"
  | rgba => "color"
  | vec3 => "vec3"
  | rotation => "rotation"
  | geometry => "geometry"
  | string => "string"
  | shader => "shader"
  | object => "object"
  | image => "image"
  | collection => "collection"
  | texture => "texture"
  | material => "material"

/-- The name of a type in an exported tree. -/
def tag : SocketType → String
  | rgba => "rgba"
  | t => t.name

/-- The name of a type where a stack item is shown. -/
def title : SocketType → String
  | bool => "Bool"
  | int => "Int"
  | float => "Float"
  | rgba => "Rgba"
  | vec3 => "Vec3"
  | rotation => "Rotation"
  | geometry => "Geometry"
  | string => "String"
  | shader => "Shader"
  | object => "Object"
  | image => "Image"
  | collection => "Collection"
  | texture => "Texture"
  | material => "Material"

/-- The class of a socket in the interface of a node group. -/
def socketClass : SocketType → String
  | bool => "NodeSocketBool"
  | int => "NodeSocketInt"
  | float => "NodeSocketFloat"
  | rgba => "NodeSocketColor"
  | vec3 => "NodeSocketVector"
  | rotation => "NodeSocketRotation"
  | geometry => "NodeSocketGeometry"
  | string => "NodeSocketString"
  | shader => "NodeSocketShader"
  | object => "NodeSocketObject"
  | image => "NodeSocketImage"
  | collection => "NodeSocketCollection"
  | texture => "NodeSocketTexture"
  | material => "NodeSocketMaterial"

/-- The type of an item that a repeat zone carries. -/
def itemClass : SocketType → String
  | bool => "BOOLEAN"
  | int => "INT"
  | float => "FLOAT"
  | rgba => "RGBA"
  | vec3 => "VECTOR"
  | rotation => "ROTATION"
  | geometry => "GEOMETRY"
  | string => "STRING"
  | shader => "SHADER"
  | object => "OBJECT"
  | image => "IMAGE"
  | collection => "COLLECTION"
  | texture => "TEXTURE"
  | material => "MATERIAL"

/-- All types, in the order of their declaration. -/
def all : List SocketType :=
  [bool, int, float, rgba, vec3, rotation, geometry, string, shader, object, image, collection,
    texture, material]

theorem mem_all (t : SocketType) : t ∈ all := by cases t <;> decide

/-- What it costs to use a value of type `a` where `b` is asked for. Without a cost it is not
allowed. -/
def conversionCost (a b : SocketType) : Option Nat :=
  if a = b then some 0
  else match a, b with
    | bool, int => some 1
    | int, float => some 1
    | float, vec3 => some 1
    | float, rgba => some 1
    | vec3, rgba => some 1
    | rgba, vec3 => some 1
    | bool, float => some 2
    | int, vec3 => some 2
    | int, rgba => some 2
    | _, _ => none

/-- Whether a value of type `a` can stand where `b` is asked for. -/
def convertsTo (a b : SocketType) : Bool := (a.conversionCost b).isSome

/-- Names of types, separated by commas. -/
def listNames (types : List SocketType) : String := ", ".intercalate (types.map name)

end SocketType

end NodeFormula

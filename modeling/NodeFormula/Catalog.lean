import NodeFormula.Catalog.Geometry
import NodeFormula.Catalog.Shader
import NodeFormula.Catalog.Shared

/-!
# Trees and their built-in functions

What a formula can use depends on the kind of tree it is compiled into.
-/

namespace NodeFormula

/-- The kind of tree that a formula is compiled into. -/
inductive TreeKind where
  | shader
  | geometry
deriving DecidableEq, Repr

namespace TreeKind

/-- The name of a kind. -/
def name : TreeKind → String
  | shader => "shader"
  | geometry => "geometry"

/-- The class of a tree of this kind. -/
def treeClass : TreeKind → String
  | shader => "ShaderNodeTree"
  | geometry => "GeometryNodeTree"

/-- The key of a group node in a tree of this kind. -/
def groupKey : TreeKind → String
  | shader => "ShaderNodeGroup"
  | geometry => "GeometryNodeGroup"

/-- The kind with a given name or class, in any case of ASCII letters. -/
def ofName? (s : String) : Option TreeKind :=
  match String.ofList (s.toList.map Char.toLower) with
  | "shader" => some shader
  | "shadernodetree" => some shader
  | "geometry" => some geometry
  | "geo" => some geometry
  | "geometrynodetree" => some geometry
  | _ => none

/-- What is said of a name that no kind has. -/
def unknownMessage (s : String) : String :=
  s!"unknown tree type `{s}`, expected `shader` or `geometry`"

/-- All overloads of built-in functions in a tree of this kind, in order of declaration. -/
def catalog : TreeKind → List CatalogEntry
  | shader => Catalog.shared ++ Catalog.shaderOnly
  | geometry => Catalog.shared ++ Catalog.geometryOnly

/-- The overloads of one function. -/
def overloads (tree : TreeKind) (name : String) : List Overload :=
  tree.catalog.filterMap fun e => if e.1 = name then some e.2 else none

/-- The node that splits a vector or colour into its components. -/
def separate (tree : TreeKind) (type : SocketType) : Option Overload :=
  match type with
  | .vec3 => (tree.overloads "separate_xyz").head?
  | .rgba => (tree.overloads "separate_color").head?
  | _ => none

/-- The node that makes a vector or colour of its components. -/
def combine (tree : TreeKind) (type : SocketType) : Option Overload :=
  match type with
  | .vec3 => (tree.overloads "combine_xyz").head?
  | .rgba => (tree.overloads "combine_color").head?
  | _ => none

/-- Whether a constant of a type can be the value of an input node. -/
def supportsConstant (tree : TreeKind) (type : SocketType) : Bool :=
  match type, tree with
  | .bool, _ => true
  | .int, _ => true
  | .float, _ => true
  | .vec3, _ => true
  | .rgba, _ => true
  | .string, geometry => true
  | _, _ => false

/-- Whether a tree of this kind can hold repeat zones. -/
def supportsRepeat : TreeKind → Bool
  | shader => false
  | geometry => true

end TreeKind

end NodeFormula

import NodeFormula.Catalog.Overload

/-!
# Built-in functions of geometry trees
-/

namespace NodeFormula.Catalog

/-- The node that splits a colour in a geometry tree. -/
def geometrySeparateColor : Overload where
  inputs := [.rgba]
  outputs := [("r", .float), ("g", .float), ("b", .float), ("a", .float)]
  node := NodeSpec.prop ⟨"FunctionNodeSeparateColor", [0], [0, 1, 2, 3], []⟩ "mode" "RGB"

/-- The node that makes a colour in a geometry tree. -/
def geometryCombineColor : Overload where
  inputs := [.float, .float, .float, .float]
  outputs := [("color", .rgba)]
  node := NodeSpec.prop ⟨"FunctionNodeCombineColor", [0, 1, 2, 3], [0], []⟩ "mode" "RGB"

/-- The comparison of two values of one type, by compare nodes that read `inputs`. -/
def geometryCompare (name operation : String) (type : SocketType) (inputs : List Nat)
    (props : List (String × String)) : CatalogEntry :=
  let node := props.foldl (fun (n : NodeSpec) p => n.prop p.1 p.2)
    ⟨"FunctionNodeCompare", inputs, [0], []⟩
  (name, {
    inputs := [type, type]
    outputs := [("result", .bool)]
    node := node.prop "operation" operation })

/-- The comparisons with their operations. -/
def comparisons : List (String × String) := [
  ("less_than", "LESS_THAN"),
  ("less_equal", "LESS_EQUAL"),
  ("greater_than", "GREATER_THAN"),
  ("greater_equal", "GREATER_EQUAL"),
  ("equal", "EQUAL"),
  ("not_equal", "NOT_EQUAL")]

/-- Comparisons of floats and of integers, and equality of vectors. -/
def geometryCompares : List CatalogEntry :=
  (comparisons.flatMap fun (name, operation) => [
    geometryCompare name operation .float [0, 1] [("data_type", "FLOAT")],
    geometryCompare name operation .int [2, 3] [("data_type", "INT")]]) ++
  ([("equal", "EQUAL"), ("not_equal", "NOT_EQUAL")].map fun (name, operation) =>
    geometryCompare name operation .vec3 [4, 5] [("data_type", "VECTOR"), ("mode", "ELEMENT")])

/-- A boolean math node. -/
def booleanMath (name operation : String) (inputs : List Nat) : CatalogEntry :=
  (name, {
    inputs := inputs.map fun _ => .bool
    outputs := [("boolean", .bool)]
    node := NodeSpec.prop ⟨"FunctionNodeBooleanMath", inputs, [0], []⟩ "operation" operation })

/-- The functions that only geometry trees have. -/
def geometryOnly : List CatalogEntry := geometryCompares ++ [
  booleanMath "and" "AND" [0, 1],
  booleanMath "or" "OR" [0, 1],
  booleanMath "not" "NOT" [0],
  ("separate_color", geometrySeparateColor),
  ("combine_color", geometryCombineColor),
  ("position", {
    inputs := []
    outputs := [("position", .vec3)]
    node := ⟨"GeometryNodeInputPosition", [], [0], []⟩ }),
  ("normal", {
    inputs := []
    outputs := [("normal", .vec3)]
    node := ⟨"GeometryNodeInputNormal", [], [0], []⟩ }),
  ("index", {
    inputs := []
    outputs := [("index", .int)]
    node := ⟨"GeometryNodeInputIndex", [], [0], []⟩ }),
  ("set_position", {
    inputs := [.geometry, .bool, .vec3, .vec3]
    outputs := [("geometry", .geometry)]
    node := ⟨"GeometryNodeSetPosition", [0, 1, 2, 3], [0], []⟩ }),
  ("transform", {
    inputs := [.geometry, .vec3, .vec3, .vec3]
    outputs := [("geometry", .geometry)]
    node := ⟨"GeometryNodeTransform", [0, 1, 2, 3], [0], []⟩ }),
  ("grid", {
    inputs := [.float, .float, .int, .int]
    outputs := [("mesh", .geometry), ("uv_map", .vec3)]
    node := ⟨"GeometryNodeMeshGrid", [0, 1, 2, 3], [0, 1], []⟩ }),
  ("cube", {
    inputs := [.vec3, .int, .int, .int]
    outputs := [("mesh", .geometry), ("uv_map", .vec3)]
    node := ⟨"GeometryNodeMeshCube", [0, 1, 2, 3], [0, 1], []⟩ })]

end NodeFormula.Catalog

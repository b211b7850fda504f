import NodeFormula.Catalog.Overload

/-!
# Built-in functions of every tree

Float overloads come before vector overloads of the same function, so that they win a tie.
-/

namespace NodeFormula.Catalog

/-- Functions of one to three floats: name, operation and number of inputs. -/
def floatFunctions : List (String × String × Nat) := [
  ("add", "ADD", 2),
  ("sub", "SUBTRACT", 2),
  ("mul", "MULTIPLY", 2),
  ("div", "DIVIDE", 2),
  ("mult_add", "MULTIPLY_ADD", 3),
  ("pow", "POWER", 2),
  ("log", "LOGARITHM", 2),
  ("sqrt", "SQRT", 1),
  ("inv_sqrt", "INVERSE_SQRT", 1),
  ("abs", "ABSOLUTE", 1),
  ("exp", "EXPONENT", 1),
  ("min", "MINIMUM", 2),
  ("max", "MAXIMUM", 2),
  ("sign", "SIGN", 1),
  ("smooth_min", "SMOOTH_MIN", 3),
  ("smooth_max", "SMOOTH_MAX", 3),
  ("round", "ROUND", 1),
  ("floor", "FLOOR", 1),
  ("ceil", "CEIL", 1),
  ("trunc", "TRUNC", 1),
  ("fract", "FRACT", 1),
  ("mod", "MODULO", 2),
  ("floored_mod", "FLOORED_MODULO", 2),
  ("wrap", "WRAP", 3),
  ("snap", "SNAP", 2),
  ("pingpong", "PINGPONG", 2),
  ("sin", "SINE", 1),
  ("cos", "COSINE", 1),
  ("tan", "TANGENT", 1),
  ("asin", "ARCSINE", 1),
  ("acos", "ARCCOSINE", 1),
  ("atan", "ARCTANGENT", 1),
  ("atan2", "ARCTAN2", 2),
  ("sinh", "SINH", 1),
  ("cosh", "COSH", 1),
  ("tanh", "TANH", 1),
  ("to_rad", "RADIANS", 1),
  ("to_deg", "DEGREES", 1)]

/-- A float function as a math node. -/
def floatFunction (name operation : String) (arity : Nat) : CatalogEntry :=
  (name, {
    inputs := List.replicate arity .float
    outputs := [("value", .float)]
    node := NodeSpec.prop ⟨"ShaderNodeMath", List.range arity, [0], []⟩ "operation" operation })

/-- An input of a vector math node: one of its vectors, or its scale. -/
inductive VectorInput where
  | vector (socket : Nat)
  | scale

/-- The type and socket of an input of a vector math node. -/
def VectorInput.socket : VectorInput → SocketType × Nat
  | vector i => (.vec3, i)
  | scale => (.float, 3)

/-- Functions of vectors that give a vector. -/
def vectorFunctions : List (String × String × List VectorInput) := [
  ("add", "ADD", [.vector 0, .vector 1]),
  ("sub", "SUBTRACT", [.vector 0, .vector 1]),
  ("mul", "MULTIPLY", [.vector 0, .vector 1]),
  ("div", "DIVIDE", [.vector 0, .vector 1]),
  ("mult_add", "MULTIPLY_ADD", [.vector 0, .vector 1, .vector 2]),
  ("cross", "CROSS_PRODUCT", [.vector 0, .vector 1]),
  ("project", "PROJECT", [.vector 0, .vector 1]),
  ("reflect", "REFLECT", [.vector 0, .vector 1]),
  ("refract", "REFRACT", [.vector 0, .vector 1, .scale]),
  ("faceforward", "FACEFORWARD", [.vector 0, .vector 1, .vector 2]),
  ("scale", "SCALE", [.vector 0, .scale]),
  ("normalize", "NORMALIZE", [.vector 0]),
  ("abs", "ABSOLUTE", [.vector 0]),
  ("min", "MINIMUM", [.vector 0, .vector 1]),
  ("max", "MAXIMUM", [.vector 0, .vector 1]),
  ("floor", "FLOOR", [.vector 0]),
  ("ceil", "CEIL", [.vector 0]),
  ("fract", "FRACTION", [.vector 0]),
  ("mod", "MODULO", [.vector 0, .vector 1]),
  ("wrap", "WRAP", [.vector 0, .vector 1, .vector 2]),
  ("snap", "SNAP", [.vector 0, .vector 1]),
  ("sin", "SINE", [.vector 0]),
  ("cos", "COSINE", [.vector 0]),
  ("tan", "TANGENT", [.vector 0])]

/-- Functions of vectors that give a float. -/
def measures : List (String × String × List VectorInput) := [
  ("dot", "DOT_PRODUCT", [.vector 0, .vector 1]),
  ("distance", "DISTANCE", [.vector 0, .vector 1]),
  ("length", "LENGTH", [.vector 0])]

/-- A vector math node with one output. -/
def vectorMath (name operation : String) (inputs : List VectorInput) (output : String × SocketType)
    (socket : Nat) : CatalogEntry :=
  (name, {
    inputs := inputs.map fun i => i.socket.1
    outputs := [output]
    node := NodeSpec.prop ⟨"ShaderNodeVectorMath", inputs.map fun i => i.socket.2, [socket], []⟩
      "operation" operation })

/-- Map range nodes. -/
def mapRanges : List CatalogEntry :=
  let entry (name : String) (inputs : List Nat) (output : String) (type : SocketType) (socket : Nat)
      (data interpolation : String) : CatalogEntry :=
    (name, {
      inputs := inputs.map fun _ => type
      outputs := [(output, type)]
      node := NodeSpec.prop (NodeSpec.prop ⟨"ShaderNodeMapRange", inputs, [socket], []⟩
        "data_type" data) "interpolation_type" interpolation })
  let both (name interpolation : String) : List CatalogEntry :=
    [entry name [0, 1, 2, 3, 4] "result" .float 0 "FLOAT" interpolation,
      entry name [6, 7, 8, 9, 10] "vector" .vec3 1 "FLOAT_VECTOR" interpolation]
  both "map_range" "LINEAR" ++ both "map_range_smooth" "SMOOTHSTEP" ++
    [entry "map_range_stepped" [0, 1, 2, 3, 4, 5] "result" .float 0 "FLOAT" "STEPPED"]

/-- Clamp nodes. -/
def clamps : List CatalogEntry :=
  [("clamp", "MINMAX"), ("clamp_range", "RANGE")].map fun (name, kind) =>
    (name, {
      inputs := [.float, .float, .float]
      outputs := [("result", .float)]
      node := NodeSpec.prop ⟨"ShaderNodeClamp", [0, 1, 2], [0], []⟩ "clamp_type" kind })

/-- Mix nodes. -/
def mixes : List CatalogEntry := [
  ("mix", {
    inputs := [.float, .float, .float]
    outputs := [("result", .float)]
    node := NodeSpec.prop ⟨"ShaderNodeMix", [0, 2, 3], [0], []⟩ "data_type" "FLOAT" }),
  ("mix", {
    inputs := [.float, .vec3, .vec3]
    outputs := [("result", .vec3)]
    node := NodeSpec.prop ⟨"ShaderNodeMix", [0, 4, 5], [1], []⟩ "data_type" "VECTOR" }),
  ("mix", {
    inputs := [.float, .rgba, .rgba]
    outputs := [("result", .rgba)]
    node := NodeSpec.prop (NodeSpec.prop ⟨"ShaderNodeMix", [0, 6, 7], [2], []⟩ "data_type" "RGBA")
      "blend_type" "MIX" })]

/-- Texture nodes. -/
def textures : List CatalogEntry := [
  ("noise", {
    inputs := [.vec3, .float, .float, .float]
    outputs := [("fac", .float), ("color", .rgba)]
    node := NodeSpec.prop ⟨"ShaderNodeTexNoise", [0, 2, 3, 4], [0, 1], []⟩
      "noise_dimensions" "3D" }),
  ("voronoi", {
    inputs := [.vec3, .float]
    outputs := [("distance", .float), ("color", .rgba), ("position", .vec3)]
    node := NodeSpec.prop (NodeSpec.prop (NodeSpec.prop
      ⟨"ShaderNodeTexVoronoi", [0, 2], [0, 1, 2], []⟩ "voronoi_dimensions" "3D") "feature" "F1")
      "distance" "EUCLIDEAN" })]

/-- The node that splits a vector into its components. -/
def separateXYZ : Overload where
  inputs := [.vec3]
  outputs := [("x", .float), ("y", .float), ("z", .float)]
  node := ⟨"ShaderNodeSeparateXYZ", [0], [0, 1, 2], []⟩

/-- The node that makes a vector of its components. -/
def combineXYZ : Overload where
  inputs := [.float, .float, .float]
  outputs := [("vector", .vec3)]
  node := ⟨"ShaderNodeCombineXYZ", [0, 1, 2], [0], []⟩

/-- The functions that every tree has. -/
def shared : List CatalogEntry :=
  (floatFunctions.map fun (name, operation, arity) => floatFunction name operation arity) ++
  (vectorFunctions.map fun (name, operation, inputs) =>
    vectorMath name operation inputs ("vector", .vec3) 0) ++
  (measures.map fun (name, operation, inputs) =>
    vectorMath name operation inputs ("value", .float) 1) ++
  mapRanges ++ clamps ++ mixes ++ textures ++
  [("separate_xyz", separateXYZ), ("combine_xyz", combineXYZ)]

end NodeFormula.Catalog

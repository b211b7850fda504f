import NodeFormula.Catalog.Overload

/-!
# Built-in functions of shader trees
-/

namespace NodeFormula.Catalog

/-- The node that splits a colour in a shader tree. -/
def shaderSeparateColor : Overload where
  inputs := [.rgba]
  outputs := [("r", .float), ("g", .float), ("b", .float)]
  node := NodeSpec.prop ⟨"ShaderNodeSeparateColor", [0], [0, 1, 2], []⟩ "mode" "RGB"

/-- The node that makes a colour in a shader tree. -/
def shaderCombineColor : Overload where
  inputs := [.float, .float, .float]
  outputs := [("color", .rgba)]
  node := NodeSpec.prop ⟨"ShaderNodeCombineColor", [0, 1, 2], [0], []⟩ "mode" "RGB"

/-- A comparison, which is float math in a shader tree. -/
def shaderCompare (name operation : String) (inputs : List Nat) : CatalogEntry :=
  (name, {
    inputs := inputs.map fun _ => .float
    outputs := [("value", .float)]
    node := NodeSpec.prop ⟨"ShaderNodeMath", inputs, [0], []⟩ "operation" operation })

/-- The functions that only shader trees have. -/
def shaderOnly : List CatalogEntry := [
  shaderCompare "less_than" "LESS_THAN" [0, 1],
  shaderCompare "greater_than" "GREATER_THAN" [0, 1],
  shaderCompare "compare" "COMPARE" [0, 1, 2],
  ("separate_color", shaderSeparateColor),
  ("combine_color", shaderCombineColor),
  ("tex_coord", {
    inputs := []
    outputs := [("generated", .vec3), ("normal", .vec3), ("uv", .vec3), ("object", .vec3),
      ("camera", .vec3), ("window", .vec3), ("reflection", .vec3)]
    node := ⟨"ShaderNodeTexCoord", [], [0, 1, 2, 3, 4, 5, 6], []⟩ }),
  ("principled", {
    inputs := [.rgba, .float, .float]
    outputs := [("bsdf", .shader)]
    node := ⟨"ShaderNodeBsdfPrincipled", [0, 1, 2], [0], []⟩ }),
  ("emission", {
    inputs := [.rgba, .float]
    outputs := [("emission", .shader)]
    node := ⟨"ShaderNodeEmission", [0, 1], [0], []⟩ })]

end NodeFormula.Catalog

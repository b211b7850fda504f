import NodeFormula.Component
import NodeFormula.Op

/-!
# Ops for constants and components

The nodes that hold a constant, and the ops that read and replace one component of a value.
-/

namespace NodeFormula

/-- Why typed statements have no ops. -/
inductive LoweringError where
  | noStringInput
  | constantSplit (targets : Nat)
  | cannotSplit (type : SocketType)
  | outputRange (index : Nat)
  | noOutputs
  | argumentRange (given inputs : Nat)
  | noComponents (type : SocketType)
  | cannotCombine (type : SocketType)
deriving DecidableEq, Repr

/-- The words for an error. -/
def LoweringError.message : LoweringError → String
  | noStringInput => "shader trees have no string input node"
  | constantSplit n => s!"a constant cannot be split into {n} targets"
  | cannotSplit t => s!"cannot split a {t.name} value"
  | outputRange i => s!"function output {i} is out of range"
  | noOutputs => "a call without outputs has no type"
  | argumentRange k n => s!"{k} arguments are out of range for {n} inputs"
  | noComponents t => s!"{t.name} values have no components"
  | cannotCombine t => s!"{t.name} values cannot be combined"

namespace TreeKind

/-- The ops of a node that shows a double as its output. -/
def valueInput (name : String) (x : Float) : List Op :=
  [.callBuiltin ⟨"ShaderNodeValue", [], [0], []⟩ [.float], .setOutput 0 (.float x), .renameNode name]

/-- The ops of a node that keeps a constant in a property. -/
def propInput (key prop name : String) (v : Constant) : List Op :=
  [.callBuiltin ⟨key, [], [0], [(prop, v)]⟩ [v.type], .renameNode name]

/-- The ops that push a socket with a constant, from a node labelled `name`. Shader trees hold every
scalar in a value node and have no node for a string. -/
def constantInput (tree : TreeKind) (name : String) (v : Constant) : Except LoweringError (List Op) :=
  match tree, v with
  | shader, .bool b => .ok (valueInput name (if b then 1.0 else 0.0))
  | shader, .int i => .ok (valueInput name (Float.ofInt i.toInt))
  | shader, .float x => .ok (valueInput name x)
  | shader, .vec3 x y z => .ok [.pushValue (some (.float x)), .pushValue (some (.float y)),
      .pushValue (some (.float z)),
      .callBuiltin ⟨"ShaderNodeCombineXYZ", [0, 1, 2], [0], []⟩ [.vec3], .renameNode name]
  | shader, .rgba r g b a => .ok [.callBuiltin ⟨"ShaderNodeRGB", [], [0], []⟩ [.rgba],
      .setOutput 0 (.rgba r g b a), .renameNode name]
  | shader, .str _ => .error .noStringInput
  | geometry, .float x => .ok (valueInput name x)
  | geometry, .int i => .ok (propInput "FunctionNodeInputInt" "integer" name (.int i))
  | geometry, .bool b => .ok (propInput "FunctionNodeInputBool" "boolean" name (.bool b))
  | geometry, .vec3 x y z => .ok (propInput "FunctionNodeInputVector" "vector" name (.vec3 x y z))
  | geometry, .rgba r g b a => .ok (propInput "FunctionNodeInputColor" "value" name (.rgba r g b a))
  | geometry, .str s => .ok (propInput "FunctionNodeInputString" "string" name (.str s))

end TreeKind

/-- The call of an overload's node. -/
def Overload.op (o : Overload) : Op := .callBuiltin o.node o.outputTypes

namespace Component

/-- The ops that push a component of the variable `source`. -/
def readOps (k : Component) (tree : TreeKind) (source : String) : Except LoweringError (List Op) :=
  match tree.separate k.object with
  | some split => .ok [.getVar source, split.op, .getOutput k.index]
  | none => .error (.noComponents k.object)

/-- The ops that bind `target` to the value of `object` with this component replaced by that of
`value`. The variable `object` ends up bound to the parts of its value. -/
def writeOps (k : Component) (tree : TreeKind) (target object value : String) :
    Except LoweringError (List Op) :=
  match tree.separate k.object, tree.combine k.object with
  | none, _ => .error (.noComponents k.object)
  | some _, none => .error (.cannotCombine k.object)
  | some split, some join =>
    let part (i : Nat) : List Op :=
      if i = k.index then [.getVar value] else [.getVar object, .getOutput i]
    .ok ([.getVar object, split.op, .bindVar object] ++
      (List.range join.inputs.length).flatMap part ++ [join.op, .bindVar target])

end Component

end NodeFormula

import NodeFormula.Graph.Machine

/-!
# Building graphs from ops

Running a list of ops builds the tree of a formula. A function's body runs in the same tree with
variables, outputs and a stack of its own. A group's body builds a tree of its own, once. A repeat
zone carries the variables that its body rebinds through items of the zone's nodes.
-/

namespace NodeFormula.Machine

/-! ### Nodes -/

/-- Create the node of a built-in function, feed it, and push its outputs. -/
def callBuiltin (m : Machine) (node : NodeSpec) (types : List SocketType) :
    Except RunError Machine := do
  let (args, m) ← m.popMany node.inputs.length
  let (id, m) := m.addNode node.key
  let m ← m.modifyNode id fun n => { n with props := n.props.insertAll node.props }
  let m ← m.connectAll id (node.inputs.zip args)
  if types.length ≠ node.outputs.length then
    throw (.outputCount node.key node.outputs.length types.length)
  let items := List.zipWith (fun i t => Item.socket ⟨id, i, t⟩) node.outputs types
  return { m.pushOutputs items with newest := some id }

/-- Create the node of a free variable and bind the variable to it. -/
def createVar (m : Machine) (name : String) : Except RunError Machine := do
  let (id, m) := m.addNode "NodeReroute"
  let m ← m.modifyNode id fun n => { n with label := some name }
  return { m.bind name (.socket ⟨id, 0, .float⟩) with newest := some id }

/-! ### Bundles -/

/-- Pop a bundle and push one of its parts. -/
def getOutput (m : Machine) (index : Nat) : Except RunError Machine := do
  let (item, m) ← m.pop
  match item with
  | .bundle items =>
    match items[index]? with
    | some part => return m.push part
    | none => throw (.partRange index items.length)
  | item => throw (.noBundle item)

/-- Pop a bundle and push its parts in order. -/
def splitBundle (m : Machine) : Except RunError Machine := do
  let (item, m) ← m.pop
  match item with
  | .bundle items => return { m with stack := items.reverse ++ m.stack }
  | item => throw (.noBundleToSplit item)

/-- Pop into an output of the running definition. -/
def setFunctionOut (m : Machine) (index : Nat) : Except RunError Machine := do
  let (item, m) ← m.pop
  if index < m.outputs.length then return { m with outputs := m.outputs.set index item }
  else throw (.outputRange index)

/-! ### Calls -/

/-- Run a function's body with its inputs bound to the arguments, then go on as the caller. -/
def callFunction (m : Machine) (inputs : List String) (outputs : Nat)
    (body : Machine → Except RunError Machine) : Except RunError Machine := do
  let (args, m) ← m.popMany inputs.length
  let inner ← body { m with
    stack := []
    env := Table.ofList (inputs.zip args)
    outputs := List.replicate outputs .empty }
  let back := { inner with stack := m.stack, env := m.env, outputs := m.outputs }
  return back.pushOutputs inner.outputs

/-- The empty tree of a group, with its input and output nodes. -/
def groupTree (name : String) (kind : TreeKind) (inputs outputs : List TypedParam) : NodeTree :=
  let tree : NodeTree := {
    name, kind
    inputs := inputs.map fun p => ⟨p.name, p.type, p.default⟩
    outputs := outputs.map fun p => ⟨p.name, p.type, none⟩ }
  (tree.addNode "NodeGroupInput").addNode "NodeGroupOutput"

/-- Build the tree of a group from its body and add it to the finished groups. Node `0` of the tree
gives the group's inputs and node `1` takes its outputs. -/
def buildGroup (m : Machine) (name : String) (inputs outputs : List TypedParam)
    (body : Machine → Except RunError Machine) : Except RunError Machine := do
  let env := Table.ofList
    (inputs.mapIdx fun i p => (p.name, Item.socket ⟨0, i, p.type⟩))
  let inner ← body {
    tree := groupTree name m.tree.kind inputs outputs
    groups := m.groups
    env
    outputs := List.replicate outputs.length .empty }
  let inner ← inner.connectAll 1 (inner.outputs.mapIdx fun i item => (i, item))
  return { m with groups := inner.groups ++ [inner.tree] }

/-- Create a node of a group, which is built first if there is none of its name. -/
def callGroup (m : Machine) (name : String) (inputs outputs : List TypedParam)
    (body : Machine → Except RunError Machine) : Except RunError Machine := do
  let (args, m) ← m.popMany inputs.length
  let m ← if m.groups.any (·.name == name) then pure m else m.buildGroup name inputs outputs body
  let (id, m) := m.addNode m.tree.kind.groupKey
  let m ← m.modifyNode id fun n => { n with group := some name }
  let m ← m.connectAll id (args.mapIdx fun i item => (i, item))
  let items := outputs.mapIdx fun i p => Item.socket ⟨id, i, p.type⟩
  return { m.pushOutputs items with newest := some id }

/-! ### Repeat zones -/

mutual

/-- The variables that an op binds in its own scope, after those in `seen`. -/
def boundNames (seen : List String) : Op → List String
  | .bindVar n => if n.toList.contains '#' || seen.contains n then seen else seen ++ [n]
  | .zone body => boundNamesAll seen body
  | _ => seen

/-- The variables that ops bind in their own scope, first bound first, after those in `seen`. Bodies
of zones count, bodies of definitions have a scope of their own, and temporary variables are left
out. -/
def boundNamesAll (seen : List String) : List Op → List String
  | [] => seen
  | op :: rest => boundNamesAll (boundNames seen op) rest

end

/-- The items of a zone: the variables that its body rebinds and that hold a single value. -/
def carried (m : Machine) (body : List Op) : List RepeatItem :=
  (boundNamesAll [] body).filterMap fun n =>
    ((m.env.get? n).bind Item.type?).map fun t => ⟨n, t⟩

/-- Connect the variables of a zone's items to the sockets of a node, from socket `index` on, and bind
them to output sockets with the same numbers: of the zone's input node when it is entered, and of its
output node when it is left. -/
def threadItems (m : Machine) (node : NodeId) : Nat → List RepeatItem → Except RunError Machine
  | _, [] => .ok m
  | index, item :: rest => do
    let current ← m.get item.name
    let m ← m.connect node index current
    let m := m.bind item.name (.socket ⟨node, index, item.type⟩)
    m.threadItems node (index + 1) rest

/-- Pop the count of a zone, create its two nodes, and run its body between them. The count feeds
socket `0` of the input node, so the items start at socket `1` there. -/
def zone (m : Machine) (ops : List Op) (body : Machine → Except RunError Machine) :
    Except RunError Machine := do
  let (count, m) ← m.pop
  let (first, m) := m.addNode "GeometryNodeRepeatInput"
  let (last, m) := m.addNode "GeometryNodeRepeatOutput"
  let m ← m.modifyNode first fun n => { n with pairedWith := some last }
  let m ← m.connect first 0 count
  let items := m.carried ops
  let m ← m.modifyNode first fun n => { n with repeatItems := items }
  let m ← m.modifyNode last fun n => { n with repeatItems := items }
  let m ← m.threadItems first 1 items
  let inner ← body { m with stack := [] }
  let m ← ({ inner with stack := m.stack }).threadItems last 0 items
  return { m with newest := some last }

/-! ### Running -/

mutual

/-- Run an op. -/
def runOp : Op → Machine → Except RunError Machine
  | .pushValue (some v), m => .ok (m.push (.constant v))
  | .pushValue none, m => .ok (m.push .empty)
  | .createVar n, m => m.createVar n
  | .getVar n, m => do
    let item ← m.get n
    return m.push item
  | .bindVar n, m => do
    let (item, m) ← m.pop
    return m.bind n item
  | .destroyVar n, m => .ok { m with env := m.env.erase n }
  | .getOutput i, m => m.getOutput i
  | .setOutput i v, m => m.modifyNewest fun n => { n with outputs := n.outputs.insert i v }
  | .setFunctionOut i, m => m.setFunctionOut i
  | .splitStruct, m => m.splitBundle
  | .pop, m => do
    let (_, m) ← m.pop
    return m
  | .callBuiltin node types, m => m.callBuiltin node types
  | .callFunction _ inputs outputs body, m => m.callFunction inputs outputs (runOps body)
  | .callGroup name inputs outputs body, m => m.callGroup name inputs outputs (runOps body)
  | .renameNode n, m => m.modifyNewest fun node => { node with label := some n }
  | .zone body, m => m.zone body (runOps body)
  | .endOfStatement, m => .ok { m with stack := [] }

/-- Run ops in order. -/
def runOps : List Op → Machine → Except RunError Machine
  | [], m => .ok m
  | op :: rest, m => do
    let m ← runOp op m
    runOps rest m

end

/-- Ops run one list after the other: a run of both is a run of the first and, if that succeeds, a
run of the second from where the first has ended. -/
theorem runOps_append (a b : List Op) (m : Machine) :
    runOps (a ++ b) m = runOps a m >>= runOps b := by
  induction a generalizing m with
  | nil =>
    rw [List.nil_append, runOps]
    rfl
  | cons op rest ih =>
    simp only [List.cons_append, runOps]
    cases h : runOp op m with
    | error e => rfl
    | ok m' => exact ih m'

end NodeFormula.Machine

namespace NodeFormula

/-- The graph that ops build, in a tree of the given kind and name. -/
def NodeGraph.ofOps (kind : TreeKind) (name : String) (ops : List Op) :
    Except RunError NodeGraph := do
  let m ← Machine.runOps ops { tree := { name, kind } }
  return ⟨m.tree, m.groups⟩

end NodeFormula

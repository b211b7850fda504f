import NodeFormula.Graph
import NodeFormula.Op

/-!
# The machine that runs ops

The machine holds the tree that is being built, the groups that are finished, a stack, the variables,
the outputs of the definition that is running, and the newest node.
-/

namespace NodeFormula

/-- An output socket of a node, with its type. -/
structure Socket where
  node : NodeId
  index : Nat
  type : SocketType
deriving DecidableEq, Repr

/-- What lies on the stack or in a variable. -/
inductive Item where
  /-- Nothing: an input socket stays as it is. -/
  | empty
  | constant (value : Constant)
  | socket (socket : Socket)
  /-- Several items, such as the outputs of one node. -/
  | bundle (items : List Item)

namespace Item

/-- The type of a single item. -/
def type? : Item → Option SocketType
  | constant v => some v.type
  | socket s => some s.type
  | empty => none
  | bundle _ => none

/-- The item for the outputs of a call: none, the only one, or a bundle. -/
def ofOutputs : List Item → Option Item
  | [] => none
  | [item] => some item
  | items => some (bundle items)

mutual

/-- The text of an item in messages. -/
def describe : Item → String
  | empty => "Empty"
  | constant v => "Value(" ++ v.describe ++ ")"
  | socket s =>
    s!"Socket(SocketRef \x7b node: NodeId({s.node}), index: {s.index}, dtype: {s.type.title} \x7d)"
  | bundle items => "Struct([" ++ ", ".intercalate (describeAll items) ++ "])"

/-- The texts of items. -/
def describeAll : List Item → List String
  | [] => []
  | item :: rest => describe item :: describeAll rest

end

end Item

/-- Why ops cannot be run. -/
inductive RunError where
  | emptyStack
  | fewArguments (needed found : Nat)
  | unknownVariable (name : String)
  | noBundle (found : Item)
  | partRange (index parts : Nat)
  | noBundleToSplit (found : Item)
  | outputRange (index : Nat)
  | bundleToSocket
  | noNode
  | nodeRange (id : NodeId)
  | outputCount (key : String) (exposed typed : Nat)

/-- The words for an error. -/
def RunError.message : RunError → String
  | emptyStack => "stack underflow"
  | fewArguments n k => s!"stack underflow: needed {n} arguments, found {k}"
  | unknownVariable n => s!"unknown variable `{n}`"
  | noBundle item => "expected a struct, found " ++ item.describe
  | partRange i n => s!"output {i} is out of range for a struct of {n}"
  | noBundleToSplit item => "expected a struct to split, found " ++ item.describe
  | outputRange i => s!"function output {i} is out of range"
  | bundleToSocket => "a struct cannot be connected to a single socket"
  | noNode => "no node has been added yet"
  | nodeRange id => s!"node {id} is out of range"
  | outputCount key n k => s!"`{key}` exposes {n} outputs but {k} were typed"

/-- The state of a run. -/
structure Machine where
  tree : NodeTree
  groups : List NodeTree := []
  /-- The stack, its top first. -/
  stack : List Item := []
  /-- What the variables are bound to. -/
  env : Table String Item := ∅
  /-- The outputs of the running definition. -/
  outputs : List Item := []
  newest : Option NodeId := none

namespace Machine

/-- Push an item. -/
def push (m : Machine) (item : Item) : Machine := { m with stack := item :: m.stack }

/-- Push the outputs of a call. -/
def pushOutputs (m : Machine) (items : List Item) : Machine :=
  match Item.ofOutputs items with
  | none => m
  | some item => m.push item

/-- Pop an item. -/
def pop (m : Machine) : Except RunError (Item × Machine) :=
  match m.stack with
  | [] => .error .emptyStack
  | item :: rest => .ok (item, { m with stack := rest })

/-- Pop a number of items, the last of which is the top of the stack. -/
def popMany (m : Machine) (n : Nat) : Except RunError (List Item × Machine) :=
  if m.stack.length < n then .error (.fewArguments n m.stack.length)
  else .ok ((m.stack.take n).reverse, { m with stack := m.stack.drop n })

/-- Bind a variable. -/
def bind (m : Machine) (name : String) (item : Item) : Machine :=
  { m with env := m.env.insert name item }

/-- What a variable is bound to. -/
def get (m : Machine) (name : String) : Except RunError Item :=
  match m.env.get? name with
  | some item => .ok item
  | none => .error (.unknownVariable name)

/-- Change one node of the tree. -/
def modifyNode (m : Machine) (id : NodeId) (f : Node → Node) : Except RunError Machine :=
  if id < m.tree.nodes.size then .ok { m with tree := m.tree.modifyNode id f }
  else .error (.nodeRange id)

/-- Change the newest node. -/
def modifyNewest (m : Machine) (f : Node → Node) : Except RunError Machine :=
  match m.newest with
  | some id => m.modifyNode id f
  | none => .error .noNode

/-- Add a node and give its number. -/
def addNode (m : Machine) (key : String) : NodeId × Machine :=
  (m.tree.nextId, { m with tree := m.tree.addNode key })

/-- Feed an input socket: set its value, link it, or leave it. -/
def connect (m : Machine) (node : NodeId) (input : Nat) (item : Item) : Except RunError Machine :=
  match item with
  | .empty => .ok m
  | .constant v => m.modifyNode node fun n => { n with inputs := n.inputs.insert input v }
  | .socket s => .ok { m with tree := m.tree.link ⟨s.node, s.index, node, input⟩ }
  | .bundle _ => .error .bundleToSocket

/-- Feed input sockets with items, each socket with the item beside it. -/
def connectAll (m : Machine) (node : NodeId) : List (Nat × Item) → Except RunError Machine
  | [] => .ok m
  | (input, item) :: rest => do
    let m ← m.connect node input item
    m.connectAll node rest

end Machine

end NodeFormula

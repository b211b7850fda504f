import NodeFormula.Catalog
import NodeFormula.Table

/-!
# Node graphs

A node tree has nodes, numbered from zero in the order they were added, and links between their
sockets. A graph is the tree of a formula together with the trees of the node groups it uses.
-/

namespace NodeFormula

/-- The number of a node in its tree. -/
abbrev NodeId := Nat

/-- An item that a repeat zone carries from one round to the next. -/
structure RepeatItem where
  name : String
  type : SocketType
deriving DecidableEq

/-- A node of a tree. -/
structure Node where
  id : NodeId
  key : String
  label : Option String := none
  props : Table String Constant := ∅
  /-- Values of input sockets without a link. -/
  inputs : Table Nat Constant := ∅
  /-- Values of output sockets. -/
  outputs : Table Nat Constant := ∅
  /-- The group that a group node stands for. -/
  group : Option String := none
  /-- The output node of the zone that starts at this node. -/
  pairedWith : Option NodeId := none
  repeatItems : List RepeatItem := []
  x : Float := 0.0
  y : Float := 0.0
deriving DecidableEq

/-- The text shown for a node. -/
def Node.title (n : Node) : String := (n.label.or n.group).getD n.key

/-- A link from an output socket to an input socket. -/
structure Link where
  fromNode : NodeId
  fromSocket : Nat
  toNode : NodeId
  toSocket : Nat
deriving DecidableEq, Repr

/-- Whether a link enters a given input socket. -/
def Link.enters (l : Link) (node : NodeId) (socket : Nat) : Bool :=
  l.toNode == node && l.toSocket == socket

/-- A socket of a group's interface. -/
structure InterfaceSocket where
  name : String
  type : SocketType
  default : Option Constant
deriving DecidableEq

/-- A tree of nodes. -/
structure NodeTree where
  name : String
  kind : TreeKind
  inputs : List InterfaceSocket := []
  outputs : List InterfaceSocket := []
  nodes : Array Node := #[]
  links : Array Link := #[]
deriving DecidableEq

namespace NodeTree

/-- Add a node at the end. Its number is the number of nodes before it. -/
def addNode (t : NodeTree) (key : String) : NodeTree :=
  { t with nodes := t.nodes.push { id := t.nodes.size, key } }

/-- The number of the next node. -/
def nextId (t : NodeTree) : NodeId := t.nodes.size

/-- Change one node. -/
def modifyNode (t : NodeTree) (id : NodeId) (f : Node → Node) : NodeTree :=
  { t with nodes := t.nodes.modify id f }

/-- Link two sockets. A link that entered the same input socket before is removed. -/
def link (t : NodeTree) (l : Link) : NodeTree :=
  { t with links := (t.links.filter fun k => !k.enters l.toNode l.toSocket).push l }

@[simp] theorem size_nodes_addNode (t : NodeTree) (key : String) :
    (t.addNode key).nodes.size = t.nodes.size + 1 := by
  simp [addNode]

@[simp] theorem size_nodes_modifyNode (t : NodeTree) (id : NodeId) (f : Node → Node) :
    (t.modifyNode id f).nodes.size = t.nodes.size := by
  simp [modifyNode]

/-- The links that enter a node. -/
def incoming (t : NodeTree) (id : NodeId) : List Link := t.links.toList.filter (·.toNode == id)

end NodeTree

/-- The tree of a formula, and the trees of the groups it uses, in the order they were finished. -/
structure NodeGraph where
  tree : NodeTree
  groups : List NodeTree := []
deriving DecidableEq

/-- All trees of a graph, that of the formula first. -/
def NodeGraph.trees (g : NodeGraph) : List NodeTree := g.tree :: g.groups

end NodeFormula

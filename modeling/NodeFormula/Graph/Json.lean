import NodeFormula.Graph
import NodeFormula.Json

/-!
# Graphs as JSON

Fields that are absent or empty are left out, except the nodes and links of a tree. Tables are objects
with their keys in order.
-/

namespace NodeFormula

/-- A constant without its type. -/
def Constant.toJson : Constant → Json
  | bool b => .bool b
  | int i => .int i.toInt
  | float x => .float x
  | vec3 x y z => .arr [.float x, .float y, .float z]
  | rgba r g b a => .arr [.float r, .float g, .float b, .float a]
  | str s => .str s

namespace NodeGraph

/-- A field that may be absent. -/
def optionalField {α : Type} (key : String) (encode : α → Json) : Option α → List (String × Json)
  | some a => [(key, encode a)]
  | none => []

/-- A field with a list that may be empty. -/
def listField {α : Type} (key : String) (encode : α → Json) (items : List α) :
    List (String × Json) :=
  if items.isEmpty then [] else [(key, .arr (items.map encode))]

/-- A field with a table of constants that may be empty. -/
def tableField {κ : Type} [Ord κ] (key : String) (name : κ → String) (t : Table κ Constant) :
    List (String × Json) :=
  if t.isEmpty then [] else [(key, .obj (t.entries.map fun e => (name e.1, e.2.toJson)))]

/-- An item of a repeat zone. -/
def itemJson (i : RepeatItem) : Json :=
  .obj [("name", .str i.name), ("dtype", .str i.type.tag), ("socket_type", .str i.type.itemClass)]

/-- A node. -/
def nodeJson (n : Node) : Json :=
  .obj ([("id", .int n.id), ("key", .str n.key)] ++
    optionalField "label" .str n.label ++
    tableField "props" (fun k => k) n.props ++
    tableField "inputs" (fun i => toString i) n.inputs ++
    tableField "outputs" (fun i => toString i) n.outputs ++
    optionalField "group" .str n.group ++
    optionalField "paired_with" (fun id : NodeId => .int id) n.pairedWith ++
    listField "repeat_items" itemJson n.repeatItems ++
    [("location", .arr [.float n.x, .float n.y])])

/-- A link. -/
def linkJson (l : Link) : Json :=
  .obj [("from_node", .int l.fromNode), ("from_socket", .int l.fromSocket),
    ("to_node", .int l.toNode), ("to_socket", .int l.toSocket)]

/-- A socket of a group's interface. -/
def socketJson (s : InterfaceSocket) : Json :=
  .obj ([("name", .str s.name), ("dtype", .str s.type.tag),
    ("socket_type", .str s.type.socketClass)] ++
    optionalField "default" Constant.toJson s.default)

/-- A tree. -/
def treeJson (t : NodeTree) : Json :=
  .obj ([("name", .str t.name), ("tree_type", .str t.kind.treeClass)] ++
    listField "inputs" socketJson t.inputs ++
    listField "outputs" socketJson t.outputs ++
    [("nodes", .arr (t.nodes.toList.map nodeJson)), ("links", .arr (t.links.toList.map linkJson))])

/-- A graph. -/
def toJson (g : NodeGraph) : Json :=
  .obj (("tree", treeJson g.tree) :: listField "groups" treeJson g.groups)

end NodeGraph

end NodeFormula

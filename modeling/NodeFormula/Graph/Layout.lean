import NodeFormula.Graph

/-!
# Layout

Nodes are placed on a grid: the column follows the links, and the row the order in which the nodes of a
column were added.
-/

namespace NodeFormula

namespace Layout

/-- The width of a column. -/
def columnWidth : Float := 200.0

/-- The height of a row. -/
def rowHeight : Float := 150.0

/-- Move the target of a link to the right of its source. -/
def relax (columns : Array Nat) (l : Link) : Array Nat :=
  let depth := columns.getD l.fromNode 0 + 1
  if columns.getD l.toNode 0 < depth then columns.setIfInBounds l.toNode depth else columns

/-- Relax every link once, in order. -/
def pass (links : Array Link) (columns : Array Nat) : Array Nat := links.foldl relax columns

/-- Repeat passes until one changes nothing, at most the given number of times. -/
def settle (links : Array Link) : Nat → Array Nat → Array Nat
  | 0, columns => columns
  | n + 1, columns =>
    let next := pass links columns
    if next = columns then columns else settle links n next

/-- The column of each node: the length of the longest path of links that ends there. A path without
a cycle visits each node once at most, so as many passes as there are nodes are enough. -/
def columns (t : NodeTree) : Array Nat :=
  settle t.links t.nodes.size (Array.replicate t.nodes.size 0)

/-- The row of each node, given the columns of the nodes in order and the number of rows that each
column has so far. -/
def rows (filled : Table Nat Nat) : List Nat → List Nat
  | [] => []
  | c :: rest =>
    let row := (filled.get? c).getD 0
    row :: rows (filled.insert c (row + 1)) rest

/-- Put a node into a cell of the grid. -/
def place (n : Node) (column row : Nat) : Node :=
  { n with x := Float.ofNat column * columnWidth, y := -(Float.ofNat row) * rowHeight }

/-- Place every node of a tree. -/
def tree (t : NodeTree) : NodeTree :=
  let cols := (columns t).toList
  let cells := cols.zip (rows ∅ cols)
  { t with nodes := (List.zipWith (fun n c => place n c.1 c.2) t.nodes.toList cells).toArray }

/-- Place every node of every tree. -/
def graph (g : NodeGraph) : NodeGraph := ⟨tree g.tree, g.groups.map tree⟩

end Layout

end NodeFormula

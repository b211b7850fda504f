import NodeFormula.Graph
import NodeFormula.Number.Style

/-!
# Graphs as tables of comma-separated values

One record for each node of each tree, after a header. A graph without nodes gives no text at all. How
a coordinate is printed is a parameter of the table.
-/

namespace NodeFormula

namespace Csv

/-- Whether a character makes quotes necessary. -/
def special (c : Char) : Bool := c == ',' || c == '"' || c == '\r' || c == '\n'

/-- A field, in quotes if it holds a special character. Quotes in it are doubled. -/
def field (s : String) : String :=
  if s.toList.any special then
    String.ofList ('"' :: (s.toList.flatMap fun c => if c = '"' then ['"', '"'] else [c]) ++ ['"'])
  else s

/-- Doubles in a table: plain from `0.00001` up to `1e16`, a half to the even digit, and words for what
is no number. -/
def floatStyle : FloatStyle where
  plainFrom := -5
  plainTo := 16
  plus := false
  tie := .even
  infinity := "inf"
  minusInfinity := "-inf"
  notANumber := "NaN"

/-- A record. -/
def record (fields : List String) : String := ",".intercalate (fields.map field) ++ "\n"

end Csv

namespace NodeGraph

/-- The header of the table of nodes. -/
def csvHeader : List String := ["tree", "id", "key", "label", "x", "y", "linked_inputs"]

/-- The record of a node, with its place as `print` writes it. -/
def csvFields (print : Float → String) (t : NodeTree) (n : Node) : List String :=
  [t.name, toString n.id, n.key, n.label.getD "", print n.x, print n.y,
    toString (t.incoming n.id).length]

/-- The records of all nodes, those of the formula's tree first. -/
def csvRows (g : NodeGraph) (print : Float → String) : List (List String) :=
  g.trees.flatMap fun t => t.nodes.toList.map (csvFields print t)

/-- The table of nodes. -/
def toCsv (g : NodeGraph) (print : Float → String := Csv.floatStyle.write) : String :=
  let rows := g.csvRows print
  if rows.isEmpty then "" else String.join ((csvHeader :: rows).map Csv.record)

end NodeGraph

end NodeFormula

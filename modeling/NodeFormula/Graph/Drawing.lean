import NodeFormula.Graph

/-!
# Limits of diagrams

What keeps a tree from being drawn as an image of a given size.
-/

namespace NodeFormula

/-- Why a tree cannot be drawn. -/
inductive DrawingError where
  | noNodes (tree : String)
  | emptyImage (width height : Nat)
  | largeImage (width height : Nat)
deriving DecidableEq, Repr

namespace Drawing

/-- The most pixels that an image may have. -/
def maxPixels : Nat := 64 * 1024 * 1024

/-- The words for an error. -/
def message : DrawingError → String
  | .noNodes t => s!"Cannot draw tree `{t}` with no nodes"
  | .emptyImage w h => s!"Image size {w}x{h} is empty"
  | .largeImage w h => s!"Image size {w}x{h} exceeds the limit of {maxPixels} pixels"

/-- What keeps a tree from being drawn at a given size. -/
def obstacle? (t : NodeTree) (width height : Nat) : Option DrawingError :=
  if t.nodes.isEmpty then some (.noNodes t.name)
  else if width = 0 ∨ height = 0 then some (.emptyImage width height)
  else if maxPixels < width * height then some (.largeImage width height)
  else none

end Drawing

end NodeFormula

import NodeFormula.Catalog

/-!
# Components of vectors and colours

`v.x` and `c.r` name a float component of a vector or colour. Components are numbered like the outputs
of the node that splits the value.
-/

namespace NodeFormula

/-- One component of the values of a type. -/
structure Component where
  object : SocketType
  index : Nat
deriving DecidableEq, Repr

namespace Component

/-- The component with a given name in a tree of a given kind. -/
def lookup? (tree : TreeKind) (type : SocketType) (name : String) : Option Component := do
  let split ← tree.separate type
  let index ← split.outputNames.findIdx? (· = name)
  return ⟨type, index⟩

/-- The type of every component. -/
def type : SocketType := .float

/-- The component of a constant. -/
def fold? (k : Component) (v : Constant) : Option Constant :=
  v.components[k.index]?.map .float

end Component

end NodeFormula

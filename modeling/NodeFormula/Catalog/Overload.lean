import NodeFormula.Constant

/-!
# Nodes and overloads

A built-in function stands for a node. An overload says which types the function takes and gives, and
which sockets of the node its arguments feed and its outputs come from.
-/

namespace NodeFormula

/-- A node to be created: its key, the input sockets that arguments feed in order, the output sockets
that are exposed in order, and the properties that are set. -/
structure NodeSpec where
  key : String
  inputs : List Nat
  outputs : List Nat
  props : List (String × Constant) := []
deriving DecidableEq

/-- The same node with one more property. -/
def NodeSpec.prop (n : NodeSpec) (name value : String) : NodeSpec :=
  { n with props := n.props ++ [(name, .str value)] }

/-- One signature of a built-in function. -/
structure Overload where
  inputs : List SocketType
  outputs : List (String × SocketType)
  node : NodeSpec
deriving DecidableEq

namespace Overload

/-- The types of the outputs. -/
def outputTypes (o : Overload) : List SocketType := o.outputs.map (·.2)

/-- The names of the outputs. -/
def outputNames (o : Overload) : List String := o.outputs.map (·.1)

/-- What it costs to pass arguments of the given types, one for each of the first inputs. -/
def argumentsCost : (args params : List SocketType) → Option Nat
  | [], _ => some 0
  | _ :: _, [] => none
  | a :: args, p :: params => do
    let first ← a.conversionCost p
    let rest ← argumentsCost args params
    return first + rest

/-- What it costs to call the overload. Inputs without an argument keep the node's default; more
arguments than inputs are not allowed. -/
def cost (o : Overload) (args : List SocketType) : Option Nat := argumentsCost args o.inputs

/-- The cheaper of a chosen overload and those of a list, the earlier of two that cost the same. -/
def cheapest (args : List SocketType) (best : Option (Nat × Overload)) :
    List Overload → Option (Nat × Overload)
  | [] => best
  | o :: rest =>
    match o.cost args, best with
    | none, _ => cheapest args best rest
    | some n, none => cheapest args (some (n, o)) rest
    | some n, some (m, b) => cheapest args (if n < m then some (n, o) else some (m, b)) rest

/-- The overload that takes arguments of the given types at the least cost, the first on a tie. -/
def select (overloads : List Overload) (args : List SocketType) : Option Overload :=
  (cheapest args none overloads).map (·.2)

end Overload

/-- A built-in function's name with one of its overloads. -/
abbrev CatalogEntry := String × Overload

end NodeFormula

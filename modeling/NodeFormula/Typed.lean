import NodeFormula.Component
import NodeFormula.Formula
import NodeFormula.Op

/-!
# Typed formulas

Formulas after type checking: every expression has its types, calls name the node or the definition
they resolve to, loops are unrolled and constants are folded.
-/

namespace NodeFormula

/-- How the value of an expression lies on the stack. -/
inductive Shape where
  /-- one socket or constant -/
  | single
  /-- several named outputs -/
  | bundle
deriving DecidableEq, Repr

/-- The shape of a call with a given number of outputs. -/
def Shape.ofOutputs (n : Nat) : Shape := if 1 < n then .bundle else .single

/-- What is known of an expression: the type and the name of each output, its shape and its place. -/
structure Typing where
  types : List SocketType
  names : List String
  shape : Shape
  span : Span
deriving DecidableEq, Repr

/-- The typing of a single unnamed value. -/
def Typing.value (type : SocketType) (span : Span) : Typing := ⟨[type], [""], .single, span⟩

/-- What a typed assignment assigns to. -/
inductive TypedTarget where
  | var (name : String)
  /-- an output of the enclosing definition -/
  | output (index : Nat)
  | ignore
deriving DecidableEq, Repr

mutual

/-- An expression with its typing. -/
inductive TypedExpr where
  | constant (value : Constant) (typing : Typing)
  /-- A variable. A fresh one is a free variable at its first use. -/
  | var (name : String) (fresh : Bool) (typing : Typing)
  | node (node : NodeSpec) (args : List TypedExpr) (typing : Typing)
  | call (function : TypedFunction) (args : List TypedExpr) (typing : Typing)
  /-- One output of a bundle. -/
  | output (value : TypedExpr) (index : Nat) (typing : Typing)
  /-- One component of a vector or colour. -/
  | component (object : TypedExpr) (part : Component) (typing : Typing)

/-- A definition with its checked body. -/
structure TypedFunction where
  name : String
  kind : DefKind
  inputs : List TypedParam
  outputs : List TypedParam
  body : List TypedStmt

/-- A typed statement. -/
inductive TypedStmt where
  | expr (value : TypedExpr)
  | assign (targets : List TypedTarget) (value : TypedExpr)
  /-- `target.part = value`, where `object` reads `target`. -/
  | setField (target : String) (object : TypedExpr) (part : Component) (value : TypedExpr)
  | zone (count : TypedExpr) (body : List TypedStmt)

end

namespace TypedExpr

/-- The typing of an expression. -/
def typing : TypedExpr → Typing
  | constant _ t => t
  | var _ _ t => t
  | node _ _ t => t
  | call _ _ t => t
  | output _ _ t => t
  | component _ _ t => t

/-- The types of the outputs. -/
def types (e : TypedExpr) : List SocketType := e.typing.types

/-- The place of an expression. -/
def span (e : TypedExpr) : Span := e.typing.span

/-- The shape of an expression. -/
def shape (e : TypedExpr) : Shape := e.typing.shape

/-- A constant with the typing of its value. -/
def ofConstant (v : Constant) (span : Span) : TypedExpr := .constant v (.value v.type span)

/-- The value of an expression that is a constant. -/
def constant? : TypedExpr → Option Constant
  | constant v _ => some v
  | _ => none

/-- A constant as its converted value where it can be converted, and any other expression as it is. -/
def convertTo (e : TypedExpr) (type : SocketType) : TypedExpr :=
  match e.constant?.bind (·.convert? type) with
  | some v => ofConstant v e.span
  | none => e

end TypedExpr

end NodeFormula

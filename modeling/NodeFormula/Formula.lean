import NodeFormula.Formula.Operator
import NodeFormula.Socket
import NodeFormula.Source.Span

/-!
# Formulas

The syntax of formulas: expressions, statements and definitions, each with its place in the source.
-/

namespace NodeFormula

/-- An expression. -/
inductive Expr where
  | int (value : Int64) (span : Span)
  | float (value : Float) (span : Span)
  | bool (value : Bool) (span : Span)
  | str (value : String) (span : Span)
  | name (name : String) (span : Span)
  /-- `{x, y, z}` or `{r, g, b, a}` -/
  | vector (items : List Expr) (span : Span)
  | unary (op : UnaryOp) (operand : Expr) (span : Span)
  | binary (op : BinaryOp) (left right : Expr) (span : Span)
  | call (function : String) (args : List Expr) (span : Span)
  /-- `value.name`: an output of a node or a component of a vector -/
  | member (value : Expr) (name : String) (span : Span)

namespace Expr

/-- The place of an expression. -/
def span : Expr → Span
  | int _ s => s
  | float _ s => s
  | bool _ s => s
  | str _ s => s
  | name _ s => s
  | vector _ s => s
  | unary _ _ s => s
  | binary _ _ _ s => s
  | call _ _ s => s
  | member _ _ s => s

/-- The same expression at another place, such as that of the parentheses around it. -/
def withSpan (e : Expr) (s : Span) : Expr :=
  match e with
  | int v _ => int v s
  | float v _ => float v s
  | bool v _ => bool v s
  | str v _ => str v s
  | name n _ => name n s
  | vector es _ => vector es s
  | unary op e _ => unary op e s
  | binary op l r _ => binary op l r s
  | call f es _ => call f es s
  | member e n _ => member e n s

@[simp] theorem span_withSpan (e : Expr) (s : Span) : (e.withSpan s).span = s := by
  cases e <;> rfl

/-- Two operands joined by an operator, at the span that covers both. -/
def join (op : BinaryOp) (left right : Expr) : Expr :=
  binary op left right (left.span.join right.span)

end Expr

/-- What an assignment assigns to. -/
inductive Target where
  | name (name : String) (span : Span)
  /-- `_` -/
  | ignore (span : Span)
deriving DecidableEq, Repr

/-- The place of a target. -/
def Target.span : Target → Span
  | name _ s => s
  | ignore s => s

/-- `name: type [= default]` -/
structure Param where
  name : String
  type : SocketType
  default : Option Expr
  span : Span

/-- What a definition becomes where it is called. -/
inductive DefKind where
  /-- `fn`: its body, in place of the call -/
  | function
  /-- `ng`: a node group -/
  | group
deriving DecidableEq, Repr

/-- What a definition says before its body. -/
structure Header where
  kind : DefKind
  name : String
  inputs : List Param
  outputs : List Param

/-- A statement. -/
inductive Stmt where
  | expr (value : Expr) (span : Span)
  /-- `a = e;` or `a, _, c = e;` -/
  | assign (targets : List Target) (value : Expr) (span : Span)
  /-- `v.x = e;` -/
  | setField (target field : String) (value : Expr) (span : Span)
  /-- `loop i = 0 -> 3 { ... }`, both bounds included -/
  | loop (counter : Option String) (first last : Int64) (body : List Stmt) (span : Span)
  /-- `repeat n { ... }` -/
  | zone (count : Expr) (body : List Stmt) (span : Span)
  | define (header : Header) (body : List Stmt) (span : Span)

/-- The place of a statement. -/
def Stmt.span : Stmt → Span
  | expr _ s => s
  | assign _ _ s => s
  | setField _ _ _ s => s
  | loop _ _ _ _ s => s
  | zone _ _ s => s
  | define _ _ s => s

/-- A parsed source. -/
structure Program where
  items : List Stmt

end NodeFormula

/-!
# Operators of formulas
-/

namespace NodeFormula

/-- An operator before its operand. -/
inductive UnaryOp where
  | neg
  | not
deriving DecidableEq, Repr

/-- An operator between two operands. -/
inductive BinaryOp where
  | add
  | sub
  | mul
  | div
  | mod
  | pow
  | lt
  | le
  | gt
  | ge
  | eq
  | ne
  | and
  | or
deriving DecidableEq, Repr

/-- How the operator is written. -/
def UnaryOp.symbol : UnaryOp → String
  | neg => "-"
  | not => "not"

namespace BinaryOp

/-- How the operator is written. -/
def symbol : BinaryOp → String
  | add => "+"
  | sub => "-"
  | mul => "*"
  | div => "/"
  | mod => "%"
  | pow => "**"
  | lt => "<"
  | le => "<="
  | gt => ">"
  | ge => ">="
  | eq => "=="
  | ne => "!="
  | and => "and"
  | or => "or"

/-- The built-in function that computes the operator in a node tree. -/
def builtin : BinaryOp → String
  | add => "add"
  | sub => "sub"
  | mul => "mul"
  | div => "div"
  | mod => "mod"
  | pow => "pow"
  | lt => "less_than"
  | le => "less_equal"
  | gt => "greater_than"
  | ge => "greater_equal"
  | eq => "equal"
  | ne => "not_equal"
  | and => "and"
  | or => "or"

/-- All operators. -/
def all : List BinaryOp := [add, sub, mul, div, mod, pow, lt, le, gt, ge, eq, ne, and, or]

theorem mem_all (op : BinaryOp) : op ∈ all := by cases op <;> decide

/-- The operator with a given symbol. -/
def ofSymbol? (symbol : String) : Option BinaryOp := all.find? fun op => op.symbol = symbol

end BinaryOp

end NodeFormula

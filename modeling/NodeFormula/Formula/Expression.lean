import NodeFormula.Formula
import NodeFormula.Formula.Token

/-!
# Reading expressions

One reader per level of binding strength. The levels do not call each other in a circle: each takes
the reader of inner expressions as an argument, which it may use after the cursor `base` only, and
`expression` closes the circle. So the source before an inner expression is always longer than the
inner expression's own, and reading ends.

From weakest to strongest: `or`, `and`, `not`, one comparison, sums, products, `-` and powers, calls
and members, and primary expressions. A power binds its exponent as a `-` does, so `2 ** 3 ** 2` is
`2 ** (3 ** 2)`, and comparisons do not chain.
-/

namespace NodeFormula.Expression

open Token

/-- A reader of expressions that may be used after `base`. -/
abbrev After (base : Cursor) := (d : Cursor) → base < d → Reading (Step d Expr)

/-- A reader of expressions that may be used from `base` on. -/
abbrev From (base : Cursor) := (d : Cursor) → base ≤ d → Reading (Step d Expr)

/-- Further items of a list, each after a comma. A comma without an item is given back. -/
def moreItems {base : Cursor} {α : Type} (item : (d : Cursor) → base < d → Reading (Step d α))
    (c : Cursor) (h : base ≤ c) : Reading (Reach c (List α)) :=
  match lexeme (char ',') c with
  | .error _ => .ok (Reach.here c [])
  | .ok comma =>
    match item comma.next (comma.lt_next h) with
    | .error f => if f.final then .error f else .ok (Reach.here c [])
    | .ok first => do
      let taken := comma.andThen first
      have := Cursor.length_lt taken.later
      let more ← moreItems item taken.next (taken.le_next h)
      return (taken.extend (more.map (taken.value :: ·))).reach
termination_by c.rest.length

/-- A list of at least one item, separated by commas. -/
def items {base : Cursor} {α : Type} (item : (d : Cursor) → base < d → Reading (Step d α))
    (c : Cursor) (h : base < c) : Reading (Step c (List α)) := do
  let first ← item c h
  let more ← moreItems item first.next (first.le_next (Cursor.le_of_lt h))
  return first.extend (more.map (first.value :: ·))

/-- A list of items, separated by commas, that may be empty. -/
def optionalItems {base : Cursor} {α : Type} (item : (d : Cursor) → base < d → Reading (Step d α))
    (c : Cursor) (h : base < c) : Reading (Reach c (List α)) := do
  let list ← (items item c h).optional
  return list.map (·.getD [])

/-! ### Primary expressions -/

/-- A number, a string, a truth value or a name. -/
def atom (c : Cursor) : Reading (Step c Expr) :=
  Reading.orElse ((number c).map fun s => s.map fun n =>
    match n with
    | .int v => .int v (c.spanTo s.next)
    | .float v => .float v (c.spanTo s.next)) fun _ =>
  Reading.orElse ((string c).map fun s => s.map fun v => .str v (c.spanTo s.next)) fun _ =>
  Reading.orElse ((keyword "true" c).map fun s => s.map fun _ => .bool true (c.spanTo s.next)) fun _ =>
  Reading.orElse ((keyword "false" c).map fun s => s.map fun _ => .bool false (c.spanTo s.next)) fun _ =>
  (name c).map fun s => s.map fun n => .name n (c.spanTo s.next)

/-- Three or four expressions in braces. -/
def vector {base : Cursor} (inner : After base) (c : Cursor) (h : base ≤ c) :
    Reading (Step c Expr) := do
  let opened ← char '\x7b' c
  let list ← Reading.commit (items inner opened.next (opened.lt_next h))
  let closed ← Reading.commit ((lexeme (char '\x7d') list.next).expecting .closeBrace)
  if list.value.length = 3 ∨ list.value.length = 4 then
    return (opened.andThen (list.andThen closed)).map fun _ =>
      .vector list.value (c.spanTo closed.next)
  else throw (.stop .vectorSize opened.next)

/-- An expression in parentheses, which is that expression at the place of the parentheses. -/
def parenthesized {base : Cursor} (inner : After base) (c : Cursor) (h : base ≤ c) :
    Reading (Step c Expr) := do
  let opened ← char '(' c
  let body ← Reading.commit (inner opened.next (opened.lt_next h))
  let closed ← Reading.commit ((lexeme (char ')') body.next).expecting .closeParen)
  return (opened.andThen (body.andThen closed)).map fun _ =>
    body.value.withSpan (c.spanTo closed.next)

/-- A primary expression at the very start of the cursor. -/
def primaryHere {base : Cursor} (inner : After base) (c : Cursor) (h : base ≤ c) :
    Reading (Step c Expr) :=
  Reading.expecting .expression <| Reading.choice <|
    (atom c).orElse fun _ => (vector inner c h).orElse fun _ => parenthesized inner c h

/-- A primary expression after space. -/
def primary {base : Cursor} (inner : After base) (c : Cursor) (h : base ≤ c) :
    Reading (Step c Expr) :=
  (primaryHere inner (skipSpace c) (Cursor.le_trans h (le_skipSpace c))).map fun s =>
    s.since (le_skipSpace c)

/-! ### Calls and members -/

/-- The arguments of a call, after its opening parenthesis. -/
def arguments {base : Cursor} (inner : After base) (c : Cursor) (h : base < c) :
    Reading (Step c (List Expr)) := do
  let args ← optionalItems inner c h
  let closed ← Reading.commit ((lexeme (char ')') args.next).expecting .closeParen)
  return (args.andThen closed).map fun _ => args.value

/-- One call or member access that follows `e`, if there is one. -/
def suffix {base : Cursor} (inner : After base) (e : Expr) (c : Cursor) (h : base ≤ c) :
    Reading (Option (Step c Expr)) :=
  match lexeme (char '(') c with
  | .ok opened =>
    match e with
    | .name f s => do
      let args ← arguments inner opened.next (opened.lt_next h)
      return some ((opened.andThen args).map fun values =>
        .call f values ⟨s.start, args.next.offset⟩)
    | _ => .error (.stop .namedCall (skipSpace c))
  | .error _ =>
    match lexeme (char '.') c with
    | .ok dot => do
      let field ← Reading.commit ((lexeme name dot.next).expecting .fieldName)
      return some ((dot.andThen field).map fun n => .member e n ⟨e.span.start, field.next.offset⟩)
    | .error _ => .ok none

/-- All calls and member accesses that follow `e`. -/
def suffixes {base : Cursor} (inner : After base) (e : Expr) (c : Cursor) (h : base ≤ c) :
    Reading (Reach c Expr) := do
  match ← suffix inner e c h with
  | none => return Reach.here c e
  | some s =>
    have := Cursor.length_lt s.later
    let more ← suffixes inner s.value s.next (s.le_next h)
    return (s.extend more).reach
termination_by c.rest.length

/-- A primary expression with its calls and member accesses. -/
def postfixed {base : Cursor} (inner : After base) : From base := fun c h => do
  let first ← primary inner c h
  let whole ← suffixes inner first.value first.next (first.le_next h)
  return first.extend whole

/-! ### Operators -/

/-- Negation and powers. -/
def unary {base : Cursor} (inner : After base) : From base := fun c h =>
  match lexeme (char '-') c with
  | .ok minus => do
    have := Cursor.length_lt minus.later
    let operand ← Reading.commit (unary inner minus.next (minus.le_next h))
    return (minus.andThen operand).map fun e => .unary .neg e ⟨(skipSpace c).offset, e.span.stop⟩
  | .error _ => do
    let first ← postfixed inner c h
    match lexeme (pair '*' '*') first.next with
    | .error _ => return first
    | .ok stars =>
      let taken := first.andThen stars
      have := Cursor.length_lt taken.later
      let exponent ← Reading.commit (unary inner taken.next (taken.le_next h))
      return (taken.andThen exponent).map (.join .pow first.value)
termination_by c => c.rest.length

/-- A reader of an operator. -/
abbrev OperatorReader := (d : Cursor) → Reading (Step d BinaryOp)

/-- The first of several readers that does not fail softly. -/
def firstOf : List OperatorReader → OperatorReader
  | [], c => .error (.mismatch c)
  | r :: rest, c => (r c).orElse fun _ => firstOf rest c

/-- A reader of an operator's mark. -/
def mark (op : BinaryOp) (read : (d : Cursor) → Reading (Step d Unit)) : OperatorReader := fun c =>
  (read c).map fun s => s.map fun _ => op

/-- A reader of an operator's keyword. -/
def word (op : BinaryOp) : OperatorReader := fun c =>
  (keyword op.symbol c).map fun s => s.map fun _ => op

/-- `+`, and `-` where it does not start `->`. -/
def sumOperator : OperatorReader :=
  firstOf [mark .add (char '+'), mark .sub (charNotBefore '-' '>')]

/-- `*` where it does not start `**`, `/` and `%`. -/
def productOperator : OperatorReader :=
  firstOf [mark .mul (charNotBefore '*' '*'), mark .div (char '/'), mark .mod (char '%')]

/-- The comparisons, the longer marks first. -/
def comparisonOperator : OperatorReader :=
  firstOf [mark .eq (pair '=' '='), mark .ne (pair '!' '='), mark .le (pair '<' '='),
    mark .ge (pair '>' '='), mark .lt (char '<'), mark .gt (char '>')]

/-- Further operands of one level, joined to `left` from left to right. -/
def moreOperands {base : Cursor} (operator : OperatorReader) (operand : From base) (left : Expr)
    (c : Cursor) (h : base ≤ c) : Reading (Reach c Expr) :=
  match lexeme operator c with
  | .error _ => .ok (Reach.here c left)
  | .ok op => do
    let right ← Reading.commit (operand op.next (op.le_next h))
    let taken := op.andThen right
    have := Cursor.length_lt taken.later
    let more ← moreOperands operator operand (.join op.value left right.value) taken.next
      (taken.le_next h)
    return (taken.extend more).reach
termination_by c.rest.length

/-- Operands of one level with its operators between them. -/
def chain {base : Cursor} (operator : OperatorReader) (operand : From base) : From base :=
  fun c h => do
    let first ← operand c h
    let whole ← moreOperands operator operand first.value first.next (first.le_next h)
    return first.extend whole

/-- Products. -/
def product {base : Cursor} (inner : After base) : From base := chain productOperator (unary inner)

/-- Sums. -/
def sum {base : Cursor} (inner : After base) : From base := chain sumOperator (product inner)

/-- One comparison of two sums, or a sum. -/
def comparison {base : Cursor} (inner : After base) : From base := fun c h => do
  let left ← sum inner c h
  match lexeme comparisonOperator left.next with
  | .error _ => return left
  | .ok op =>
    let taken := left.andThen op
    let right ← Reading.commit (sum inner taken.next (taken.le_next h))
    return (taken.andThen right).map (.join op.value left.value)

/-- Logical negation. -/
def negation {base : Cursor} (inner : After base) : From base := fun c h =>
  match lexeme (keyword "not") c with
  | .ok word => do
    have := Cursor.length_lt word.later
    let operand ← Reading.commit (negation inner word.next (word.le_next h))
    return (word.andThen operand).map fun e => .unary .not e ⟨(skipSpace c).offset, e.span.stop⟩
  | .error _ =>
    (comparison inner (skipSpace c) (Cursor.le_trans h (le_skipSpace c))).map fun s =>
      s.since (le_skipSpace c)
termination_by c => c.rest.length

/-- Conjunctions. -/
def conjunction {base : Cursor} (inner : After base) : From base :=
  chain (word .and) (negation inner)

/-- Disjunctions, the weakest level. -/
def disjunction {base : Cursor} (inner : After base) : From base :=
  chain (word .or) (conjunction inner)

/-- An expression. -/
def expression (c : Cursor) : Reading (Step c Expr) :=
  disjunction (fun d (_ : c < d) => expression d) c (Cursor.le_refl c)
termination_by c.rest.length
decreasing_by exact Cursor.length_lt ‹_›

end NodeFormula.Expression

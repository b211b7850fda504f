import NodeFormula.Constant.Fold
import NodeFormula.Typed.Checker

/-!
# Types of expressions

Operators and calls resolve to the cheapest overload that takes their arguments, or to a definition.
Operators on constants are folded. A name that is not bound is a free variable of type float, which
is bound by its first use; that is possible at the top level only.
-/

namespace NodeFormula.Check

/-- The type of an expression that is used as one value: that of its first output. -/
def valueType (e : TypedExpr) : Check SocketType := require e.types.head? .noOutputs e.span

/-- The types of expressions that are used as one value each. -/
def valueTypes : List TypedExpr → Check (List SocketType)
  | [] => pure []
  | e :: rest => do
    let t ← valueType e
    let ts ← valueTypes rest
    return t :: ts

/-- Arguments converted to the types of the parameters they are passed to. -/
def convertArgs (args : List TypedExpr) (params : List SocketType) : List TypedExpr :=
  List.zipWith TypedExpr.convertTo args params

/-- The call of an overload. -/
def nodeCall (o : Overload) (args : List TypedExpr) (span : Span) : TypedExpr :=
  .node o.node (convertArgs args o.inputs)
    ⟨o.outputTypes, o.outputNames, .ofOutputs o.outputs.length, span⟩

/-- An operator, which resolves to a built-in function only. -/
def operator (ctx : Context) (builtin symbol : String) (args : List TypedExpr) (span : Span) :
    Check TypedExpr := do
  let types ← valueTypes args
  let o ← require (Overload.select (ctx.tree.overloads builtin) types) (.operatorTypes symbol types)
    span
  return nodeCall o args span

/-- An operator before its operand. A sign that cannot be folded is a product with `-1`. -/
def unary (ctx : Context) (op : UnaryOp) (operand : TypedExpr) (span : Span) : Check TypedExpr :=
  match operand.constant?.bind (Constant.foldUnary op) with
  | some v => pure (.ofConstant v span)
  | none =>
    match op with
    | .neg => operator ctx "mul" "-" [operand, .ofConstant (.int (-1)) span] span
    | .not => operator ctx "not" "not" [operand] span

/-- An operator between two operands. -/
def binary (ctx : Context) (op : BinaryOp) (left right : TypedExpr) (span : Span) :
    Check TypedExpr :=
  let folded := do
    let a ← left.constant?
    let b ← right.constant?
    Constant.fold op a b
  match folded with
  | some v => pure (.ofConstant v span)
  | none => operator ctx op.builtin op.symbol [left, right] span

/-- Each argument of a call of a definition has a type that its parameter takes. -/
def checkArgs (function : String) : (args : List TypedExpr) → (params : List TypedParam) → Check Unit
  | [], _ => pure ()
  | _ :: _, [] => pure ()
  | a :: args, p :: params => do
    let t ← valueType a
    if !t.convertsTo p.type then fail (.argumentType p.name function p.type t) a.span
    checkArgs function args params

/-- The call of a definition. Arguments may be left out from the end where there are defaults. -/
def functionCall (f : TypedFunction) (args : List TypedExpr) (span : Span) : Check TypedExpr := do
  if f.inputs.length < args.length then
    fail (.argumentCount f.name f.inputs.length args.length) span
  match (f.inputs.drop args.length).find? (·.default.isNone) with
  | some p => fail (.missingArgument p.name f.name) span
  | none =>
    checkArgs f.name args f.inputs
    return .call f (convertArgs args (f.inputs.map (·.type)))
      ⟨f.outputs.map (·.type), f.outputs.map (·.name), .ofOutputs f.outputs.length, span⟩

/-- A call by name. A definition hides a built-in function of the same name. -/
def call (ctx : Context) (name : String) (args : List TypedExpr) (span : Span) :
    Check TypedExpr := do
  match (← get).functions.get? name with
  | some f => functionCall f args span
  | none =>
    let overloads := ctx.tree.overloads name
    if overloads.isEmpty then fail (.unknownFunction name) span
    let types ← valueTypes args
    let o ← require (Overload.select overloads types) (.overloadTypes name types) span
    return nodeCall o args span

/-- A name. -/
def name (ctx : Context) (n : String) (span : Span) : Check TypedExpr := do
  let s ← get
  match s.scope.get? n with
  | some b =>
    match b.constant with
    | some v => return .ofConstant v span
    | none => return .var n false (b.typing span)
  | none =>
    if ctx.enclosing.isSome || !ctx.zones.isEmpty || s.zoneLocals.contains n then
      fail (unknownName ctx s n) span
    else
      bind n (.value .float)
      return .var n true (.value .float span)

/-- The constant vector or colour with the given components. -/
def constantVector? : List TypedExpr → Option Constant
  | [x, y, z] => do
    let x ← x.constant?.bind (·.scalar?)
    let y ← y.constant?.bind (·.scalar?)
    let z ← z.constant?.bind (·.scalar?)
    return .vec3 x y z
  | [r, g, b, a] => do
    let r ← r.constant?.bind (·.scalar?)
    let g ← g.constant?.bind (·.scalar?)
    let b ← b.constant?.bind (·.scalar?)
    let a ← a.constant?.bind (·.scalar?)
    return .rgba r g b a
  | _ => none

/-- Every component of a vector is a number. -/
def checkComponents : List TypedExpr → Check Unit
  | [] => pure ()
  | e :: rest => do
    let t ← valueType e
    if !t.convertsTo .float then fail (.componentType t) e.span
    checkComponents rest

/-- A vector or colour of checked components. -/
def vector (ctx : Context) (type : SocketType) (items : List TypedExpr) (span : Span) :
    Check TypedExpr :=
  match constantVector? items with
  | some v => pure (.ofConstant v span)
  | none => do
    checkComponents items
    let join ← require (ctx.tree.combine type) (.noCombine type) span
    if join.inputs.length ≠ items.length then
      fail (.literalLength type join.inputs.length ctx.tree) span
    return nodeCall join items span

/-- The type of a vector literal with a given number of components. -/
def vectorType? : Nat → Option SocketType
  | 3 => some .vec3
  | 4 => some .rgba
  | _ => none

/-- An output of a bundle, or a component of a vector or colour. -/
def member (ctx : Context) (e : TypedExpr) (n : String) (span : Span) : Check TypedExpr :=
  match e.shape with
  | .bundle => do
    let i ← require (e.typing.names.findIdx? (· = n)) (.noOutputNamed n e.typing.names) span
    let t ← require e.types[i]? (.noOutputNamed n e.typing.names) span
    return .output e i ⟨[t], [n], .single, span⟩
  | .single => do
    let t ← valueType e
    let part ← require (Component.lookup? ctx.tree t n) (.noField t n) span
    match e.constant?.bind part.fold? with
    | some v => return .ofConstant v span
    | none => return .component e part ⟨[Component.type], [n], .single, span⟩

mutual

/-- Check an expression. -/
def expr (ctx : Context) : Expr → Check TypedExpr
  | .int v s => pure (.ofConstant (.int v) s)
  | .float v s => pure (.ofConstant (.float v) s)
  | .bool v s => pure (.ofConstant (.bool v) s)
  | .str v s => pure (.ofConstant (.str v) s)
  | .name n s => name ctx n s
  | .vector items s => do
    let type ← require (vectorType? items.length) (.vectorLength items.length) s
    let checked ← exprs ctx items
    vector ctx type checked s
  | .unary op e s => do
    let operand ← expr ctx e
    unary ctx op operand s
  | .binary op l r s => do
    let left ← expr ctx l
    let right ← expr ctx r
    binary ctx op left right s
  | .call f args s => do
    let checked ← exprs ctx args
    call ctx f checked s
  | .member e n s => do
    let value ← expr ctx e
    member ctx value n s

/-- Check expressions in order. -/
def exprs (ctx : Context) : List Expr → Check (List TypedExpr)
  | [] => pure []
  | e :: rest => do
    let first ← expr ctx e
    let others ← exprs ctx rest
    return first :: others

end

end NodeFormula.Check

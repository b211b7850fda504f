import NodeFormula.Op.Input
import NodeFormula.Typed

/-!
# From typed formulas to ops

Each expression becomes ops that leave its value on the stack, and each statement ops that use it and
clear the stack. Definitions are lowered anew at each call. Values that are needed in between are bound
to temporary variables, whose names hold a `#` and a number and so are no names of a formula.
-/

namespace NodeFormula

/-- A step of lowering: the state counts the temporary variables. -/
abbrev Lower := StateT Nat (Except LoweringError)

namespace Lower

/-- A new temporary variable. -/
def temporary (base : String) : Lower String := do
  let n ← get
  set (n + 1)
  return s!"{base}#{n}"

/-- Ops of a value reduced to its first output. -/
def firstOutput (e : TypedExpr) (ops : List Op) : List Op :=
  match e.shape with
  | .bundle => ops ++ [.getOutput 0]
  | .single => ops

/-- The op that stores the top of the stack in a target. -/
def store : TypedTarget → Op
  | .var n => .bindVar n
  | .output i => .setFunctionOut i
  | .ignore => .pop

/-- The ops that assign a constant: a node with its value, named after the target. -/
def assignConstant (tree : TreeKind) (outputs : List String) (targets : List TypedTarget)
    (v : Constant) : Except LoweringError (List Op) :=
  match targets with
  | [.var n] => do
    let input ← tree.constantInput n v
    return input ++ [.bindVar n]
  | [.output i] =>
    match outputs[i]? with
    | none => .error (.outputRange i)
    | some n => do
      let input ← tree.constantInput n v
      return input ++ [.setFunctionOut i]
  | [.ignore] => .ok []
  | targets => .error (.constantSplit targets.length)

/-- The ops that store the value on the stack, which is that of `e`, in targets. Of several targets
the last is stored first, after the parts that no target takes are dropped. -/
def storeAll (tree : TreeKind) (e : TypedExpr) (targets : List TypedTarget) :
    Except LoweringError (List Op) :=
  match targets with
  | [] => .ok []
  | [.output i] => .ok (firstOutput e [] ++ [.setFunctionOut i])
  | [target] => .ok [store target]
  | targets =>
    let unpack (parts : Nat) : List Op :=
      .splitStruct :: List.replicate (parts - targets.length) .pop ++ targets.reverse.map store
    match e.shape with
    | .bundle => .ok (unpack e.types.length)
    | .single =>
      match e.types.head? with
      | none => .error .noOutputs
      | some type =>
        match tree.separate type with
        | none => .error (.cannotSplit type)
        | some split => .ok (split.op :: unpack split.outputs.length)

/-- Constants for the parameters that a call with a number of arguments leaves out. -/
def pushDefaults (params : List TypedParam) (given : Nat) : Except LoweringError (List Op) :=
  if given ≤ params.length then .ok ((params.drop given).map fun p => .pushValue p.default)
  else .error (.argumentRange given params.length)

/-- The call of a definition with its lowered body. -/
def callOp (kind : DefKind) (name : String) (inputs outputs : List TypedParam) (body : List Op) :
    Op :=
  match kind with
  | .function => .callFunction name (inputs.map (·.name)) outputs.length body
  | .group => .callGroup name inputs outputs body

mutual

/-- The ops that push the value of an expression. -/
def expr (tree : TreeKind) : TypedExpr → Lower (List Op)
  | .constant v _ => pure [.pushValue (some v)]
  | .var n fresh _ => pure (if fresh then [.createVar n, .getVar n] else [.getVar n])
  | .node node arguments typing => do
    let pushed ← args tree arguments
    let missing := List.replicate (node.inputs.length - arguments.length) (.pushValue none)
    return pushed ++ missing ++ [.callBuiltin node typing.types]
  | .call ⟨name, kind, inputs, outputs, body⟩ arguments _ => do
    let pushed ← args tree arguments
    let defaults ← pushDefaults inputs arguments.length
    let ops ← stmts tree (outputs.map (·.name)) body
    return pushed ++ defaults ++ [callOp kind name inputs outputs ops]
  | .output e i _ => do
    let ops ← expr tree e
    return ops ++ [.getOutput i]
  | .component e part _ => do
    let ops ← expr tree e
    let temp ← temporary "field"
    let reading ← part.readOps tree temp
    return firstOutput e ops ++ .bindVar temp :: reading ++ [.destroyVar temp]

/-- The ops that push arguments, each as one value. -/
def args (tree : TreeKind) : List TypedExpr → Lower (List Op)
  | [] => pure []
  | e :: rest => do
    let first ← expr tree e
    let others ← args tree rest
    return firstOutput e first ++ others

/-- The ops of a statement in a definition with the given output names. -/
def stmt (tree : TreeKind) (outputs : List String) : TypedStmt → Lower (List Op)
  | .expr e => do
    let ops ← expr tree e
    return ops ++ [.endOfStatement]
  | .assign targets e =>
    match e.constant? with
    | some v => do
      let ops ← assignConstant tree outputs targets v
      return ops ++ [.endOfStatement]
    | none => do
      let ops ← expr tree e
      let storing ← storeAll tree e targets
      return ops ++ storing ++ [.endOfStatement]
  | .setField target object part value => do
    let valueOps ← expr tree value
    let valueTemp ← temporary "value"
    let objectOps ← expr tree object
    let objectTemp ← temporary target
    let writing ← part.writeOps tree target objectTemp valueTemp
    return firstOutput value valueOps ++ .bindVar valueTemp :: objectOps ++
      .bindVar objectTemp :: writing ++
      [.destroyVar valueTemp, .destroyVar objectTemp, .endOfStatement]
  | .zone count body => do
    let inner ← stmts tree outputs body
    let ops ← expr tree count
    return firstOutput count ops ++ [.zone inner, .endOfStatement]

/-- The ops of statements. -/
def stmts (tree : TreeKind) (outputs : List String) : List TypedStmt → Lower (List Op)
  | [] => pure []
  | s :: rest => do
    let first ← stmt tree outputs s
    let others ← stmts tree outputs rest
    return first ++ others

end

end Lower

/-- The ops of a checked formula. -/
def lower (tree : TreeKind) (formula : List TypedStmt) : Except LoweringError (List Op) :=
  (Lower.stmts tree [] formula).run' 0

end NodeFormula

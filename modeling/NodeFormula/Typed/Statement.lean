import NodeFormula.Typed.Expression

/-!
# Checking statements

A block is checked statement by statement, going on after a failure, so that all errors are found at
once. Loops are unrolled here. A repeat zone starts from the variables in scope, must leave those it
changes with the types they had, and what it binds first is not in scope after it.
-/

namespace NodeFormula

namespace Check

/-- What keeps a zone that starts with the binding `outer` of a variable from rebinding it to
`b`. -/
def carryProblem? (name : String) (outer b : Binding) : Option Problem :=
  if outer.constant.isSome then some (.counterInZone name)
  else if outer.shape = .bundle then some (.bundleInZone name)
  else if outer.types ≠ b.types ∨ outer.shape ≠ b.shape then
    some (.changesType name outer.types b.types)
  else none

/-- What keeps the zones around a block from rebinding a variable, the outermost zone first. -/
def zoneProblem? (ctx : Context) (name : String) (b : Binding) : Option Problem :=
  ctx.zones.findSome? fun outer => (outer.get? name).bind fun o => carryProblem? name o b

/-- Assign to a target: an output of the enclosing definition, or a variable. -/
def assignTarget (ctx : Context) (target : Target) (b : Binding) : Check TypedTarget :=
  match target with
  | .ignore _ => pure .ignore
  | .name n span =>
    match ctx.output? n with
    | some (d, i, expected) => do
      if !ctx.zones.isEmpty then fail (.outputInZone n) span
      let found ← require b.types.head? .noOutputs span
      if !found.convertsTo expected then fail (.outputType n d.name expected found) span
      modify fun s => { s with assigned := i :: s.assigned }
      return .output i
    | none =>
      match zoneProblem? ctx n b with
      | some problem => fail problem span
      | none => do
        bind n b
        return .var n

/-- A constant that is assigned needs a node that holds it. -/
def checkConstant (ctx : Context) (target : TypedTarget) (e : TypedExpr) : Check Unit :=
  match target, e.constant? with
  | .ignore, _ => pure ()
  | _, none => pure ()
  | _, some v =>
    if ctx.tree.supportsConstant v.type then pure ()
    else fail (.unsupportedConstant v.type ctx.tree) e.span

/-- Assign a value to one target. A constant for an output is converted to the output's type. -/
def assignOne (ctx : Context) (target : Target) (e : TypedExpr) : Check (List TypedStmt) := do
  let t ← assignTarget ctx target (.ofTyping e.typing)
  let value := match t with
    | .output i =>
      match ctx.enclosing.bind fun d => d.outputs[i]? with
      | some p => e.convertTo p.type
      | none => e
    | _ => e
  checkConstant ctx t value
  return [.assign [t] value]

/-- Assign the components of a constant to targets, from component `index` on. -/
def assignComponents (ctx : Context) (type : SocketType) (v : Constant) (span : Span) :
    Nat → List Target → Check (List TypedStmt)
  | _, [] => pure []
  | index, target :: rest => do
    let x ← require (Component.fold? ⟨type, index⟩ v) (.unpackConstant v) span
    let part := TypedExpr.ofConstant x span
    let t ← assignTarget ctx target (.ofTyping part.typing)
    checkConstant ctx t part
    let more ← assignComponents ctx type v span (index + 1) rest
    return .assign [t] part :: more

/-- Bind targets to parts of the given types. -/
def assignParts (ctx : Context) : List Target → List SocketType → Check (List TypedTarget)
  | target :: targets, type :: types => do
    let t ← assignTarget ctx target (.value type)
    let more ← assignParts ctx targets types
    return t :: more
  | _, _ => pure []

/-- The types of the parts that a value of a given first type can be unpacked into. -/
def partTypes? (tree : TreeKind) (e : TypedExpr) (type : SocketType) : Option (List SocketType) :=
  match e.shape with
  | .bundle => some e.types
  | .single => (tree.separate type).map Overload.outputTypes

/-- Assign the outputs of a bundle or the components of a value to several targets. -/
def assignMany (ctx : Context) (targets : List Target) (e : TypedExpr) (type : SocketType) :
    Check (List TypedStmt) := do
  let parts ← require (partTypes? ctx.tree e type) (.unpackType type targets.length) e.span
  if parts.length < targets.length then
    fail (.unpackCount parts.length targets.length) e.span
  match e.constant? with
  | some v => assignComponents ctx type v e.span 0 targets
  | none =>
    let bound ← assignParts ctx targets parts
    return [.assign bound e]

/-- Check an assignment. -/
def assign (ctx : Context) (targets : List Target) (e : Expr) : Check (List TypedStmt) := do
  let value ← expr ctx e
  let type ← valueType value
  match targets with
  | [target] => assignOne ctx target value
  | _ => assignMany ctx targets value type

/-- Check an assignment to a component of a variable. -/
def setField (ctx : Context) (target field : String) (e : Expr) (span : Span) :
    Check (List TypedStmt) := do
  let s ← get
  if !s.scope.contains target then fail (unknownName ctx s target) span
  let object ← name ctx target span
  let type ← valueType object
  let part? := match object.shape with
    | .single => Component.lookup? ctx.tree type field
    | .bundle => none
  let part ← require part? (.noField type field) span
  let value ← expr ctx e
  let found ← valueType value
  if !found.convertsTo Component.type then fail (.fieldValue found Component.type) value.span
  return [.setField target object part (value.convertTo Component.type)]

/-- The values of a loop counter. -/
def counterValues (first last : Int64) : List Int64 :=
  (List.range (last.toInt - first.toInt + 1).toNat).map fun (k : Nat) =>
    Int64.ofInt (first.toInt + k)

/-- Check a loop's body for each value of its counter, up to the first with an error, which every
other would repeat. -/
def unroll (counter : Option String) (body : Check (List TypedStmt)) :
    List Int64 → Check (List TypedStmt)
  | [] => pure []
  | i :: rest => do
    match counter with
    | some n => bind n (.counter i)
    | none => pure ()
    let before := (← get).errors.length
    let stmts ← body
    if before < (← get).errors.length then
      return stmts
    else
      let more ← unroll counter body rest
      return stmts ++ more

/-- Check a zone's body, and leave the zone's scope. -/
def inZone (ctx : Context) (body : Context → Check (List TypedStmt)) : Check (List TypedStmt) := do
  let outer := (← get).scope
  let stmts ← body (ctx.inZone outer)
  modify fun s =>
    let inner := s.scope.keys.filter fun n => !outer.contains n && !s.zoneLocals.contains n
    { s with scope := outer, zoneLocals := inner ++ s.zoneLocals }
  return stmts

/-- The default of a parameter: a constant that can be converted to its type. -/
def defaultValue (ctx : Context) (p : Param) : Check TypedParam :=
  match p.default with
  | none => pure ⟨p.name, p.type, none⟩
  | some e => do
    let value ← expr ctx e
    let v ← require value.constant? (.defaultNotConstant p.name) e.span
    let w ← require (v.convert? p.type) (.defaultType p.name v.type p.type) e.span
    return ⟨p.name, p.type, some w⟩

/-- The parameters of a definition. -/
def parameters (ctx : Context) : List Param → Check (List TypedParam)
  | [] => pure []
  | p :: rest => do
    let first ← defaultValue ctx p
    let others ← parameters ctx rest
    return first :: others

/-- Note an error for each output that is not assigned. -/
def reportUnassigned (function : String) (span : Span) (assigned : List Nat) :
    Nat → List TypedParam → Check Unit
  | _, [] => pure ()
  | i, p :: rest => do
    if !assigned.contains i then report ⟨.neverAssigned p.name function, span⟩
    reportUnassigned function span assigned (i + 1) rest

/-- Check a definition's body in a scope of its own. -/
def inDefinition (ctx : Context) (d : Enclosing) (inputs : List TypedParam)
    (body : Context → Check (List TypedStmt)) : Check (List TypedStmt × List Nat) := do
  let outer ← get
  let scope : Scope := Table.ofList (inputs.map fun p => (p.name, .value p.type))
  set { outer with scope, assigned := [] }
  let stmts ← body (ctx.inDefinition d)
  let assigned := (← get).assigned
  modify fun s => { s with scope := outer.scope, assigned := outer.assigned }
  return (stmts, assigned)

/-- Check a definition and make it known. Errors in its body do not keep it from being known. -/
def define (ctx : Context) (h : Header) (span : Span) (body : Context → Check (List TypedStmt)) :
    Check Unit := do
  if !ctx.topLevel then fail .nestedDefinition span
  if (← get).functions.contains h.name then fail (.alreadyDefined h.name) span
  let inputs ← parameters ctx h.inputs
  let outputs := h.outputs.map fun p => (⟨p.name, p.type, none⟩ : TypedParam)
  let (stmts, assigned) ← inDefinition ctx ⟨h.name, outputs⟩ inputs body
  reportUnassigned h.name span assigned 0 outputs
  modify fun s =>
    { s with functions := s.functions.insert h.name ⟨h.name, h.kind, inputs, outputs, stmts⟩ }

mutual

/-- Check a statement. -/
def stmt (ctx : Context) : Stmt → Check (List TypedStmt)
  | .expr e _ => do
    let value ← expr ctx e
    return [.expr value]
  | .assign targets e _ => assign ctx targets e
  | .setField target field e s => setField ctx target field e s
  | .loop counter first last body s => do
    let values := last.toInt - first.toInt + 1
    if maxUnroll < values then fail (.loopLength values) s
    unroll counter (block ctx.inLoop body) (counterValues first last)
  | .zone count body _ => do
    if !ctx.tree.supportsRepeat then fail (.noZones ctx.tree) count.span
    let value ← expr ctx count
    let type ← valueType value
    if !type.convertsTo .int then fail (.countType type) value.span
    let stmts ← inZone ctx fun inner => block inner body
    return [.zone (value.convertTo .int) stmts]
  | .define h body s => do
    define ctx h s fun inner => block inner body
    return []

/-- Check statements in order, going on after one that fails. -/
def block (ctx : Context) : List Stmt → Check (List TypedStmt)
  | [] => pure []
  | s :: rest => do
    let first ← recover (stmt ctx s)
    let others ← block ctx rest
    return first ++ others

end

/-- Check the statements of a library, which are definitions. -/
def library (ctx : Context) : List Stmt → Check Unit
  | [] => pure ()
  | s :: rest => do
    match s with
    | .define .. =>
      let _ ← recover (stmt ctx s)
    | _ => report ⟨.libraryStatement, s.span⟩
    library ctx rest

end Check

namespace Checker

/-- Run a step that notes its errors, and give the errors or its value. -/
def finish {α : Type} (x : Check α) (s : Checker) : Except (List TypeError) α × Checker :=
  match x s with
  | .ok a s => (if s.errors.isEmpty then .ok a else .error s.errors, { s with errors := [] })
  | .error e s => (.error (s.errors ++ [e]), { s with errors := [] })

/-- A session hands its errors over when it is finished and keeps none for the next source. -/
theorem errors_finish {α : Type} (x : Check α) (s : Checker) : (finish x s).2.errors = [] := by
  unfold finish
  split <;> rfl

/-- Make the definitions of a library known. -/
def addLibrary (tree : TreeKind) (p : Program) (s : Checker) :
    Except (List TypeError) Unit × Checker :=
  finish (Check.library { tree } p.items) s

/-- Check a formula against the definitions known so far. All errors are given if there are any. -/
def check (tree : TreeKind) (p : Program) (s : Checker) :
    Except (List TypeError) (List TypedStmt) × Checker :=
  finish (Check.block { tree } p.items) { s with scope := ∅, zoneLocals := [] }

end Checker

end NodeFormula

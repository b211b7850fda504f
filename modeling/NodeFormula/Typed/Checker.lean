import NodeFormula.Table
import NodeFormula.Typed
import NodeFormula.Typed.Problem

/-!
# The state of type checking

What a checker knows is in two parts. The `Context` is fixed for a block of statements: the kind of
tree, the definition that the block belongs to, and the repeat zones around it. The `Checker` changes
as statements are checked: the definitions so far, the variables in scope, and the errors found. A
failing statement keeps what it changed before it failed.
-/

namespace NodeFormula

/-- What is known of a variable. -/
structure Binding where
  types : List SocketType
  names : List String
  shape : Shape
  /-- The value of a loop counter. -/
  constant : Option Constant
deriving DecidableEq

namespace Binding

/-- The binding of a variable to the value of an expression. -/
def ofTyping (t : Typing) : Binding := ⟨t.types, t.names, t.shape, none⟩

/-- The binding of a variable to a single value. -/
def value (type : SocketType) : Binding := ⟨[type], [""], .single, none⟩

/-- The binding of a loop counter. -/
def counter (i : Int64) : Binding := { value .int with constant := some (.int i) }

/-- The typing of a variable with this binding at a place. -/
def typing (b : Binding) (span : Span) : Typing := ⟨b.types, b.names, b.shape, span⟩

end Binding

/-- The variables in scope. -/
abbrev Scope := Table String Binding

/-- The definition that a body belongs to. -/
structure Enclosing where
  name : String
  outputs : List TypedParam
deriving DecidableEq

/-- Where a block of statements stands. -/
structure Context where
  tree : TreeKind
  /-- The definition around the block. -/
  enclosing : Option Enclosing := none
  /-- The variables that were in scope where each zone around the block starts, outermost first. -/
  zones : List Scope := []
  /-- Whether the block is in a loop or a zone. -/
  nested : Bool := false

namespace Context

/-- The index and type of an output of the enclosing definition. -/
def output? (ctx : Context) (name : String) : Option (Enclosing × Nat × SocketType) := do
  let d ← ctx.enclosing
  let i ← d.outputs.findIdx? (·.name = name)
  let p ← d.outputs[i]?
  return (d, i, p.type)

/-- The context of the body of a loop. -/
def inLoop (ctx : Context) : Context := { ctx with nested := true }

/-- The context of the body of a zone that starts with variables `scope`. -/
def inZone (ctx : Context) (scope : Scope) : Context :=
  { ctx with zones := ctx.zones ++ [scope], nested := true }

/-- The context of the body of a definition. -/
def inDefinition (ctx : Context) (d : Enclosing) : Context := { ctx with enclosing := some d }

/-- Whether a definition may stand here. -/
def topLevel (ctx : Context) : Bool := ctx.enclosing.isNone && !ctx.nested

end Context

/-- What changes while statements are checked. -/
structure Checker where
  /-- The definitions so far. -/
  functions : Table String TypedFunction := ∅
  /-- The variables in scope. -/
  scope : Scope := ∅
  /-- Names that were first bound in a zone and are not in scope after it. -/
  zoneLocals : List String := []
  /-- The outputs of the enclosing definition that are assigned so far. -/
  assigned : List Nat := []
  /-- The errors so far, first found first. -/
  errors : List TypeError := []

/-- A step of type checking. -/
abbrev Check := EStateM TypeError Checker

namespace Check

/-- Fail with a problem at a place. -/
def fail {α : Type} (problem : Problem) (span : Span) : Check α := throw ⟨problem, span⟩

/-- A value that must be there. -/
def require {α : Type} (o : Option α) (problem : Problem) (span : Span) : Check α :=
  match o with
  | some a => pure a
  | none => fail problem span

/-- Bind a variable. -/
def bind (name : String) (b : Binding) : Check Unit :=
  modify fun s => { s with scope := s.scope.insert name b }

/-- Note an error and go on. -/
def report (e : TypeError) : Check Unit := modify fun s => { s with errors := s.errors ++ [e] }

/-- Check statements; if they fail, note the error and go on without them. -/
def recover (x : Check (List TypedStmt)) : Check (List TypedStmt) := fun s =>
  match x s with
  | .ok stmts s => .ok stmts s
  | .error e s => .ok [] { s with errors := s.errors ++ [e] }

/-- What is wrong with a name that is not in scope. -/
def unknownName (ctx : Context) (s : Checker) (name : String) : Problem :=
  match ctx.output? name with
  | some (d, _, _) => .outputRead name d.name
  | none =>
    if s.zoneLocals.contains name then .zoneLocal name
    else if !ctx.zones.isEmpty && ctx.enclosing.isNone then .unknownInZone name
    else .unknownVariable name

end Check

end NodeFormula

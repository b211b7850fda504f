import NodeFormula.Formula.Statement
import NodeFormula.Graph.Build
import NodeFormula.Graph.Layout
import NodeFormula.Op.Lowering
import NodeFormula.Typed.Statement

/-!
# Compiling sources

A formula is read and checked together with the libraries it uses, lowered to ops, run, and laid out.
-/

namespace NodeFormula

/-- A named source text. -/
structure Source where
  name : String
  text : String
deriving DecidableEq, Repr

/-- What a formula is compiled into, and with which libraries. -/
structure CompileOptions where
  tree : TreeKind := .shader
  /-- The name of the formula's tree. -/
  treeName : String := "Formula"
  libraries : List Source := []

/-- An error in one of the sources. -/
structure Diagnostic where
  file : String
  error : SourceError
  /-- The error with its line. -/
  rendered : String
deriving DecidableEq, Repr

/-- An error in a source, with its line. -/
def Diagnostic.ofError (source : Source) (error : SourceError) : Diagnostic :=
  ⟨source.name, error, Excerpt.render source.text source.name error⟩

/-- Why a formula has no graph. -/
inductive CompileError where
  | diagnostics (found : List Diagnostic)
  | lowering (error : LoweringError)
  | running (error : RunError)

/-- The words for an error. -/
def CompileError.message : CompileError → String
  | diagnostics [_] => "could not compile formula due to 1 previous error"
  | diagnostics found => s!"could not compile formula due to {found.length} previous errors"
  | lowering e => e.message
  | running e => e.message

/-- A compiled formula. -/
structure Compilation where
  ops : List Op
  graph : NodeGraph

namespace Compilation

/-- Type errors of a source. -/
def typeDiagnostics (source : Source) (errors : List TypeError) : List Diagnostic :=
  errors.map fun e => .ofError source e.toError

/-- Read a library and make its definitions known. -/
def addLibrary (tree : TreeKind) (source : Source) (s : Checker) : List Diagnostic × Checker :=
  match Program.parse source.text with
  | .error e => ([.ofError source e], s)
  | .ok p =>
    match s.addLibrary tree p with
    | (.ok (), s) => ([], s)
    | (.error errors, s) => (typeDiagnostics source errors, s)

/-- Read libraries in order, going on after one with errors. -/
def addLibraries (tree : TreeKind) : List Source → Checker → List Diagnostic × Checker
  | [], s => ([], s)
  | source :: rest, s =>
    let (found, s) := addLibrary tree source s
    let (more, s) := addLibraries tree rest s
    (found ++ more, s)

/-- Check the libraries, and if they have no errors the formula. -/
def check (source : Source) (options : CompileOptions) :
    Except (List Diagnostic) (List TypedStmt) :=
  match addLibraries options.tree options.libraries {} with
  | ([], s) =>
    match Program.parse source.text with
    | .error e => .error [.ofError source e]
    | .ok p => (s.check options.tree p).1.mapError (typeDiagnostics source)
  | (found, _) => .error found

/-- Compile a formula into a graph with its layout. -/
def compile (source : Source) (options : CompileOptions) : Except CompileError Compilation := do
  let formula ← (check source options).mapError .diagnostics
  let ops ← (lower options.tree formula).mapError .lowering
  let graph ← (NodeGraph.ofOps options.tree options.treeName ops).mapError .running
  return ⟨ops, Layout.graph graph⟩

end Compilation

end NodeFormula

import NodeFormula.CommandLine.Help
import NodeFormula.Compilation
import NodeFormula.Graph.Csv
import NodeFormula.Graph.Drawing
import NodeFormula.Graph.Json

/-!
# The command

A command reads its sources, compiles the formula, and prints or writes the text that was asked for.
Files are reached through `Files`, so a command can be run on a disk as well as on a `Folder`.
-/

namespace NodeFormula

/-- Why a file cannot be read or written. -/
inductive FileError where
  | missing
  | isFolder
  | notFolder
  | notText
  | other (message : String)
deriving DecidableEq, Repr

/-- The words for an error. -/
def FileError.message : FileError → String
  | missing => "No such file or directory (os error 2)"
  | isFolder => "Is a directory (os error 21)"
  | notFolder => "Not a directory (os error 20)"
  | notText => "stream did not contain valid UTF-8"
  | other m => m

/-- The ways to reach files and standard input. -/
structure Files (m : Type → Type) where
  standardInput : m (Except FileError String)
  read : String → m (Except FileError String)
  write : String → String → m (Except FileError Unit)

/-- What a command leaves behind, its output file apart. -/
structure Outcome where
  exit : Nat
  stdout : String
  stderr : String
deriving DecidableEq, Repr

/-- Why a command has no result. -/
inductive CommandError where
  | input (cause : FileError)
  | reading (path : String) (cause : FileError)
  | writing (path : String) (cause : FileError)
  | compiling (cause : CompileError)
  | drawing (cause : DrawingError)
  | noCanvas

namespace CommandError

/-- A failed step and its cause, each line of the cause indented. -/
def because (step cause : String) : String :=
  s!"Error: {step}\n\nCaused by:\n    " ++ String.intercalate "\n    " (cause.splitOn "\n") ++ "\n"

/-- The words for an error. -/
def message : CommandError → String
  | input e => because "Failed to read formula from stdin" e.message
  | reading path e => because s!"Failed to read {path}" e.message
  | writing path e => because s!"Failed to write {path}" e.message
  | compiling (.diagnostics found) =>
    String.join (found.map fun d => d.rendered ++ "\n") ++
      s!"error: {CompileError.message (.diagnostics found)}\n"
  | compiling e => because "Failed to compile formula" e.message
  | drawing e => because "Failed to render diagram" (Drawing.message e)
  | noCanvas => because "Failed to render diagram" "no canvas is available"

end CommandError

namespace CommandLine

variable {m : Type → Type} [Monad m]

/-- Read a source file. -/
def readFile (files : Files m) (path : String) : ExceptT CommandError m Source := do
  match ← files.read path with
  | .ok text => return ⟨path, text⟩
  | .error e => throw (.reading path e)

/-- Read the formula. -/
def readFormula (files : Files m) : FormulaSource → ExceptT CommandError m Source
  | .inline text => return ⟨"<formula>", text⟩
  | .file path => readFile files path
  | .standardInput => do
    match ← files.standardInput with
    | .ok text => return ⟨"<stdin>", text⟩
    | .error e => throw (.input e)

/-- The text of a compiled formula. -/
def render (o : Options) (c : Compilation) : Except CommandError String :=
  match o.format with
  | .json => .ok c.graph.toJson.text
  | .csv => .ok c.graph.toCsv
  | .ops => .ok (Op.listing c.ops)
  | .png =>
    match Drawing.obstacle? c.graph.tree o.width o.height with
    | some e => .error (.drawing e)
    | none => .error .noCanvas

/-- The text a command prints or writes; nothing when it only checks. -/
def produce (o : Options) (formula : Source) (libraries : List Source) :
    Except CommandError (Option String) := do
  let options : CompileOptions := ⟨o.tree, o.name, libraries⟩
  if o.checkOnly then
    discard <| (Compilation.check formula options).mapError (.compiling ∘ .diagnostics)
    return none
  else
    return some (← render o (← (Compilation.compile formula options).mapError .compiling))

/-- Read the sources, and print or write the result. -/
def attempt (files : Files m) (o : Options) : ExceptT CommandError m String := do
  let formula ← readFormula files o.formula
  let libraries ← o.libraries.mapM (readFile files)
  match ← ExceptT.mk (pure (produce o formula libraries)), o.output with
  | none, _ => return ""
  | some text, none => return text
  | some text, some path =>
    match ← files.write path text with
    | .ok () => return ""
    | .error e => throw (.writing path e)

/-- Run a command with given options. -/
def execute (files : Files m) (o : Options) : m Outcome := do
  match ← (attempt files o).run with
  | .ok text => return ⟨0, text, ""⟩
  | .error e => return ⟨1, "", e.message⟩

/-- Run a command with the arguments it was called with and the tree's kind that the environment
gives. -/
def run (files : Files m) (arguments : List String) (tree : Option String) : m Outcome :=
  match Options.parse arguments tree with
  | .ok o => execute files o
  | .error (.help full) => return ⟨0, if full then Help.long tree else Help.short tree, ""⟩
  | .error (.usage e) =>
    return ⟨2, "", s!"error: {e.message}\n\nFor more information, try '--help'.\n"⟩

end CommandLine

end NodeFormula

import NodeFormula.Catalog
import NodeFormula.Number.Word

/-!
# Command-line options

An argument is an option, a value, or the formula. Options and the formula come in any order; the
value of an option stands in the next argument, after an equals sign, or right behind the option's
letter. Options are read from left to right, so a request for help counts only if nothing was wrong
before it.
-/

namespace NodeFormula

/-- The texts a formula can be compiled to. -/
inductive OutputFormat where
  | json | csv | png | ops
deriving DecidableEq, Repr

namespace OutputFormat

/-- The formats, with what they hold. -/
def all : List (OutputFormat × String × String) :=
  [(json, "json", "Node graph as JSON for a host bridge"), (csv, "csv", "One row per node"),
   (png, "png", "Diagram of the main tree"), (ops, "ops", "Compiled stack operations")]

/-- The format of a name. -/
def ofName? (name : String) : Option OutputFormat :=
  (all.find? fun f => f.2.1 == name).map (·.1)

end OutputFormat

/-- The options of the command. -/
inductive Flag where
  | file | tree | library | format | output | name | width | height | title | check | verbose | help
deriving DecidableEq, Repr

namespace Flag

/-- All options, in the order of the help text. -/
def all : List Flag :=
  [file, tree, library, format, output, name, width, height, title, check, verbose, help]

/-- The long name of an option. -/
def word : Flag → String
  | file => "file"
  | tree => "tree"
  | library => "library"
  | format => "format"
  | output => "output"
  | name => "name"
  | width => "width"
  | height => "height"
  | title => "title"
  | check => "check"
  | verbose => "verbose"
  | help => "help"

/-- The letter of an option. -/
def letter? : Flag → Option Char
  | file => some 'f'
  | tree => some 't'
  | library => some 'l'
  | output => some 'o'
  | verbose => some 'v'
  | help => some 'h'
  | _ => none

/-- Whether an option has a value. -/
def takesValue : Flag → Bool
  | check | verbose | help => false
  | _ => true

/-- The option of a long name. -/
def ofWord? (word : String) : Option Flag :=
  all.find? (·.word == word)

/-- The option of a letter. -/
def ofLetter? (letter : Char) : Option Flag :=
  all.find? (·.letter? == some letter)

end Flag

/-- What is wrong with the arguments. -/
inductive UsageError where
  | unexpected (argument : String)
  | missingValue (flag : Flag)
  | unexpectedValue (flag : Flag) (value : String)
  | repeated (flag : Flag)
  | invalidValue (flag : Flag) (value : String)
  | formulaAndFile
  | noFormula
deriving DecidableEq, Repr

namespace UsageError

/-- The words for an error. -/
def message : UsageError → String
  | unexpected a => s!"unexpected argument '{a}' found"
  | missingValue f => s!"a value is required for '--{f.word}' but none was supplied"
  | unexpectedValue f v => s!"unexpected value '{v}' for '--{f.word}' found; no more were expected"
  | repeated f => s!"the argument '--{f.word}' cannot be used multiple times"
  | invalidValue f v => s!"invalid value '{v}' for '--{f.word}'"
  | formulaAndFile => "the argument '[FORMULA]' cannot be used with '--file'"
  | noFormula => "the following required arguments were not provided:\n  <FORMULA>"

end UsageError

/-- Why reading the arguments stopped. -/
inductive Stop where
  /-- Help was asked for, with its long or its short form. -/
  | help (full : Bool)
  | usage (error : UsageError)
deriving DecidableEq, Repr

/-- Where the formula comes from. -/
inductive FormulaSource where
  | inline (text : String)
  | standardInput
  | file (path : String)
deriving DecidableEq, Repr

/-- What a command is asked to do. -/
structure Options where
  formula : FormulaSource
  tree : TreeKind := .shader
  libraries : List String := []
  format : OutputFormat := .json
  /-- The file to write; without one the text goes to standard output. -/
  output : Option String := none
  name : String := "Formula"
  width : Nat := 1024
  height : Nat := 768
  title : Option String := none
  /-- Whether only errors are reported. -/
  checkOnly : Bool := false
  /-- How often more logging was asked for. -/
  verbosity : Nat := 0
deriving DecidableEq, Repr

namespace Options

/-- A picture size: a 64-bit integer with or without a sign, in the range of 32 bits. -/
def readSize? (text : String) : Option Nat := do
  let (negative, digits) := match text.toList with
    | '+' :: rest => (false, rest)
    | '-' :: rest => (true, rest)
    | rest => (false, rest)
  guard (!digits.isEmpty && digits.all Char.isDigit)
  let n := digits.foldl (fun n c => 10 * n + (c.toNat - '0'.toNat)) 0
  guard (n < 0x100000000 && (!negative || n == 0))
  return n

/-- The options read so far, and what the next argument may be. -/
structure Draft where
  formula : Option String := none
  file : Option String := none
  tree : Option TreeKind := none
  libraries : List String := []
  format : Option OutputFormat := none
  output : Option String := none
  name : Option String := none
  width : Option Nat := none
  height : Option Nat := none
  title : Option String := none
  check : Bool := false
  verbosity : Nat := 0
  /-- The option whose value is the next argument. -/
  pending : Option Flag := none
  /-- Whether only the formula can follow. -/
  ended : Bool := false

namespace Draft

/-- Fill an option that has no value yet. -/
def fill {α : Type} (flag : Flag) (old : Option α) (value : String) (read : String → Option α) :
    Except Stop (Option α) :=
  match old, read value with
  | some _, _ => .error (.usage (.repeated flag))
  | none, none => .error (.usage (.invalidValue flag value))
  | none, some new => .ok (some new)

/-- A path is any text but the empty one. -/
def readPath? (value : String) : Option String :=
  if value.isEmpty then none else some value

/-- Give an option its value. -/
def set (d : Draft) (flag : Flag) (value : String) : Except Stop Draft :=
  match flag with
  | .file => return { d with file := ← fill flag d.file value readPath? }
  | .tree => return { d with tree := ← fill flag d.tree value TreeKind.ofName? }
  | .library => do
    let path ← fill flag none value readPath?
    return { d with libraries := d.libraries ++ path.toList }
  | .format => return { d with format := ← fill flag d.format value OutputFormat.ofName? }
  | .output => return { d with output := ← fill flag d.output value readPath? }
  | .name => return { d with name := ← fill flag d.name value some }
  | .width => return { d with width := ← fill flag d.width value readSize? }
  | .height => return { d with height := ← fill flag d.height value readSize? }
  | .title => return { d with title := ← fill flag d.title value some }
  | .check | .verbose | .help => .error (.usage (.unexpectedValue flag value))

/-- Take note of an option without a value. -/
def mark (d : Draft) (flag : Flag) (full : Bool) : Except Stop Draft :=
  match flag with
  | .check => if d.check then .error (.usage (.repeated flag)) else .ok { d with check := true }
  | .verbose => .ok { d with verbosity := d.verbosity + 1 }
  | .help => .error (.help full)
  | _ => .ok { d with pending := some flag }

/-- Take the formula. -/
def place (d : Draft) (text : String) : Except Stop Draft :=
  match d.formula with
  | some _ => .error (.usage (.unexpected text))
  | none => .ok { d with formula := some text }

/-- Read an option with a long name, with the value after its equals sign if there is one. -/
def readWord (d : Draft) (word : String) (value : Option String) : Except Stop Draft :=
  match Flag.ofWord? word, value with
  | none, _ => .error (.usage (.unexpected s!"--{word}"))
  | some flag, some v => d.set flag v
  | some flag, none => d.mark flag true

/-- Read options given by their letters. The first one that has a value takes what follows it. -/
def readLetters (d : Draft) : List Char → Except Stop Draft
  | [] => .ok d
  | c :: rest =>
    match Flag.ofLetter? c with
    | none => .error (.usage (.unexpected s!"-{c}"))
    | some flag =>
      if flag.takesValue then
        match rest with
        | [] => .ok { d with pending := some flag }
        | '=' :: value => d.set flag (String.ofList value)
        | value => d.set flag (String.ofList value)
      else do
        readLetters (← d.mark flag false) rest

/-- Split the text of an option at its first equals sign. -/
def splitValue (text : List Char) : String × Option String :=
  let word := text.takeWhile (· != '=')
  (String.ofList word, match text.drop word.length with
    | [] => none
    | _ :: value => some (String.ofList value))

/-- Read one argument. -/
def step (d : Draft) (argument : String) : Except Stop Draft :=
  if d.ended then d.place argument
  else
    match argument.toList, d.pending with
    | '-' :: _ :: _, some flag => .error (.usage (.missingValue flag))
    | ['-', '-'], none => .ok { d with ended := true }
    | '-' :: '-' :: text, none => let (word, value) := splitValue text; d.readWord word value
    | '-' :: c :: letters, none => d.readLetters (c :: letters)
    | _, some flag => { d with pending := none }.set flag argument
    | _, none => d.place argument

/-- The options once all arguments are read. The tree's kind may come from the environment. -/
def finish (d : Draft) (tree : Option String) : Except Stop Options := do
  if let some flag := d.pending then throw (.usage (.missingValue flag))
  let kind ← match d.tree, tree with
    | none, some name => fill .tree none name TreeKind.ofName?
    | kind, _ => pure kind
  let formula ← match d.formula, d.file with
    | some _, some _ => throw (.usage .formulaAndFile)
    | none, none => throw (.usage .noFormula)
    | some text, none => pure (.inline text)
    | none, some path => pure (if path == "-" then .standardInput else .file path)
  return {
    formula
    tree := kind.getD .shader
    libraries := d.libraries
    format := d.format.getD .json
    output := d.output
    name := d.name.getD "Formula"
    width := d.width.getD 1024
    height := d.height.getD 768
    title := d.title
    checkOnly := d.check
    verbosity := d.verbosity }

end Draft

/-- Read the arguments, and the tree's kind that the environment gives. -/
def parse (arguments : List String) (tree : Option String) : Except Stop Options := do
  (← arguments.foldlM Draft.step {}).finish tree

end Options

end NodeFormula

import NodeFormula.CommandLine.Options

/-!
# Help text

The short help has one line for each option. The full help gives each option a paragraph and says
what the formats hold.
-/

namespace NodeFormula

namespace Flag

/-- What an option is for. -/
def purpose (full : Bool) : Flag → String
  | file => "Read the formula from a file (`-` for stdin)"
  | tree => "Tree type: shader or geometry"
  | library => "File with definitions to make available (repeatable)"
  | format => "Output format"
  | output => "Write to a file instead of stdout"
  | name => "Name of the main tree"
  | width => "Diagram width in pixels"
  | height => "Diagram height in pixels"
  | title => "Diagram title (defaults to the tree name)"
  | check => "Only report diagnostics"
  | verbose => "More logging (-v, -vv)"
  | help => if full then "Print help (see a summary with '-h')"
      else "Print help (see more with '--help')"

/-- An option with its letter and the place of its value. -/
def form (f : Flag) : String :=
  let start := match f.letter? with
    | some c => s!"  -{c}, "
    | none => "      "
  let value := match f with
    | verbose => "..."
    | _ => if f.takesValue then s!" <{f.word.toUpper}>" else ""
  start ++ "--" ++ f.word ++ value

/-- What holds for an option that is not given. -/
def notes (tree : Option String) : Flag → List String
  | .tree => ["[env: MATHFORMULA_TREE=" ++ tree.getD "" ++ "]", "[default: shader]"]
  | format => ["[default: json]"]
  | name => ["[default: Formula]"]
  | width => ["[default: 1024]"]
  | height => ["[default: 768]"]
  | _ => []

end Flag

namespace Help

/-- What the command does and how it is called. -/
def opening : String :=
  "Compile math formulas into shader and geometry node trees\n\n" ++
  "Usage: mathformula [OPTIONS] [FORMULA]\n\nArguments:\n"

/-- What the formula argument is for. -/
def formulaPurpose : String := "Formula text, e.g. \"x = sin(t) * 2;\""

/-- One line for each option. -/
def short (tree : Option String) : String :=
  let column := (Flag.all.map fun f => f.form.length).foldl max 0 + 2
  let line := fun f : Flag =>
    let values := match f with
      | .format =>
        ["[possible values: " ++ String.intercalate ", " (OutputFormat.all.map (·.2.1)) ++ "]"]
      | _ => []
    f.form ++ "".pushn ' ' (column - f.form.length) ++
      String.intercalate " " (f.purpose false :: f.notes tree ++ values)
  opening ++ "  [FORMULA]  " ++ formulaPurpose ++ "\n\nOptions:\n" ++
    String.join (Flag.all.map fun f => line f ++ "\n")

/-- A paragraph for each option. -/
def long (tree : Option String) : String :=
  let margin := "          "
  let values := String.join (OutputFormat.all.map fun f =>
    "\n" ++ margin ++ "- " ++ f.2.1 ++ ": " ++ f.2.2)
  let paragraph := fun f : Flag =>
    let notes := match f.notes tree with
      | [] => ""
      | notes => s!"\n{margin}" ++ String.join (notes.map fun n => s!"\n{margin}{n}")
    let values := match f with
      | .format => s!"\n\n{margin}Possible values:{values}"
      | _ => ""
    f.form ++ "\n" ++ margin ++ f.purpose true ++ notes ++ values ++ "\n"
  opening ++ "  [FORMULA]\n" ++ margin ++ formulaPurpose ++ "\n\nOptions:\n" ++
    String.intercalate "\n" (Flag.all.map paragraph)

end Help

end NodeFormula

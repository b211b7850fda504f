import NodeFormula.Source.Span

/-!
# Lines, columns and excerpts

Where an offset stands in a text, and the text of an error shown under the line it is in. An offset
inside a character counts as the start of that character, and one past the end as the end.
-/

namespace NodeFormula

/-- An error at a place of a source. -/
structure SourceError where
  message : String
  span : Span
deriving DecidableEq, Repr

namespace Excerpt

/-- The characters that lie wholly in the first `n` bytes, and the others. -/
def splitBytes : Nat → List Char → List Char × List Char
  | _, [] => ([], [])
  | n, c :: cs =>
    if c.utf8Size ≤ n then
      let (taken, left) := splitBytes (n - c.utf8Size) cs
      (c :: taken, left)
    else ([], c :: cs)

theorem splitBytes_append (n : Nat) (cs : List Char) :
    (splitBytes n cs).1 ++ (splitBytes n cs).2 = cs := by
  induction cs generalizing n with
  | nil => rfl
  | cons c cs ih =>
    rw [splitBytes]
    split
    · simp [ih]
    · rfl

/-- What follows the last line break. -/
def lastLine (cs : List Char) : List Char := (cs.reverse.takeWhile (· != '\n')).reverse

/-- What precedes the first line break. -/
def firstLine (cs : List Char) : List Char := cs.takeWhile (· != '\n')

/-- The line of the character after `before`, counted from one. -/
def line (before : List Char) : Nat := before.count '\n' + 1

/-- The column of the character after `before`, counted in characters from one. -/
def column (before : List Char) : Nat := (lastLine before).length + 1

/-- The line and column of a byte offset. -/
def lineColumn (source : String) (offset : Nat) : Nat × Nat :=
  let before := (splitBytes offset source.toList).1
  (line before, column before)

/-- How many carets mark a span whose start is followed by `after` and is at byte `start`: one for
each character up to the end of the span or of the line, and at least one. -/
def caretCount (after : List Char) (start stop : Nat) : Nat :=
  max 1 (splitBytes (stop - start) (firstLine after)).1.length

/-- An error with its place and its line, marked by carets. -/
def render (source file : String) (error : SourceError) : String :=
  let (before, after) := splitBytes error.span.start source.toList
  let row := line before
  let col := column before
  let text := String.ofList (lastLine before ++ firstLine after)
  let carets := caretCount after (utf8Length before) error.span.stop
  let margin := String.ofList (List.replicate (toString row).length ' ')
  let mark := String.ofList (List.replicate (col - 1) ' ' ++ List.replicate carets '^')
  s!"error: {error.message}\n{margin}--> {file}:{row}:{col}\n{margin} |\n{row} | {text}\n" ++
    s!"{margin} | {mark}\n"

end Excerpt

end NodeFormula

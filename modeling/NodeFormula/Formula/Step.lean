import NodeFormula.Source.Cursor
import NodeFormula.Source.Excerpt

/-!
# Reading steps

A reading step from a cursor either fails or gives a value and a later cursor. A failure is soft, so
that another reading of the same place may be tried, or final. It keeps a note of where reading stopped
and, from the inside out, of each expectation and each choice around that place. What it reports is the
innermost expectation.
-/

namespace NodeFormula

/-- What a source should hold at some place. -/
inductive Expectation where
  | expression
  | closeParen
  | closeBrace
  | openParen
  | openBrace
  | fieldName
  | vectorSize
  | namedCall
  | intRange
  | statement
  | semicolon
  | functionName
  | parameterName
  | typeMark
  | typeName
  | knownType
  | loopBound
  | intBound
  | arrow
deriving DecidableEq, Repr

/-- The words for what was expected. -/
def Expectation.message : Expectation → String
  | expression => "expected an expression"
  | closeParen => "expected ')'"
  | closeBrace => "expected '\x7d'"
  | openParen => "expected '('"
  | openBrace => "expected '\x7b'"
  | fieldName => "expected a field name"
  | vectorSize => "vector literals need 3 or 4 components"
  | namedCall => "only named functions can be called"
  | intRange => "integer literal is too large"
  | statement => "expected a statement"
  | semicolon => "expected ';'"
  | functionName => "expected a function name"
  | parameterName => "expected a parameter name"
  | typeMark => "expected ':' and a type"
  | typeName => "expected a type name"
  | knownType => "unknown type name"
  | loopBound => "expected an integer loop bound"
  | intBound => "loop bounds must be integers"
  | arrow => "expected '->'"

/-- A place that a failure went through, and what was expected there, if that was stated. -/
structure Note where
  place : Cursor
  expected : Option Expectation
deriving DecidableEq, Repr

/-- Why a reading step failed. -/
structure Failure where
  /-- A final failure is not mended by reading the same place in another way. -/
  final : Bool
  /-- Where reading stopped. -/
  origin : Note
  /-- Notes of the readings around the place where reading stopped, from the inside out. -/
  around : List Note

namespace Failure

/-- A soft failure without an expectation. -/
def mismatch (c : Cursor) : Failure := ⟨false, ⟨c, none⟩, []⟩

/-- A final failure. -/
def stop (e : Expectation) (c : Cursor) : Failure := ⟨true, ⟨c, some e⟩, []⟩

/-- A failure inside a reading that adds a note of its own. -/
def within (f : Failure) (n : Note) : Failure := { f with around := f.around ++ [n] }

/-- All notes, from the inside out. -/
def notes (f : Failure) : List Note := f.origin :: f.around

/-- The note to report: the innermost that states an expectation, or that of where reading stopped. -/
def reported (f : Failure) : Note := (f.notes.find? (·.expected.isSome)).getD f.origin

/-- The innermost expectation, if one was stated. -/
def expected (f : Failure) : Option Expectation := f.reported.expected

/-- Where the innermost expectation was stated, or where reading stopped. -/
def place (f : Failure) : Cursor := f.reported.place

/-- The failure as an error of the source: what was expected, and the first character after white
space that was found instead. -/
def toError (f : Failure) : SourceError :=
  let message := match f.expected with
    | some e => e.message
    | none => "invalid syntax"
  let found := f.place.trim
  match found.rest with
  | [] => ⟨s!"{message}, found end of input", ⟨found.offset, found.offset⟩⟩
  | c :: _ => ⟨s!"{message}, found '{c}'", ⟨found.offset, found.offset + c.utf8Size⟩⟩

end Failure

/-- A value read at `c`, and the later cursor after it. -/
structure Step (c : Cursor) (α : Type) where
  value : α
  next : Cursor
  later : c < next

/-- A value read at `c` from no or some characters, and the cursor after it. -/
structure Reach (c : Cursor) (α : Type) where
  value : α
  next : Cursor
  reached : c ≤ next

/-- The outcome of reading. -/
abbrev Reading := Except Failure

variable {c d : Cursor} {α β : Type}

/-- A step seen from an earlier cursor. -/
def Step.since (s : Step d α) (h : c ≤ d) : Step c α :=
  ⟨s.value, s.next, Cursor.lt_of_le_of_lt h s.later⟩

/-- A step with its value changed. -/
def Step.map (s : Step c α) (f : α → β) : Step c β := ⟨f s.value, s.next, s.later⟩

/-- A step followed by a step, with the value of the second. -/
def Step.andThen (s : Step c α) (t : Step s.next β) : Step c β :=
  ⟨t.value, t.next, Cursor.lt_trans s.later t.later⟩

/-- A step followed by an optional part, with the value of that part. -/
def Step.extend (s : Step c α) (r : Reach s.next β) : Step c β :=
  ⟨r.value, r.next, Cursor.lt_of_lt_of_le s.later r.reached⟩

/-- A step as an optional part. -/
def Step.reach (s : Step c α) : Reach c α := ⟨s.value, s.next, Cursor.le_of_lt s.later⟩

/-- Nothing read. -/
def Reach.here (c : Cursor) (value : α) : Reach c α := ⟨value, c, Cursor.le_refl c⟩

/-- An optional part with its value changed. -/
def Reach.map (r : Reach c α) (f : α → β) : Reach c β := ⟨f r.value, r.next, r.reached⟩

/-- An optional part followed by a step, with the value of the step. -/
def Reach.andThen (r : Reach c α) (s : Step r.next β) : Step c β :=
  ⟨s.value, s.next, Cursor.lt_of_le_of_lt r.reached s.later⟩

theorem Step.lt_next {base : Cursor} (s : Step c α) (h : base ≤ c) : base < s.next :=
  Cursor.lt_of_le_of_lt h s.later

theorem Step.le_next {base : Cursor} (s : Step c α) (h : base ≤ c) : base ≤ s.next :=
  Cursor.le_of_lt (s.lt_next h)

namespace Reading

/-- Name what was expected at `c`. A more precise expectation that is named already is reported. -/
def expecting (e : Expectation) (r : Reading (Step c α)) : Reading (Step c α) :=
  match r with
  | .error f => .error (f.within ⟨c, some e⟩)
  | .ok s => .ok s

/-- Make a failure final. -/
def commit (r : Reading α) : Reading α :=
  match r with
  | .error f => .error { f with final := true }
  | .ok s => .ok s

/-- Try another reading after a soft failure. -/
def orElse (r : Reading (Step c α)) (other : Unit → Reading (Step c α)) : Reading (Step c α) :=
  match r with
  | .error f => if f.final then .error f else other ()
  | .ok s => .ok s

/-- A choice between several readings at `c`. That none of them was possible is noted. -/
def choice (r : Reading (Step c α)) : Reading (Step c α) :=
  match r with
  | .error f => .error (if f.final then f else f.within ⟨c, none⟩)
  | .ok s => .ok s

/-- An optional part: a soft failure reads nothing. -/
def optional (r : Reading (Step c α)) : Reading (Reach c (Option α)) :=
  match r with
  | .error f => if f.final then .error f else .ok (Reach.here c none)
  | .ok s => .ok (s.map some).reach

end Reading

end NodeFormula

import NodeFormula.Formula.Expression

/-!
# Reading statements

Simple statements end in a semicolon; definitions, loops and repeat zones end in a block. As with
expressions, the reader of inner statements is an argument that may be used after the start of the
statement only, and `statement` closes the circle.
-/

namespace NodeFormula.Statement

open Token Expression

/-- A reader of statements that may be used after `base`. -/
abbrev StmtAfter (base : Cursor) := (d : Cursor) → base < d → Reading (Step d Stmt)

/-- `=` where it does not start `==`. -/
def assignMark (c : Cursor) : Reading (Step c Unit) := charNotBefore '=' '=' c

/-! ### Simple statements -/

/-- A name that is assigned to, or `_`. -/
def target (c : Cursor) : Reading (Step c Target) := do
  let word ← lexeme name c
  let span := (skipSpace c).spanTo word.next
  return word.map fun n => if n = "_" then .ignore span else .name n span

/-- `targets = value`, where the span is given by the whole statement. -/
def assignment (c : Cursor) : Reading (Step c (Span → Stmt)) := do
  let first ← target c
  let more ← moreItems (fun d (_ : c < d) => target d) first.next (Cursor.le_of_lt first.later)
  let mark ← lexeme assignMark more.next
  let value ← Reading.commit (expression mark.next)
  return ((first.extend more).andThen (mark.andThen value)).map
    (.assign (first.value :: more.value))

/-- `name.field = value`. -/
def fieldAssignment (c : Cursor) : Reading (Step c (Span → Stmt)) := do
  let object ← lexeme name c
  let dot ← lexeme (char '.') object.next
  let field ← lexeme name dot.next
  let mark ← lexeme assignMark field.next
  let value ← Reading.commit (expression mark.next)
  return (object.andThen (dot.andThen (field.andThen (mark.andThen value)))).map
    (.setField object.value field.value)

/-- An assignment, a field assignment or an expression, and its semicolon. -/
def simple (c : Cursor) : Reading (Step c (Span → Stmt)) := do
  let body ← Reading.choice <| Reading.orElse (assignment c) fun _ =>
    Reading.orElse (fieldAssignment c) fun _ => (expression c).map fun s => s.map Stmt.expr
  let mark ← Reading.commit (Reading.expecting .semicolon (lexeme (char ';') body.next))
  return (body.andThen mark).map fun _ => body.value

/-! ### Blocks -/

/-- Statements up to the first place where none can be read. -/
def statements {base : Cursor} (inner : StmtAfter base) (c : Cursor) (h : base < c) :
    Reading (Reach c (List Stmt)) :=
  match inner c h with
  | .error f => if f.final then .error f else .ok (Reach.here c [])
  | .ok first => do
    have := Cursor.length_lt first.later
    let more ← statements inner first.next (first.lt_next (Cursor.le_of_lt h))
    return (first.extend (more.map (first.value :: ·))).reach
termination_by c.rest.length

/-- Statements in braces. -/
def block {base : Cursor} (inner : StmtAfter base) (c : Cursor) (h : base ≤ c) :
    Reading (Step c (List Stmt)) := do
  let opened ← Reading.expecting .openBrace (lexeme (char '\x7b') c)
  let body ← statements inner opened.next (opened.lt_next h)
  let closed ← Reading.commit (Reading.expecting .closeBrace (lexeme (char '\x7d') body.next))
  return ((opened.extend body).andThen closed).map fun _ => body.value

/-! ### Definitions -/

/-- The name of a type. -/
def typeName (c : Cursor) : Reading (Step c SocketType) := do
  let word ← Reading.commit (Reading.expecting .typeName (lexeme name c))
  match SocketType.ofName? word.value with
  | some type => return word.map fun _ => type
  | none => throw (.stop .knownType c)

/-- `= value`. -/
def defaultValue (c : Cursor) : Reading (Step c Expr) := do
  let mark ← lexeme assignMark c
  let value ← Reading.commit (expression mark.next)
  return mark.andThen value

/-- `name: type [= default]` at the very start of the cursor. -/
def parameterHere (c : Cursor) : Reading (Step c Param) := do
  let word ← Reading.expecting .parameterName (name c)
  let colon ← Reading.commit (Reading.expecting .typeMark (lexeme (char ':') word.next))
  let type ← typeName colon.next
  let preset ← (defaultValue type.next).optional
  return ((word.andThen (colon.andThen type)).extend preset).map fun value =>
    ⟨word.value, type.value, value, c.spanTo preset.next⟩

/-- A parameter after space. -/
def parameter (c : Cursor) : Reading (Step c Param) :=
  (parameterHere (skipSpace c)).map fun s => s.since (le_skipSpace c)

/-- `-> parameters`. -/
def outputs (c : Cursor) : Reading (Step c (List Param)) := do
  let arrow ← lexeme (pair '-' '>') c
  let list ← Reading.commit (items (fun d (_ : c < d) => parameter d) arrow.next arrow.later)
  return arrow.andThen list

/-- The keyword of a definition. -/
def defKeyword (c : Cursor) : Reading (Step c DefKind) :=
  Reading.choice <|
    Reading.orElse ((keyword "fn" c).map fun s => s.map fun _ => DefKind.function) fun _ =>
      (keyword "ng" c).map fun s => s.map fun _ => DefKind.group

/-- `fn name(inputs) -> outputs { ... }`, or the same with `ng`. -/
def definition {base : Cursor} (inner : StmtAfter base) (c : Cursor) (h : base ≤ c) :
    Reading (Step c (Span → Stmt)) := do
  let kind ← defKeyword c
  let word ← Reading.commit (Reading.expecting .functionName (lexeme name kind.next))
  let opened ← Reading.commit (Reading.expecting .openParen (lexeme (char '(') word.next))
  let params ← optionalItems (fun d (_ : word.next < d) => parameter d) opened.next opened.later
  let closed ← Reading.commit (Reading.expecting .closeParen (lexeme (char ')') params.next))
  let results ← (outputs closed.next).optional
  let head := (kind.andThen (word.andThen ((opened.extend params).andThen closed))).extend results
  let body ← Reading.commit (block inner head.next (head.le_next h))
  let header : Header := ⟨kind.value, word.value, params.value, results.value.getD []⟩
  return (head.andThen body).map (.define header)

/-! ### Loops and repeat zones -/

/-- An integer with an optional sign, at the very start of the cursor. -/
def boundHere (c : Cursor) : Reading (Step c Int64) := do
  let minus ← (char '-' c).optional
  let digits ← Reading.expecting .loopBound (number minus.next)
  match digits.value with
  | .int n => return (minus.andThen digits).map fun _ => if minus.value.isSome then -n else n
  | .float _ => throw (.stop .intBound c)

/-- A loop bound after space. -/
def bound (c : Cursor) : Reading (Step c Int64) :=
  (boundHere (skipSpace c)).map fun s => s.since (le_skipSpace c)

/-- `name =` before the bounds of a loop. -/
def counter (c : Cursor) : Reading (Step c String) := do
  let word ← lexeme name c
  let mark ← lexeme assignMark word.next
  return (word.andThen mark).map fun _ => word.value

/-- `loop [name =] first -> last { ... }`. -/
def loop {base : Cursor} (inner : StmtAfter base) (c : Cursor) (h : base ≤ c) :
    Reading (Step c (Span → Stmt)) := do
  let word ← keyword "loop" c
  let index ← (counter word.next).optional
  let first ← Reading.commit (bound index.next)
  let arrow ← Reading.commit (Reading.expecting .arrow (lexeme (pair '-' '>') first.next))
  let last ← Reading.commit (bound arrow.next)
  let head := (word.extend index).andThen (first.andThen (arrow.andThen last))
  let body ← Reading.commit (block inner head.next (head.le_next h))
  return (head.andThen body).map (.loop index.value first.value last.value)

/-- `repeat count { ... }`. -/
def zone {base : Cursor} (inner : StmtAfter base) (c : Cursor) (h : base ≤ c) :
    Reading (Step c (Span → Stmt)) := do
  let word ← keyword "repeat" c
  let count ← Reading.commit (expression word.next)
  let head := word.andThen count
  let body ← Reading.commit (block inner head.next (head.le_next h))
  return (head.andThen body).map (.zone count.value)

/-! ### Statements and programs -/

/-- A statement at the very start of the cursor. -/
def statementHere {base : Cursor} (inner : StmtAfter base) (c : Cursor) (h : base ≤ c) :
    Reading (Step c Stmt) := do
  let body ← Reading.choice <| Reading.orElse (definition inner c h) fun _ =>
    Reading.orElse (loop inner c h) fun _ => Reading.orElse (zone inner c h) fun _ => simple c
  return body.map fun stmt => stmt (c.spanTo body.next)

/-- A statement after space. -/
def statement (c : Cursor) : Reading (Step c Stmt) :=
  (statementHere (fun d (_ : c < d) => statement d) (skipSpace c) (le_skipSpace c)).map fun s =>
    s.since (le_skipSpace c)
termination_by c.rest.length
decreasing_by exact Cursor.length_lt ‹_›

/-- All statements of a source. -/
def allStatements (c : Cursor) : Reading (Reach c (List Stmt)) :=
  match statement c with
  | .error f => if f.final then .error f else .ok (Reach.here c [])
  | .ok first => do
    have := Cursor.length_lt first.later
    let more ← allStatements first.next
    return (first.extend (more.map (first.value :: ·))).reach
termination_by c.rest.length

/-- A whole source: statements, and nothing after them. -/
def program (c : Cursor) : Reading Program := do
  let body ← allStatements c
  match (skipSpace body.next).rest with
  | [] => return ⟨body.value⟩
  | _ :: _ => throw ((Failure.mismatch (skipSpace body.next)).within ⟨body.next, some .statement⟩)

end NodeFormula.Statement

namespace NodeFormula

/-- Read a source. The error says what was expected and what was found instead. -/
def Program.parse (source : String) : Except SourceError Program :=
  (Statement.program (Cursor.ofString source)).mapError Failure.toError

end NodeFormula

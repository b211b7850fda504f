import NodeFormula.Proofs.Parsing.Statement
import NodeFormula.Proofs.Spans.Expectations

/-!
# Reading makes progress

A reader that succeeds leaves a shorter rest of its input, and one that fails points into its input
(`Reading.Progresses`). Cursors carry their offset along; it is always the number of bytes before the
rest, so the bytes of a rest are never more than those of the source (`Cursor.In`).

The second part is about recursion. A reader that calls itself is given as the result of one round,
with its own calls left open, and the round is unrolled a number of times. If every round goes on with
a shorter rest only, then more rounds than there are characters make no difference, whatever stands for
the calls from the last round (`Recursion.Ends`). Blocks and sources are read by a loop that would stop
with a failure of its own after a round without progress. Its result is that of the loop without this
guard, so it never does.
-/

namespace NodeFormula

open Token

/-! ### Places of a source -/

namespace Cursor

/-- The cursor before a rest of a source. -/
def ofRest (source : String) (rest : List Char) : Cursor :=
  ⟨source.utf8ByteSize - utf8Length rest, rest⟩

/-- A cursor is in a source: its rest is one of the source, and its offset is the number of bytes before
it, which is a difference without underflow. -/
structure In (source : String) (c : Cursor) : Prop where
  suffix : c.rest <:+ source.toList
  le_size : utf8Length c.rest ≤ source.utf8ByteSize
  eq_ofRest : c = ofRest source c.rest

variable {source : String} {c d : Cursor}

theorem rest_suffix (h : c ≤ d) : d.rest <:+ c.rest := by
  obtain ⟨s, hs, -⟩ := h
  exact ⟨s, hs.symm⟩

theorem in_of_le (h : ofString source ≤ c) : In source c := by
  obtain ⟨s, hs, ho⟩ := id h
  have hsize : source.utf8ByteSize = utf8Length s + utf8Length c.rest := by
    rw [← utf8Length_toList, ← utf8Length_append, ← hs]
    rfl
  have hoffset : c.offset = source.utf8ByteSize - utf8Length c.rest := by
    rw [hsize, Nat.add_sub_cancel, ho]
    exact Nat.zero_add _
  refine ⟨rest_suffix h, by omega, ?_⟩
  rw [ofRest, ← hoffset]

theorem le_ofRest {rest : List Char} (h : rest <:+ source.toList) :
    ofString source ≤ ofRest source rest := by
  obtain ⟨s, hs⟩ := h
  refine ⟨s, hs.symm, ?_⟩
  have hsize : source.utf8ByteSize = utf8Length s + utf8Length rest := by
    rw [← utf8Length_toList, ← utf8Length_append, hs]
  simp only [ofRest, ofString]
  omega

end Cursor

/-! ### Progress -/

/-- What a reading from a cursor of a source does. If it succeeds, then the rest after it is a strictly
shorter rest of its input. If it fails, then all places that it notes are in its input, also after the
white space there that an error skips. All of these are cursors of the source. -/
structure Reading.Progresses {α : Type} {c : Cursor} (source : String) (r : Reading (Step c α)) :
    Prop where
  succeeds : ∀ s, r = .ok s → s.next.rest <:+ c.rest ∧ s.next.rest.length < c.rest.length ∧
    s.next.In source
  fails : ∀ f, r = .error f → ∀ n ∈ f.notes, n.place.rest <:+ c.rest ∧ n.place.In source ∧
    n.place.trim.In source

/-- A reading that fails from its cursor on makes progress: where it succeeds the rest is shorter by
construction, and where it fails the place is one of the source. -/
theorem Reading.FailsFrom.progresses {α : Type} {c : Cursor} {source : String}
    {r : Reading (Step c α)} (hr : r.FailsFrom c) (hc : Cursor.ofString source ≤ c) :
    r.Progresses source where
  succeeds s _ := by
    have hle := Cursor.le_of_lt s.later
    exact ⟨Cursor.rest_suffix hle, Cursor.length_lt s.later, Cursor.in_of_le (Cursor.le_trans hc hle)⟩
  fails f hf n hn := by
    have hle := hr f hf n hn
    have hplace := Cursor.le_trans hc hle
    exact ⟨Cursor.rest_suffix hle, Cursor.in_of_le hplace,
      Cursor.in_of_le (Cursor.le_trans hplace n.place.le_trim)⟩

/-! ### Recursion -/

namespace Recursion

variable {P : Cursor → Prop} {β : Cursor → Type}
  {round : ((c : Cursor) → P c → β c) → (c : Cursor) → P c → β c} {f : (c : Cursor) → P c → β c}

/-- A recursion unrolled `n` rounds deep, with `deeper` for the calls of the last round. -/
def unroll (round : ((c : Cursor) → P c → β c) → (c : Cursor) → P c → β c)
    (deeper : (c : Cursor) → P c → β c) : Nat → (c : Cursor) → P c → β c
  | 0 => deeper
  | n + 1 => round (unroll round deeper n)

/-- A recursion ends with the results of `f`: its calls are no more levels deep than there are
characters to read, so it does not matter what stands for deeper calls. -/
def Ends (round : ((c : Cursor) → P c → β c) → (c : Cursor) → P c → β c)
    (f : (c : Cursor) → P c → β c) : Prop :=
  ∀ (deeper : (c : Cursor) → P c → β c) (c : Cursor) (h : P c) (n : Nat), c.rest.length < n →
    unroll round deeper n c h = f c h

/-- A recursion ends if each round calls for later cursors only. The induction is on the length of
the rest, which is shorter for a later cursor. -/
theorem ends_of_later
    (hround : ∀ g k c h, (∀ d hd, c < d → g d hd = k d hd) → round g c h = round k c h)
    (hf : ∀ c h, f c h = round f c h) : Ends round f := by
  intro deeper c h n
  induction n generalizing c with
  | zero => exact fun hn => absurd hn (Nat.not_lt_zero _)
  | succ n ih =>
    intro hn
    rw [unroll, hf]
    refine hround _ _ c h fun d hd hlt => ih d hd ?_
    have := Cursor.length_lt hlt
    omega

end Recursion

open Recursion

/-- One round of `skipSpace`. -/
def Token.skipSpaceRound (again : (c : Cursor) → True → Cursor) (c : Cursor) (_ : True) : Cursor :=
  match c.rest with
  | [] => c
  | x :: rest =>
    if spaceChar x then again (c.after [x] rest) trivial
    else if x = '#' ∧ endsComment (rest.dropWhile commentChar) then
      again (c.after (x :: rest.takeWhile commentChar) (rest.dropWhile commentChar)) trivial
    else c

/-- Skipping space ends. Each round drops a separator or a comment, and goes on from a later
cursor. -/
theorem Token.skipSpace_ends : Ends skipSpaceRound fun c _ => skipSpace c := by
  refine ends_of_later (fun g k c h heq => ?_) fun c h => ?_
  · unfold skipSpaceRound
    split
    next => rfl
    next x rest hx =>
      rw [heq _ _ (Cursor.lt_after hx (by simp)), heq _ _ (Cursor.lt_after (by simp [hx]) (by simp))]
  · rw [skipSpace, skipSpaceRound]
    split
    next h => rw [h]
    next x rest h => rw [h]

/-! ### Loops and recursions of expressions -/

namespace Expression

variable {base : Cursor}

/-- One round of `moreItems`. -/
def moreItemsRound {base : Cursor} {α : Type} (item : (d : Cursor) → base < d → Reading (Step d α))
    (again : (d : Cursor) → base ≤ d → Reading (Reach d (List α))) (c : Cursor) (h : base ≤ c) :
    Reading (Reach c (List α)) :=
  match lexeme (char ',') c with
  | .error _ => .ok (Reach.here c [])
  | .ok comma =>
    match item comma.next (comma.lt_next h) with
    | .error f => if f.final then .error f else .ok (Reach.here c [])
    | .ok first => do
      let taken := comma.andThen first
      let more ← again taken.next (taken.le_next h)
      return (taken.extend (more.map (taken.value :: ·))).reach

/-- Reading the further items of a list ends, whatever reads an item. Each round reads at least a
comma. -/
theorem moreItems_ends {α : Type} (item : (d : Cursor) → base < d → Reading (Step d α)) :
    Ends (moreItemsRound item) (moreItems item) := by
  refine ends_of_later (fun g k c h heq => ?_) fun c h => by rw [moreItems]; rfl
  unfold moreItemsRound
  split
  next => rfl
  next comma _ =>
    split
    next => rfl
    next first _ => simp only [heq _ _ (comma.andThen first).later]

/-- One round of `suffixes`. -/
def suffixesRound {base : Cursor} (inner : After base)
    (again : (d : Cursor) → base ≤ d → Expr → Reading (Reach d Expr)) (c : Cursor) (h : base ≤ c)
    (e : Expr) : Reading (Reach c Expr) := do
  match ← suffix inner e c h with
  | none => return Reach.here c e
  | some s =>
    let more ← again s.next (s.le_next h) s.value
    return (s.extend more).reach

/-- Reading calls and members ends, as each of them has at least its mark. -/
theorem suffixes_ends (inner : After base) :
    Ends (suffixesRound inner) fun c h e => suffixes inner e c h := by
  refine ends_of_later (fun g k c h heq => funext fun e => ?_) fun c h => funext fun e => ?_
  · unfold suffixesRound
    refine bind_congr fun found => ?_
    cases found with
    | none => rfl
    | some s => simp only [heq _ _ s.later]
  · rw [suffixes]
    rfl

/-- One round of `unary`. -/
def unaryRound {base : Cursor} (inner : After base) (again : From base) : From base := fun c h =>
  match lexeme (char '-') c with
  | .ok minus => do
    let operand ← Reading.commit (again minus.next (minus.le_next h))
    return (minus.andThen operand).map fun e => .unary .neg e ⟨(skipSpace c).offset, e.span.stop⟩
  | .error _ => do
    let first ← postfixed inner c h
    match lexeme (pair '*' '*') first.next with
    | .error _ => return first
    | .ok stars =>
      let taken := first.andThen stars
      let exponent ← Reading.commit (again taken.next (taken.le_next h))
      return (taken.andThen exponent).map (.join .pow first.value)

theorem unary_ends (inner : After base) : Ends (unaryRound inner) (unary inner) := by
  refine ends_of_later (fun g k c h heq => ?_) fun c h => by rw [unary]; rfl
  unfold unaryRound
  split
  next minus _ => simp only [heq _ _ minus.later]
  next =>
    refine bind_congr fun first => ?_
    split
    next => rfl
    next stars _ => simp only [heq _ _ (first.andThen stars).later]

/-- One round of `moreOperands`. -/
def moreOperandsRound {base : Cursor} (operator : OperatorReader) (operand : From base)
    (again : (d : Cursor) → base ≤ d → Expr → Reading (Reach d Expr)) (c : Cursor) (h : base ≤ c)
    (left : Expr) : Reading (Reach c Expr) :=
  match lexeme operator c with
  | .error _ => .ok (Reach.here c left)
  | .ok op => do
    let right ← Reading.commit (operand op.next (op.le_next h))
    let taken := op.andThen right
    let more ← again taken.next (taken.le_next h) (.join op.value left right.value)
    return (taken.extend more).reach

/-- Reading further operands ends, whatever reads an operator and an operand. Each round reads at
least the operator. -/
theorem moreOperands_ends (operator : OperatorReader) (operand : From base) :
    Ends (moreOperandsRound operator operand) fun c h left =>
      moreOperands operator operand left c h := by
  refine ends_of_later (fun g k c h heq => funext fun left => ?_) fun c h => funext fun left => ?_
  · unfold moreOperandsRound
    split
    next => rfl
    next op _ =>
      refine bind_congr fun right => ?_
      simp only [heq _ _ (op.andThen right).later]
  · rw [moreOperands]
    rfl

theorem le_skipSpace_of_le {c : Cursor} (h : base ≤ c) : base ≤ skipSpace c :=
  Cursor.le_trans h (le_skipSpace c)

/-- One round of `negation`. -/
def negationRound {base : Cursor} (inner : After base) (again : From base) : From base := fun c h =>
  match lexeme (keyword "not") c with
  | .ok word => do
    let operand ← Reading.commit (again word.next (word.le_next h))
    return (word.andThen operand).map fun e => .unary .not e ⟨(skipSpace c).offset, e.span.stop⟩
  | .error _ =>
    (comparison inner (skipSpace c) (le_skipSpace_of_le h)).map fun s => s.since (le_skipSpace c)

theorem negation_ends (inner : After base) : Ends (negationRound inner) (negation inner) := by
  refine ends_of_later (fun g k c h heq => ?_) fun c h => by rw [negation]; rfl
  unfold negationRound
  split
  next word _ => simp only [heq _ _ word.later]
  next => rfl

/-- One round of `expression`: parentheses, vectors and arguments hold expressions again. -/
def expressionRound (again : (d : Cursor) → True → Reading (Step d Expr)) (c : Cursor) (_ : True) :
    Reading (Step c Expr) :=
  disjunction (fun d (_ : c < d) => again d trivial) c (Cursor.le_refl c)

theorem expression_ends : Ends expressionRound fun c _ => expression c := by
  refine ends_of_later (fun g k c h heq => ?_) fun c h => by rw [expression]; rfl
  have hinner : (fun d (_ : c < d) => g d trivial) = fun d (_ : c < d) => k d trivial :=
    funext fun d => funext fun hlt => heq d trivial hlt
  simp only [expressionRound, hinner]

/-- The levels of expressions from the weakest to the strongest, calls and members and primary
expressions last. -/
def levels : List ((base : Cursor) → After base → From base) :=
  [fun _ => disjunction, fun _ => conjunction, fun _ => negation, fun _ => comparison, fun _ => sum,
    fun _ => product, fun _ => unary, fun _ => postfixed, fun _ => primary]

/-- Every level of the grammar of expressions fails from its cursor on, when it reads inner
expressions as the grammar does. -/
theorem level_failsFrom {level : (base : Cursor) → After base → From base} (hl : level ∈ levels)
    (c : Cursor) : (level c (inside c) c (Cursor.le_refl c)).FailsFrom c := by
  have hinner : ∀ d (_ : c < d), (expression d).FailsFrom d := fun d _ => expression_failsFrom d
  have hunary : ∀ d (h : c ≤ d), (unary (inside c) d h).FailsFrom d := fun _ => unary_failsFrom hinner
  have hnegation : ∀ d (h : c ≤ d), (negation (inside c) d h).FailsFrom d := fun _ =>
    negation_failsFrom hinner
  simp only [levels, List.mem_cons, List.not_mem_nil, or_false] at hl
  rcases hl with rfl | rfl | rfl | rfl | rfl | rfl | rfl | rfl | rfl
  · exact chain_failsFrom (fun _ h => chain_failsFrom hnegation h) _
  · exact chain_failsFrom hnegation _
  · exact hnegation c _
  · exact comparison_failsFrom hinner _
  · exact sum_failsFrom hinner _
  · exact chain_failsFrom hunary _
  · exact hunary c _
  · exact postfixed_failsFrom hinner _
  · exact primary_failsFrom hinner _

end Expression

/-! ### Loops and recursions of statements -/

namespace Statement

open Expression

variable {base c : Cursor}

/-- One round of a loop over statements, of which the first is read by `r`. A statement without
characters would stop the loop with the failure `stuck`. -/
def loopRound (stuck : Failure) (r : Reading (Step c Stmt))
    (again : (s : Step c Stmt) → Reading (Reach s.next (List Stmt))) :
    Reading (Reach c (List Stmt)) :=
  match r with
  | .error f => if f.final then .error f else .ok (Reach.here c [])
  | .ok first =>
    if utf8Length first.next.rest = utf8Length c.rest then .error stuck
    else do
      let more ← again first
      return (first.extend (more.map (first.value :: ·))).reach

/-- A step leaves fewer bytes, so the loop is not stuck after it. -/
theorem utf8Length_ne_of_step {α : Type} (s : Step c α) :
    utf8Length s.next.rest ≠ utf8Length c.rest := by
  obtain ⟨read, hne, hread, -⟩ := s.later
  have := utf8Length_pos hne
  rw [hread, utf8Length_append]
  omega

theorem loopRound_error (stuck f : Failure)
    (again : (s : Step c Stmt) → Reading (Reach s.next (List Stmt))) :
    loopRound stuck (.error f) again = if f.final then .error f else .ok (Reach.here c []) := rfl

theorem loopRound_ok (stuck : Failure) (s : Step c Stmt)
    (again : (s : Step c Stmt) → Reading (Reach s.next (List Stmt))) :
    loopRound stuck (.ok s) again =
      again s >>= fun more => pure (s.extend (more.map (s.value :: ·))).reach :=
  if_neg (utf8Length_ne_of_step s)

/-- Reading the statements of a block ends, and with the result of the loop that checks for progress
in each round. -/
theorem statements_ends (inner : StmtAfter base) (stuck : Failure) :
    Ends (fun again c (h : base < c) => loopRound stuck (inner c h)
      fun s => again s.next (s.lt_next (Cursor.le_of_lt h))) (statements inner) := by
  refine ends_of_later (fun g k c h heq => ?_) fun c h => ?_
  · have hsame : ∀ s : Step c Stmt, g s.next (s.lt_next (Cursor.le_of_lt h)) =
        k s.next (s.lt_next (Cursor.le_of_lt h)) := fun s => heq _ _ s.later
    simp only [hsame]
  · rw [statements]
    cases inner c h with
    | error f => rw [loopRound_error]
    | ok s => rw [loopRound_ok]

/-- Reading the statements of a source ends, and with the result of the loop that checks for progress
in each round. -/
theorem allStatements_ends (stuck : Failure) :
    Ends (fun again c (_ : True) => loopRound stuck (statement c) fun s => again s.next trivial)
      fun c _ => allStatements c := by
  refine ends_of_later (fun g k c h heq => ?_) fun c h => ?_
  · have hsame : ∀ s : Step c Stmt, g s.next trivial = k s.next trivial := fun s =>
      heq _ _ s.later
    simp only [hsame]
  · rw [allStatements]
    cases statement c with
    | error f => rw [loopRound_error]
    | ok s => rw [loopRound_ok]

/-- One round of `statement`: blocks hold statements again. -/
def statementRound (again : (d : Cursor) → True → Reading (Step d Stmt)) (c : Cursor) (_ : True) :
    Reading (Step c Stmt) :=
  (statementHere (fun d (_ : c < d) => again d trivial) (skipSpace c) (le_skipSpace c)).map fun s =>
    s.since (le_skipSpace c)

theorem statement_ends : Ends statementRound fun c _ => statement c := by
  refine ends_of_later (fun g k c h heq => ?_) fun c h => by rw [statement]; rfl
  have hinner : (fun d (_ : c < d) => g d trivial) = fun d (_ : c < d) => k d trivial :=
    funext fun d => funext fun hlt => heq d trivial hlt
  simp only [statementRound, hinner]

/-- The forms of statements. -/
def forms : List ((base : Cursor) → StmtAfter base → (c : Cursor) → base ≤ c →
    Reading (Step c (Span → Stmt))) :=
  [fun _ => definition, fun _ => loop, fun _ => zone, fun _ _ c _ => simple c]

/-- Every form of a statement fails from its cursor on, when it reads inner statements as the grammar
does. -/
theorem form_failsFrom {form : (base : Cursor) → StmtAfter base → (c : Cursor) → base ≤ c →
    Reading (Step c (Span → Stmt))} (hform : form ∈ forms) (c : Cursor) :
    (form c (within c) c (Cursor.le_refl c)).FailsFrom c := by
  have hinner : ∀ d (_ : c < d), (statement d).FailsFrom d := fun d _ => statement_failsFrom d
  simp only [forms, List.mem_cons, List.not_mem_nil, or_false] at hform
  rcases hform with rfl | rfl | rfl | rfl
  · exact definition_failsFrom hinner _
  · exact loop_failsFrom hinner _
  · exact zone_failsFrom hinner _
  · exact simple_failsFrom c

/-- All loops and recursions of the readers end. The loops over the statements of a block and of a source
end as if they had no guard against rounds without progress. -/
structure ReadersEnd : Prop where
  space : Ends skipSpaceRound fun c _ => skipSpace c
  items : ∀ {base : Cursor} {α : Type} (item : (d : Cursor) → base < d → Reading (Step d α)),
    Ends (moreItemsRound item) (moreItems item)
  suffixLoops : ∀ {base : Cursor} (inner : After base),
    Ends (suffixesRound inner) fun c h e => suffixes inner e c h
  signs : ∀ {base : Cursor} (inner : After base), Ends (unaryRound inner) (unary inner)
  operandLoops : ∀ {base : Cursor} (operator : OperatorReader) (operand : From base),
    Ends (moreOperandsRound operator operand) fun c h left => moreOperands operator operand left c h
  negations : ∀ {base : Cursor} (inner : After base), Ends (negationRound inner) (negation inner)
  expressions : Ends expressionRound fun c _ => expression c
  blockLoops : ∀ {base : Cursor} (inner : StmtAfter base) (stuck : Failure),
    Ends (fun again c (h : base < c) => loopRound stuck (inner c h)
      fun s => again s.next (s.lt_next (Cursor.le_of_lt h))) (statements inner)
  nestedStatements : Ends statementRound fun c _ => statement c
  sourceLoop : ∀ stuck : Failure,
    Ends (fun again c (_ : True) => loopRound stuck (statement c) fun s => again s.next trivial)
      fun c _ => allStatements c

end Statement

open Expression Statement

/-- What the readers do at a place of a source. Every operator level, postfix and primary is one of
`levels`, and every kind of statement one of `forms`. -/
structure ReadersProgress (source : String) (c : Cursor) : Prop where
  place : c.In source
  expressions : (expression c).Progresses source
  operands : ∀ level ∈ levels, (level c (inside c) c (Cursor.le_refl c)).Progresses source
  parameters : (parameter c).Progresses source
  blocks : (block (within c) c (Cursor.le_refl c)).Progresses source
  kinds : ∀ form ∈ forms, (form c (within c) c (Cursor.le_refl c)).Progresses source
  nested : (statement c).Progresses source

/-- From every place of every source, each reader of expressions, parameters, blocks and statements makes
progress, and all loops and recursions end. -/
theorem Program.readers_progress {source : String} {rest : List Char}
    (hrest : rest <:+ source.toList) :
    ReadersProgress source (Cursor.ofRest source rest) ∧ ReadersEnd := by
  have hc : Cursor.ofString source ≤ Cursor.ofRest source rest := Cursor.le_ofRest hrest
  constructor
  · exact ⟨Cursor.in_of_le hc, (expression_failsFrom _).progresses hc,
      fun level hl => (level_failsFrom hl _).progresses hc, (parameter_failsFrom _).progresses hc,
      (block_failsFrom (fun d _ => statement_failsFrom d) _).progresses hc,
      fun form hf => (form_failsFrom hf _).progresses hc, (statement_failsFrom _).progresses hc⟩
  · exact ⟨skipSpace_ends, moreItems_ends, suffixes_ends, unary_ends, moreOperands_ends,
      negation_ends, expression_ends, statements_ends, statement_ends, allStatements_ends⟩

/-- A statement in the middle of a source that cannot be read. All four places that its failure notes are
among the seven characters from there on. -/
theorem Program.readers_progress_unclosed : "b = (é;".toList <:+ "a = ü;b = (é;".toList ∧
    ∃ f, statement (Cursor.ofRest "a = ü;b = (é;" "b = (é;".toList) = .error f ∧
      f.notes.length = 4 ∧ ∀ n ∈ f.notes, n.place.rest <:+ "b = (é;".toList ∧
        n.place.In "a = ü;b = (é;" := by
  have hrest : "b = (é;".toList <:+ "a = ü;b = (é;".toList := by decide
  have hfail : ((statement (Cursor.ofRest "a = ü;b = (é;" "b = (é;".toList)).failure?.any fun f =>
      f.notes.length = 4) = true := by decide +kernel
  obtain ⟨f, hf, hlength⟩ := (Option.any_eq_true ..).1 hfail
  have hp := Reading.failure?_eq_some hf
  have hstatement := (readers_progress hrest).1.nested
  refine ⟨hrest, f, hp, of_decide_eq_true hlength, fun n hn => ?_⟩
  exact ⟨(hstatement.fails f hp n hn).1, (hstatement.fails f hp n hn).2.1⟩

end NodeFormula

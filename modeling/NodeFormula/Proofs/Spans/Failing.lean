import NodeFormula.Proofs.Spans.Outline

/-!
# Where reading fails

A reading that fails at a cursor notes places there or further on (`Reading.FailsFrom`), never before
it. The place of a failure is one of them, and thus a place of the source, and so the span of a syntax
error is one of its text (`Program.within_of_parse_error`).
-/

namespace NodeFormula

namespace Failure

/-- The reported note is one of the notes of the failure, so what holds of all notes holds of the
reported one. -/
theorem reported_mem_notes (f : Failure) : f.reported ∈ f.notes := by
  unfold reported
  cases h : f.notes.find? (·.expected.isSome) with
  | none => exact .head _
  | some n => exact List.mem_of_find?_eq_some h

@[simp] theorem notes_within (f : Failure) (n : Note) : (f.within n).notes = f.notes ++ [n] := rfl

end Failure

/-- A reading that fails does so at a cursor or after it: no note of its failure is of an earlier
place. -/
def Reading.FailsFrom {α : Type} (c : Cursor) (r : Reading α) : Prop :=
  ∀ f, r = .error f → ∀ n ∈ f.notes, c ≤ n.place

namespace Reading.FailsFrom

variable {α β : Type} {c d : Cursor}

/-- A reading that succeeds does not fail before the cursor. -/
theorem ok {a : α} : FailsFrom c (.ok a : Reading α) := fun _ h => by cases h

/-- A failure none of whose notes is before the cursor. -/
theorem error {f : Failure} (h : ∀ n ∈ f.notes, c ≤ n.place) : FailsFrom c (.error f : Reading α) :=
  fun _ hf => by cases hf; exact h

/-- A failure with one note. -/
theorem single {final : Bool} {expected : Option Expectation} (h : c ≤ d) :
    FailsFrom c (.error ⟨final, ⟨d, expected⟩, []⟩ : Reading α) :=
  error fun _ hn => List.mem_singleton.1 hn ▸ h

/-- A failure at the cursor itself. -/
theorem here {final : Bool} {expected : Option Expectation} :
    FailsFrom c (.error ⟨final, ⟨c, expected⟩, []⟩ : Reading α) :=
  single (Cursor.le_refl c)

/-- A failure to which a note is added. -/
theorem within {f : Failure} {n : Note} (hf : FailsFrom c (.error f : Reading α))
    (hn : c ≤ n.place) : FailsFrom c (.error (f.within n) : Reading α) := by
  refine error fun m hm => ?_
  rcases List.mem_append.1 (Failure.notes_within f n ▸ hm) with hm | hm
  · exact hf f rfl m hm
  · exact List.mem_singleton.1 hm ▸ hn

/-- The place that a failure reports is not before the cursor where the reading began. -/
theorem place {r : Reading α} (hr : FailsFrom c r) {f : Failure} (hf : r = .error f) : c ≤ f.place :=
  hr f hf _ f.reported_mem_notes

/-- A reading that does not fail before a later cursor does not fail before an earlier one either.
Readers use this after what they have read. -/
theorem mono (h : c ≤ d) {r : Reading α} (hr : FailsFrom d r) : FailsFrom c r :=
  fun f hf n hn => Cursor.le_trans h (hr f hf n hn)

/-- What follows a step may fail from the cursor after it on. -/
theorem afterStep (s : Step c α) {r : Reading β} (hr : FailsFrom s.next r) : FailsFrom c r :=
  hr.mono (Cursor.le_of_lt s.later)

/-- What follows an optional part may fail from the cursor after it on, also if the part was
empty. -/
theorem afterReach (s : Reach c α) {r : Reading β} (hr : FailsFrom s.next r) : FailsFrom c r :=
  hr.mono s.reached

/-- Two readings in a row: the second begins at the cursor of the first or behind it, and the first
knows its own failures. -/
theorem bind {x : Reading α} {g : α → Reading β} (hx : FailsFrom c x)
    (hg : ∀ a, x = .ok a → FailsFrom c (g a)) : FailsFrom c (x >>= g) := by
  cases x with
  | error f => exact fun _ h => by cases h; exact hx f rfl
  | ok a => exact hg a rfl

/-- Changing the value of a reading leaves the places of its failures alone. -/
theorem map {x : Reading α} (hx : FailsFrom c x) (g : α → β) : FailsFrom c (x.map g) := by
  cases x with
  | error f => exact fun _ h => by cases h; exact hx f rfl
  | ok a => exact ok

/-- Making a failure final leaves its notes as they are. -/
theorem commit {x : Reading α} (hx : FailsFrom c x) : FailsFrom c x.commit := by
  cases x with
  | error f => exact fun _ h => by cases h; exact hx f rfl
  | ok a => exact ok

/-- The expectation is noted at the cursor itself, which is not before it. -/
theorem expecting {e : Expectation} {r : Reading (Step c α)} (hr : FailsFrom c r) :
    FailsFrom c (r.expecting e) := by
  cases r with
  | ok s => exact ok
  | error f => exact hr.within (Cursor.le_refl c)

/-- A choice notes the cursor itself when all of its readings have failed. -/
theorem choice {r : Reading (Step c α)} (hr : FailsFrom c r) : FailsFrom c r.choice := by
  cases r with
  | ok s => exact ok
  | error f =>
    unfold Reading.choice
    simp only
    split
    · exact hr
    · exact hr.within (Cursor.le_refl c)

/-- A failure of a choice between two readings is a failure of one of them, and both begin at the
same cursor. -/
theorem orElse {r : Reading (Step c α)} {other : Unit → Reading (Step c α)} (hr : FailsFrom c r)
    (hother : FailsFrom c (other ())) : FailsFrom c (r.orElse other) := by
  cases r with
  | ok s => exact ok
  | error f =>
    unfold Reading.orElse
    simp only
    split
    · exact error (hr f rfl)
    · exact hother

/-- An optional part passes on final failures only. -/
theorem optional {r : Reading (Step c α)} (hr : FailsFrom c r) : FailsFrom c r.optional := by
  cases r with
  | ok s => exact ok
  | error f =>
    unfold Reading.optional
    simp only
    split
    · exact error (hr f rfl)
    · exact ok

end Reading.FailsFrom

open Reading (FailsFrom)

/-! ### Tokens -/

namespace Token

variable {c : Cursor}

/-- Space is skipped first, so a token fails behind the space or in it, and not before the cursor. -/
theorem lexeme_failsFrom {α : Type} {read : (d : Cursor) → Reading (Step d α)}
    (hread : ∀ d, FailsFrom d (read d)) (c : Cursor) : FailsFrom c (lexeme read c) :=
  (((hread (skipSpace c)).map _).mono (le_skipSpace c))

/-- One character fails at the cursor, or else it is read. -/
theorem char_failsFrom (x : Char) (c : Cursor) : FailsFrom c (char x c) := by
  unfold char
  split
  next => exact .here
  next => split <;> first | exact .ok | exact .here

/-- A character that must not be followed by another fails at the cursor or one character further
on. -/
theorem charNotBefore_failsFrom (x after : Char) (c : Cursor) :
    FailsFrom c (charNotBefore x after c) := by
  unfold charNotBefore
  split
  next f hf => exact .error (char_failsFrom x c f hf)
  next s _ =>
    split
    next => exact .single (Cursor.le_of_lt s.later)
    next => exact .ok

/-- Two characters fail at the cursor, also where the first is read and the second is not. -/
theorem pair_failsFrom (x y : Char) (c : Cursor) : FailsFrom c (pair x y c) := by
  unfold pair
  split
  next => split <;> first | exact .ok | exact .here
  next => exact .here

/-- A keyword fails at the cursor, or behind itself if it goes on as a longer name. -/
theorem keyword_failsFrom (word : String) (c : Cursor) : FailsFrom c (keyword word c) := by
  unfold keyword
  split
  next => exact .here
  next =>
    split
    next => exact .here
    next rest h =>
      simp only
      split
      next => exact .single (Cursor.le_after (eq_append_of_dropText? h))
      next => exact .ok

/-- A name fails at the cursor, where no name begins or a keyword stands. -/
theorem name_failsFrom (c : Cursor) : FailsFrom c (name c) := by
  unfold name
  split
  next => exact .here
  next =>
    simp only
    split <;> first | exact .ok | exact .here

/-- A string without its closing quote fails at the end of the source. -/
theorem string_failsFrom (c : Cursor) : FailsFrom c (string c) := by
  unfold string
  split
  next =>
    split
    next => exact .single ⟨c.rest, (List.append_nil _).symm, rfl⟩
    next => exact .ok
  next => exact .here

/-- A number fails where no digit stands, or as a whole where it is too large, and not before the
cursor. -/
theorem number_failsFrom (c : Cursor) : FailsFrom c (number c) := by
  unfold number
  simp only
  split
  next => exact .here
  next =>
    split
    next => split <;> first | exact .ok | exact .here
    next => exact .ok

end Token

/-! ### Expressions -/

namespace Expression

open Token

variable {base c : Cursor}

section
variable {α : Type} {item : (d : Cursor) → base < d → Reading (Step d α)}
  (hitem : ∀ d h, FailsFrom d (item d h))
include hitem

/-- Further items of a list fail behind the comma in front of them, by induction on the rest of the
source. -/
theorem moreItems_failsFrom (h : base ≤ c) : FailsFrom c (moreItems item c h) := by
  induction hn : c.rest.length using Nat.strongRecOn generalizing c with
  | _ n ih =>
    rw [moreItems]
    split
    next => exact .ok
    next comma _ =>
      split
      next f hf =>
        split
        next => exact .error ((hitem _ _).afterStep comma f hf)
        next => exact .ok
      next first _ =>
        have hlt := hn ▸ Cursor.length_lt (comma.andThen first).later
        exact .bind ((ih _ hlt _ rfl).afterStep (comma.andThen first)) fun _ _ => .ok

/-- A list fails in its first item or behind it. -/
theorem items_failsFrom (h : base < c) : FailsFrom c (items item c h) :=
  .bind (hitem c h) fun first _ =>
    .bind ((moreItems_failsFrom hitem _).afterStep first) fun _ _ => .ok

/-- A list that may be empty fails where a list with an item fails for good. -/
theorem optionalItems_failsFrom (h : base < c) : FailsFrom c (optionalItems item c h) :=
  .bind (items_failsFrom hitem h).optional fun _ _ => .ok

end

/-- All forms of an atom begin at the cursor, so none fails before it. -/
theorem atom_failsFrom (c : Cursor) : FailsFrom c (atom c) :=
  .orElse ((number_failsFrom c).map _) <| .orElse ((string_failsFrom c).map _) <|
    .orElse ((keyword_failsFrom _ c).map _) <| .orElse ((keyword_failsFrom _ c).map _) <|
      (name_failsFrom c).map _

/-- A closing mark that is asked for by name fails in the space before it or behind that. -/
theorem closing_failsFrom (e : Expectation) (x : Char) (c : Cursor) :
    FailsFrom c (Reading.commit ((lexeme (char x) c).expecting e)) :=
  (lexeme_failsFrom (char_failsFrom x) c).expecting.commit

section
variable {inner : After base} (hinner : ∀ d h, FailsFrom d (inner d h))
include hinner

/-- A vector fails at its brace, in its items or at its end, all from the cursor on. -/
theorem vector_failsFrom (h : base ≤ c) : FailsFrom c (vector inner c h) := by
  refine .bind (char_failsFrom _ c) fun opened _ => .afterStep opened ?_
  refine .bind (items_failsFrom hinner _).commit fun list _ => ?_
  refine .bind ((closing_failsFrom _ _ _).afterStep list) fun closed _ => ?_
  split
  · exact .ok
  · exact .here

/-- An expression in parentheses fails at its parenthesis, inside or at its end. -/
theorem parenthesized_failsFrom (h : base ≤ c) : FailsFrom c (parenthesized inner c h) :=
  .bind (char_failsFrom _ c) fun opened _ => .afterStep opened <|
    .bind (hinner _ _).commit fun body _ =>
      .bind ((closing_failsFrom _ _ _).afterStep body) fun _ _ => .ok

/-- A primary expression fails behind the space that is skipped first. -/
theorem primary_failsFrom (h : base ≤ c) : FailsFrom c (primary inner c h) := by
  have hspace := Cursor.le_trans h (le_skipSpace c)
  have hhere : FailsFrom (skipSpace c) (primaryHere inner (skipSpace c) hspace) :=
    .expecting <| .choice <| .orElse (atom_failsFrom _) <| .orElse (vector_failsFrom hinner _) <|
      parenthesized_failsFrom hinner _
  exact (hhere.map _).mono (le_skipSpace c)

/-- Arguments fail in one of them or at the closing parenthesis. -/
theorem arguments_failsFrom (h : base < c) : FailsFrom c (arguments inner c h) :=
  .bind (optionalItems_failsFrom hinner h) fun args _ =>
    .bind ((closing_failsFrom _ _ _).afterReach args) fun _ _ => .ok

/-- A call or member access fails behind its mark, at the cursor or later. -/
theorem suffix_failsFrom (e : Expr) (h : base ≤ c) : FailsFrom c (suffix inner e c h) := by
  unfold suffix
  split
  next opened _ =>
    split
    next => exact .bind ((arguments_failsFrom hinner _).afterStep opened) fun _ _ => .ok
    next => exact .single (le_skipSpace c)
  next =>
    split
    next dot _ =>
      exact .bind ((lexeme_failsFrom name_failsFrom _).expecting.commit.afterStep dot) fun _ _ => .ok
    next => exact .ok

/-- Calls and members fail in one of them, by induction on the rest of the source. -/
theorem suffixes_failsFrom (e : Expr) (h : base ≤ c) : FailsFrom c (suffixes inner e c h) := by
  induction hn : c.rest.length using Nat.strongRecOn generalizing e c with
  | _ n ih =>
    rw [suffixes]
    refine .bind (suffix_failsFrom hinner e h) fun found _ => ?_
    cases found with
    | none => exact .ok
    | some s =>
      have hlt := hn ▸ Cursor.length_lt s.later
      exact .bind ((ih _ hlt _ _ rfl).afterStep s) fun _ _ => .ok

/-- A primary expression with what follows it fails in the one or in the other. -/
theorem postfixed_failsFrom (h : base ≤ c) : FailsFrom c (postfixed inner c h) :=
  .bind (primary_failsFrom hinner h) fun first _ =>
    .bind ((suffixes_failsFrom hinner _ _).afterStep first) fun _ _ => .ok

/-- Negation and powers fail behind what was read of them, by induction on the rest of the source. -/
theorem unary_failsFrom (h : base ≤ c) : FailsFrom c (unary inner c h) := by
  induction hn : c.rest.length using Nat.strongRecOn generalizing c with
  | _ n ih =>
    rw [unary]
    split
    next minus _ =>
      have hlt := hn ▸ Cursor.length_lt minus.later
      exact .bind ((ih _ hlt _ rfl).commit.afterStep minus) fun _ _ => .ok
    next =>
      refine .bind (postfixed_failsFrom hinner h) fun first _ => ?_
      split
      next => exact .ok
      next stars _ =>
        have hlt := hn ▸ Cursor.length_lt (first.andThen stars).later
        exact .bind ((ih _ hlt _ rfl).commit.afterStep (first.andThen stars)) fun _ _ => .ok

end

section
variable {operator : OperatorReader} {operand : From base}
  (hoperand : ∀ d h, FailsFrom d (operand d h))
include hoperand

/-- Further operands fail behind the operator in front of them, by induction on the rest of the
source. -/
theorem moreOperands_failsFrom (left : Expr) (h : base ≤ c) :
    FailsFrom c (moreOperands operator operand left c h) := by
  induction hn : c.rest.length using Nat.strongRecOn generalizing left c with
  | _ n ih =>
    rw [moreOperands]
    split
    next => exact .ok
    next op _ =>
      refine .bind ((hoperand _ _).commit.afterStep op) fun right _ => ?_
      have hlt := hn ▸ Cursor.length_lt (op.andThen right).later
      exact .bind ((ih _ hlt _ _ rfl).afterStep (op.andThen right)) fun _ _ => .ok

/-- Operands of one level fail in the first of them or behind it. -/
theorem chain_failsFrom (h : base ≤ c) : FailsFrom c (chain operator operand c h) :=
  .bind (hoperand c h) fun first _ =>
    .bind ((moreOperands_failsFrom hoperand _ _).afterStep first) fun _ _ => .ok

end

section
variable {inner : After base} (hinner : ∀ d h, FailsFrom d (inner d h))
include hinner

/-- Sums fail where a chain of products does. -/
theorem sum_failsFrom (h : base ≤ c) : FailsFrom c (sum inner c h) :=
  chain_failsFrom (fun _ h => chain_failsFrom (fun _ h => unary_failsFrom hinner h) h) h

/-- A comparison fails in its left sum, or behind its mark in the right one. -/
theorem comparison_failsFrom (h : base ≤ c) : FailsFrom c (comparison inner c h) := by
  refine .bind (sum_failsFrom hinner h) fun left _ => ?_
  split
  next => exact .ok
  next op _ =>
    exact .bind ((sum_failsFrom hinner _).commit.afterStep (left.andThen op)) fun _ _ => .ok

/-- Logical negation fails behind its keyword, by induction on the rest of the source, or where a
comparison does. -/
theorem negation_failsFrom (h : base ≤ c) : FailsFrom c (negation inner c h) := by
  induction hn : c.rest.length using Nat.strongRecOn generalizing c with
  | _ n ih =>
    rw [negation]
    split
    next word _ =>
      have hlt := hn ▸ Cursor.length_lt word.later
      exact .bind ((ih _ hlt _ rfl).commit.afterStep word) fun _ _ => .ok
    next => exact ((comparison_failsFrom hinner _).map _).mono (le_skipSpace c)

end

/-- An expression does not fail before the cursor. The induction is on the rest of the source, and
inner expressions begin behind the cursor. -/
theorem expression_failsFrom (c : Cursor) : FailsFrom c (expression c) := by
  induction hn : c.rest.length using Nat.strongRecOn generalizing c with
  | _ n ih =>
    rw [expression]
    have hinner : ∀ d (_ : c < d), FailsFrom d (expression d) := fun d h =>
      ih _ (hn ▸ Cursor.length_lt h) d rfl
    exact chain_failsFrom (fun _ h => chain_failsFrom (fun _ h => negation_failsFrom hinner h) h) _

end Expression

/-! ### Statements -/

namespace Statement

open Token Expression

variable {base c : Cursor}

/-- The mark of an assignment fails at the cursor or behind its first character. -/
theorem assignMark_failsFrom (c : Cursor) : FailsFrom c (assignMark c) := charNotBefore_failsFrom _ _ c

/-- A target fails where its name does. -/
theorem target_failsFrom (c : Cursor) : FailsFrom c (target c) :=
  .bind (lexeme_failsFrom name_failsFrom c) fun _ _ => .ok

/-- An assignment fails in its targets, at its mark or in its value, each behind the one before. -/
theorem assignment_failsFrom (c : Cursor) : FailsFrom c (assignment c) :=
  .bind (target_failsFrom c) fun first _ => .afterStep first <|
    .bind (moreItems_failsFrom (fun d _ => target_failsFrom d) _) fun more _ => .afterReach more <|
      .bind (lexeme_failsFrom assignMark_failsFrom _) fun mark _ => .afterStep mark <|
        .bind (expression_failsFrom _).commit fun _ _ => .ok

/-- An assignment to a component fails in one of its five parts, each behind the one before. -/
theorem fieldAssignment_failsFrom (c : Cursor) : FailsFrom c (fieldAssignment c) :=
  .bind (lexeme_failsFrom name_failsFrom c) fun object _ => .afterStep object <|
    .bind (lexeme_failsFrom (char_failsFrom _) _) fun dot _ => .afterStep dot <|
      .bind (lexeme_failsFrom name_failsFrom _) fun field _ => .afterStep field <|
        .bind (lexeme_failsFrom assignMark_failsFrom _) fun mark _ => .afterStep mark <|
          .bind (expression_failsFrom _).commit fun _ _ => .ok

/-- A simple statement fails in one of its forms, which all begin at the cursor, or at its
semicolon. -/
theorem simple_failsFrom (c : Cursor) : FailsFrom c (simple c) :=
  .bind (.choice <| .orElse (assignment_failsFrom c) <| .orElse (fieldAssignment_failsFrom c) <|
    (expression_failsFrom c).map _) fun body _ => .afterStep body <|
      .bind (closing_failsFrom _ _ _) fun _ _ => .ok

/-- A type fails where its name does. If the name is of no type, the failure is at the cursor in
front of the name. -/
theorem typeName_failsFrom (c : Cursor) : FailsFrom c (typeName c) := by
  refine .bind (lexeme_failsFrom name_failsFrom c).expecting.commit fun word _ => ?_
  split
  · exact .ok
  · exact .here

/-- A default fails at its mark or in its value. -/
theorem defaultValue_failsFrom (c : Cursor) : FailsFrom c (defaultValue c) :=
  .bind (lexeme_failsFrom assignMark_failsFrom c) fun mark _ => .afterStep mark <|
    .bind (expression_failsFrom _).commit fun _ _ => .ok

/-- A parameter fails behind the space that is skipped first, in one of its parts. -/
theorem parameter_failsFrom (c : Cursor) : FailsFrom c (parameter c) := by
  have hhere : FailsFrom (skipSpace c) (parameterHere (skipSpace c)) :=
    .bind (name_failsFrom _).expecting fun word _ => .afterStep word <|
      .bind (closing_failsFrom _ _ _) fun colon _ => .afterStep colon <|
        .bind (typeName_failsFrom _) fun type _ => .afterStep type <|
          .bind (defaultValue_failsFrom _).optional fun _ _ => .ok
  exact (hhere.map _).mono (le_skipSpace c)

/-- The outputs of a definition fail at their arrow or in one of the parameters behind it. -/
theorem outputs_failsFrom (c : Cursor) : FailsFrom c (outputs c) :=
  .bind (lexeme_failsFrom (pair_failsFrom _ _) c) fun arrow _ => .afterStep arrow <|
    .bind (items_failsFrom (fun d _ => parameter_failsFrom d) _).commit fun _ _ => .ok

/-- Both keywords of a definition are looked for at the cursor. -/
theorem defKeyword_failsFrom (c : Cursor) : FailsFrom c (defKeyword c) :=
  .choice <| .orElse ((keyword_failsFrom _ c).map _) ((keyword_failsFrom _ c).map _)

/-- A bound of a loop fails behind space, at its sign or at its digits, or as a whole where the
number is no integer. -/
theorem bound_failsFrom (c : Cursor) : FailsFrom c (bound c) := by
  have hhere : FailsFrom (skipSpace c) (boundHere (skipSpace c)) := by
    refine .bind (char_failsFrom _ _).optional fun minus _ => ?_
    refine .bind ((number_failsFrom _).expecting.afterReach minus) fun digits _ => ?_
    split
    · exact .ok
    · exact .here
  exact (hhere.map _).mono (le_skipSpace c)

/-- The counter of a loop fails at its name or at the mark behind it. -/
theorem counter_failsFrom (c : Cursor) : FailsFrom c (counter c) :=
  .bind (lexeme_failsFrom name_failsFrom c) fun word _ => .afterStep word <|
    .bind (lexeme_failsFrom assignMark_failsFrom _) fun _ _ => .ok

section
variable {inner : StmtAfter base} (hinner : ∀ d h, FailsFrom d (inner d h))
include hinner

/-- Statements fail in one of them, by induction on the rest of the source. -/
theorem statements_failsFrom (h : base < c) : FailsFrom c (statements inner c h) := by
  induction hn : c.rest.length using Nat.strongRecOn generalizing c with
  | _ n ih =>
    rw [statements]
    split
    next f hf =>
      split
      next => exact .error (hinner _ _ f hf)
      next => exact .ok
    next first _ =>
      have hlt := hn ▸ Cursor.length_lt first.later
      exact .bind ((ih _ hlt _ rfl).afterStep first) fun _ _ => .ok

/-- A block fails at its opening brace, in its statements or at its closing brace. -/
theorem block_failsFrom (h : base ≤ c) : FailsFrom c (block inner c h) :=
  .bind (lexeme_failsFrom (char_failsFrom _) c).expecting fun opened _ => .afterStep opened <|
    .bind (statements_failsFrom hinner _) fun body _ => .afterReach body <|
      .bind (closing_failsFrom _ _ _) fun _ _ => .ok

/-- A definition fails in its header or in its body, part by part from the cursor on. -/
theorem definition_failsFrom (h : base ≤ c) : FailsFrom c (definition inner c h) :=
  .bind (defKeyword_failsFrom c) fun kind _ => .afterStep kind <|
    .bind (lexeme_failsFrom name_failsFrom _).expecting.commit fun word _ => .afterStep word <|
      .bind (closing_failsFrom _ _ _) fun opened _ => .afterStep opened <|
        .bind (optionalItems_failsFrom (fun d _ => parameter_failsFrom d) _) fun params _ =>
          .afterReach params <| .bind (closing_failsFrom _ _ _) fun closed _ => .afterStep closed <|
            .bind (outputs_failsFrom _).optional fun results _ => .afterReach results <|
              .bind (block_failsFrom hinner _).commit fun _ _ => .ok

/-- A loop fails at its keyword, in its header or in its body. -/
theorem loop_failsFrom (h : base ≤ c) : FailsFrom c (loop inner c h) :=
  .bind (keyword_failsFrom _ c) fun word _ => .afterStep word <|
    .bind (counter_failsFrom _).optional fun index _ => .afterReach index <|
      .bind (bound_failsFrom _).commit fun first _ => .afterStep first <|
        .bind (lexeme_failsFrom (pair_failsFrom _ _) _).expecting.commit fun arrow _ => .afterStep arrow <|
          .bind (bound_failsFrom _).commit fun last _ => .afterStep last <|
            .bind (block_failsFrom hinner _).commit fun _ _ => .ok

/-- A repeat zone fails at its keyword, in its count or in its body. -/
theorem zone_failsFrom (h : base ≤ c) : FailsFrom c (zone inner c h) :=
  .bind (keyword_failsFrom _ c) fun word _ => .afterStep word <|
    .bind (expression_failsFrom _).commit fun count _ => .afterStep count <|
      .bind (block_failsFrom hinner _).commit fun _ _ => .ok

/-- All forms of a statement begin at the cursor, so none fails before it. -/
theorem statementHere_failsFrom (h : base ≤ c) : FailsFrom c (statementHere inner c h) :=
  .bind (.choice <| .orElse (definition_failsFrom hinner h) <| .orElse (loop_failsFrom hinner h) <|
    .orElse (zone_failsFrom hinner h) (simple_failsFrom c)) fun _ _ => .ok

end

/-- A statement does not fail before the cursor. The induction is on the rest of the source, and
inner statements begin behind the cursor. -/
theorem statement_failsFrom (c : Cursor) : FailsFrom c (statement c) := by
  induction hn : c.rest.length using Nat.strongRecOn generalizing c with
  | _ n ih =>
    rw [statement]
    have hinner : ∀ d (_ : c < d), FailsFrom d (statement d) := fun d h =>
      ih _ (hn ▸ Cursor.length_lt h) d rfl
    exact ((statementHere_failsFrom hinner _).map _).mono (le_skipSpace c)

/-- The statements of a source do not fail before the cursor, by induction on the rest of the
source. -/
theorem allStatements_failsFrom (c : Cursor) : FailsFrom c (allStatements c) := by
  induction hn : c.rest.length using Nat.strongRecOn generalizing c with
  | _ n ih =>
    rw [allStatements]
    split
    next f hf =>
      split
      next => exact .error (statement_failsFrom _ f hf)
      next => exact .ok
    next first _ =>
      have hlt := hn ▸ Cursor.length_lt first.later
      exact .bind ((ih _ hlt _ rfl).afterStep first) fun _ _ => .ok

/-- A source that cannot be read fails at one of its places. -/
theorem program_failsFrom (c : Cursor) : FailsFrom c (program c) := by
  refine .bind (allStatements_failsFrom c) fun body _ => ?_
  split
  · exact .ok
  · exact .within (.single (Cursor.le_trans body.reached (le_skipSpace _))) body.reached

end Statement

/-! ### Syntax errors -/

/-- The error of a failure at a place of a text spans the first character after white space there, or
nothing at the end of the text. -/
theorem Failure.within_toError {text : String} {f : Failure} (h : Cursor.ofString text ≤ f.place) :
    f.toError.span.Within text := by
  have hfound := Cursor.le_trans h f.place.le_trim
  unfold toError
  simp only
  split
  next => exact Cursor.within_spanTo hfound (Cursor.le_refl _)
  next x rest hx =>
    have hnext : f.place.trim ≤ f.place.trim.after [x] rest := Cursor.le_after hx
    have hspan := Cursor.within_spanTo hfound hnext
    simpa [Cursor.spanTo, Cursor.after] using hspan

/-- The span of a syntax error is one of the text: it lies in it and starts and ends between
characters. Reading stops at a cursor, which stands between characters. -/
theorem Program.within_of_parse_error {text : String} {e : SourceError}
    (h : Program.parse text = .error e) : e.span.Within text := by
  unfold Program.parse at h
  cases hp : Statement.program (Cursor.ofString text) with
  | ok p =>
    rw [hp] at h
    cases h
  | error f =>
    rw [hp] at h
    cases h
    exact Failure.within_toError ((Statement.program_failsFrom _).place hp)

end NodeFormula

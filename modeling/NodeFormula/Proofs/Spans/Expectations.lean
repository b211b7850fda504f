import NodeFormula.Proofs.Parsing.Lexing
import NodeFormula.Proofs.Spans.Failing

/-!
# What syntax errors point at

Two functions skip the space before a token. Readers use `Token.skipSpace`, which skips blanks, tabs and
line breaks, and comments. The error of a failure starts after `Cursor.trim`, which skips all white space
of Unicode, and no comments. So an error may point at a comment, and it may step over a character that
no reader skips (`Program.parse_error_found`). Whether it does depends on the text at the place of the
failure only, and not on the rule that failed: the error points at a token exactly if the two functions
agree there (`Failure.pointsAtToken_iff`).

Some expectations are stated before space is skipped and some after it (`Expectation.afterSpace`). That
these are kept apart, and that every error names what was expected, is a fact about all readers, proved
reader by reader for failures in general (`Failure.Regular`) and for those of readers that always name
an expectation (`Failure.Named`).
-/

namespace NodeFormula

open Token

/-- Whether an expectation is stated only where space has been skipped. -/
def Expectation.afterSpace : Expectation → Bool
  | .expression => true
  | .namedCall => true
  | .intRange => true
  | .parameterName => true
  | .intBound => true
  | _ => false

namespace Failure

/-- A final failure names what was expected, and an expectation that is stated after space is stated
where there is no space to skip. -/
structure Regular (f : Failure) : Prop where
  final_named : f.final = true → f.expected.isSome = true
  spaced : ∀ e, f.expected = some e → e.afterSpace = true → skipSpace f.place = f.place

/-- A failure that names what was expected, final or not. -/
structure Named (f : Failure) : Prop extends Regular f where
  named : f.expected.isSome = true

theorem find?_notes_of_expected {f : Failure} (h : f.expected.isSome = true) :
    f.notes.find? (·.expected.isSome) = some f.reported := by
  cases hfind : f.notes.find? (·.expected.isSome) with
  | some n => rw [reported, hfind, Option.getD_some]
  | none =>
    have horigin := List.find?_eq_none.1 hfind f.origin (.head _)
    rw [expected, reported, hfind] at h
    exact absurd h horigin

/-- A note is reported only if no note inside it states an expectation and it states one itself.
Otherwise what was reported before stays. -/
theorem reported_within (f : Failure) (n : Note) : (f.within n).reported =
    if f.expected.isSome = false ∧ n.expected.isSome = true then n else f.reported := by
  rw [reported, notes_within, List.find?_append]
  cases h : f.expected.isSome with
  | true => rw [find?_notes_of_expected h]; simp
  | false =>
    have hnone : f.notes.find? (·.expected.isSome) = none := by
      cases hfind : f.notes.find? (·.expected.isSome) with
      | none => rfl
      | some m =>
        rw [expected, reported, hfind] at h
        exact absurd (List.find?_some hfind) (Bool.eq_false_iff.1 h)
    cases hn : n.expected.isSome <;> simp [reported, hnone, hn, within]

theorem regular_mismatch (c : Cursor) : (mismatch c).Regular where
  final_named h := by cases h
  spaced _ h := by cases h

theorem named_of_some {final : Bool} {e : Expectation} {c : Cursor}
    (h : e.afterSpace = true → skipSpace c = c) : Named ⟨final, ⟨c, some e⟩, []⟩ :=
  ⟨⟨fun _ => rfl, fun _ he => Option.some.inj he ▸ h⟩, rfl⟩

/-- A failure inside a reading that states an expectation reports one, its own or that of the
reading. The place of the latter is where the reading started, behind space if it has to be. -/
theorem Regular.named_within {f : Failure} {e : Expectation} {c : Cursor} (hf : f.Regular)
    (h : e.afterSpace = true → skipSpace c = c) : Named (f.within ⟨c, some e⟩) := by
  have hreported := f.reported_within ⟨c, some e⟩
  cases hsome : f.expected.isSome with
  | true =>
    rw [hsome, if_neg (by simp)] at hreported
    have hexpected : (f.within ⟨c, some e⟩).expected = f.expected := congrArg Note.expected hreported
    have hplace : (f.within ⟨c, some e⟩).place = f.place := congrArg Note.place hreported
    have hnamed : (f.within ⟨c, some e⟩).expected.isSome = true := by rw [hexpected, hsome]
    exact ⟨⟨fun _ => hnamed, by rw [hexpected, hplace]; exact hf.spaced⟩, hnamed⟩
  | false =>
    rw [hsome, if_pos ⟨rfl, rfl⟩] at hreported
    have hexpected : (f.within ⟨c, some e⟩).expected = some e := congrArg Note.expected hreported
    have hplace : (f.within ⟨c, some e⟩).place = c := congrArg Note.place hreported
    have hnamed : (f.within ⟨c, some e⟩).expected.isSome = true := by rw [hexpected]; rfl
    refine ⟨⟨fun _ => hnamed, fun e' he' => ?_⟩, hnamed⟩
    rw [hexpected] at he'
    rw [hplace, ← Option.some.inj he']
    exact h

/-- A note without an expectation changes nothing of what is reported. -/
theorem Regular.within {f : Failure} {c : Cursor} (hf : f.Regular) :
    Regular (f.within ⟨c, none⟩) := by
  have hreported : (f.within ⟨c, none⟩).reported = f.reported :=
    (f.reported_within _).trans (if_neg (by simp))
  have hexpected : (f.within ⟨c, none⟩).expected = f.expected := congrArg Note.expected hreported
  have hplace : (f.within ⟨c, none⟩).place = f.place := congrArg Note.place hreported
  exact ⟨by rw [hexpected]; exact hf.final_named, by rw [hexpected, hplace]; exact hf.spaced⟩

end Failure

/-! ### Combinators -/

/-- The failure of a reading, if it fails, has a property. -/
def Reading.FailsWith {α : Type} (P : Failure → Prop) (r : Reading α) : Prop :=
  ∀ f, r = .error f → P f

namespace Reading.FailsWith

variable {α β : Type} {P Q : Failure → Prop} {c : Cursor}

/-- A reading that succeeds has no failure to speak of. -/
theorem ok {a : α} : FailsWith P (.ok a : Reading α) := fun _ h => by cases h

/-- A reading that fails has the one failure that it fails with. -/
theorem error {f : Failure} (h : P f) : FailsWith P (.error f : Reading α) :=
  fun _ hf => by cases hf; exact h

theorem mismatch : FailsWith Failure.Regular (.error (.mismatch c) : Reading α) :=
  error (Failure.regular_mismatch c)

theorem imp {r : Reading α} (h : ∀ f, P f → Q f) (hr : FailsWith P r) : FailsWith Q r :=
  fun f hf => h f (hr f hf)

theorem regular {r : Reading α} (hr : FailsWith Failure.Named r) : FailsWith Failure.Regular r :=
  hr.imp fun _ h => h.toRegular

/-- Two readings in a row fail with the failure of the first or with that of the second, so a
property of both is one of the whole. -/
theorem bind {x : Reading α} {g : α → Reading β} (hx : FailsWith P x)
    (hg : ∀ a, x = .ok a → FailsWith P (g a)) : FailsWith P (x >>= g) := by
  cases x with
  | error f => exact fun _ h => by cases h; exact hx f rfl
  | ok a => exact hg a rfl

/-- Changing the value of a reading leaves its failures alone. -/
theorem map {x : Reading α} (hx : FailsWith P x) (g : α → β) : FailsWith P (x.map g) := by
  cases x with
  | error f => exact fun _ h => by cases h; exact hx f rfl
  | ok a => exact ok

theorem commit {x : Reading α} (hx : FailsWith Failure.Named x) :
    FailsWith Failure.Named x.commit := by
  cases x with
  | error f =>
    have hf := hx f rfl
    exact error ⟨⟨fun _ => hf.named, hf.spaced⟩, hf.named⟩
  | ok a => exact ok

/-- The expectation that is stated here, or a more precise one of a part. -/
theorem expecting {e : Expectation} {r : Reading (Step c α)}
    (he : e.afterSpace = true → skipSpace c = c) (hr : FailsWith Failure.Regular r) :
    FailsWith Failure.Named (r.expecting e) := by
  cases r with
  | ok s => exact ok
  | error f => exact error ((hr f rfl).named_within he)

/-- A choice adds a note without an expectation to a soft failure, and so changes neither what is
reported nor where. -/
theorem choice {r : Reading (Step c α)} (hr : FailsWith Failure.Regular r) :
    FailsWith Failure.Regular r.choice := by
  cases r with
  | ok s => exact ok
  | error f =>
    unfold Reading.choice
    simp only
    split
    · exact hr
    · exact error (hr f rfl).within

/-- The second reading is tried after a soft failure of the first, so the failures are final ones of
the first or those of the second. -/
theorem orElse {r : Reading (Step c α)} {other : Unit → Reading (Step c α)} (hr : FailsWith P r)
    (hother : FailsWith P (other ())) : FailsWith P (r.orElse other) := by
  cases r with
  | ok s => exact ok
  | error f =>
    unfold Reading.orElse
    simp only
    split
    · exact error (hr f rfl)
    · exact hother

theorem of_final {f : Failure} (hf : f.Regular) (hfinal : f.final = true) :
    FailsWith Failure.Named (.error f : Reading α) :=
  error ⟨hf, hf.final_named hfinal⟩

/-- Only final failures of an optional part are failures. -/
theorem optional {r : Reading (Step c α)} (hr : FailsWith Failure.Regular r) :
    FailsWith Failure.Named r.optional := by
  cases r with
  | ok s => exact ok
  | error f =>
    unfold Reading.optional
    simp only
    split
    next hfinal => exact of_final (hr f rfl) hfinal
    next => exact ok

end Reading.FailsWith

open Reading (FailsWith)

/-! ### Tokens -/

namespace Token

/-- A comment that is skipped: it goes on to the end of a line or of the source. -/
def StartsComment (cs : List Char) : Prop :=
  ∃ rest, cs = '#' :: rest ∧ endsComment (rest.dropWhile commentChar) = true

/-- Space that begins with neither a separator nor a comment is no space, and skipping it stays where
it is. -/
theorem skipSpace_eq_self {c : Cursor} (hspace : ∀ x, c.rest.head? = some x → spaceChar x = false)
    (hcomment : ¬ StartsComment c.rest) : skipSpace c = c := by
  unfold skipSpace
  split
  next => rfl
  next x rest hx =>
    have hs : spaceChar x = false := hspace x (by rw [hx]; rfl)
    rw [if_neg (by simp [hs]), if_neg]
    rintro ⟨rfl, hend⟩
    exact hcomment ⟨rest, hx, hend⟩

/-- A comment is skipped, so the cursor moves on. This is one of the two reasons why an error may
point at no token. -/
theorem lt_skipSpace_of_comment {c : Cursor} (h : StartsComment c.rest) : c < skipSpace c := by
  obtain ⟨rest, hc, hend⟩ := h
  rw [skipSpace]
  split
  next hnil => rw [hc] at hnil; cases hnil
  next x rest' hx =>
    rw [hc] at hx
    cases hx
    rw [if_neg (by decide), if_pos ⟨rfl, hend⟩]
    exact Cursor.lt_of_lt_of_le (Cursor.lt_after (by simp [hc]) (by simp)) (le_skipSpace _)

/-- After space has been skipped there is none left. So an expectation that is stated after space
stands where the readers would start. -/
theorem skipSpace_skipSpace (c : Cursor) : skipSpace (skipSpace c) = skipSpace c := by
  fun_induction skipSpace c with
  | case1 c h => exact skipSpace_of_solid fun x rest hx => by rw [h] at hx; cases hx
  | case2 c x rest h _ ih => exact ih
  | case3 c x rest h _ _ ih => exact ih
  | case4 c x rest h hspace hcomment =>
    refine skipSpace_eq_self (fun y hy => ?_) ?_
    · rw [h] at hy
      cases hy
      exact Bool.eq_false_iff.2 hspace
    · rintro ⟨rest', hc, hend⟩
      rw [h] at hc
      cases hc
      exact hcomment ⟨rfl, hend⟩

theorem lexeme_regular {α : Type} {read : (d : Cursor) → Reading (Step d α)}
    (hread : ∀ d, FailsWith Failure.Regular (read d)) (c : Cursor) :
    FailsWith Failure.Regular (lexeme read c) :=
  (hread (skipSpace c)).map _

theorem char_regular (x : Char) (c : Cursor) : FailsWith Failure.Regular (char x c) := by
  unfold char
  split
  next => exact .mismatch
  next => split <;> first | exact .ok | exact .mismatch

theorem charNotBefore_regular (x after : Char) (c : Cursor) :
    FailsWith Failure.Regular (charNotBefore x after c) := by
  unfold charNotBefore
  split
  next f hf => exact .error (char_regular x c f hf)
  next => split <;> first | exact .ok | exact .mismatch

theorem pair_regular (x y : Char) (c : Cursor) : FailsWith Failure.Regular (pair x y c) := by
  unfold pair
  split
  next => split <;> first | exact .ok | exact .mismatch
  next => exact .mismatch

/-- Reading a keyword fails softly, also behind the keyword if that goes on as a longer name. -/
theorem keyword_regular (word : String) (c : Cursor) :
    FailsWith Failure.Regular (keyword word c) := by
  unfold keyword
  split
  next => exact .mismatch
  next =>
    split
    next => exact .mismatch
    next =>
      simp only
      split <;> first | exact .ok | exact .mismatch

theorem name_regular (c : Cursor) : FailsWith Failure.Regular (name c) := by
  unfold name
  split
  next => exact .mismatch
  next =>
    simp only
    split <;> first | exact .ok | exact .mismatch

theorem string_regular (c : Cursor) : FailsWith Failure.Regular (string c) := by
  unfold string
  split
  next => split <;> first | exact .ok | exact .mismatch
  next => exact .mismatch

/-- A number that is too large starts with a digit, so there is no space before it. -/
theorem number_regular (c : Cursor) : FailsWith Failure.Regular (number c) := by
  unfold number
  simp only
  split
  next => exact .mismatch
  next hdigits =>
    have hspace : skipSpace c = c := by
      refine skipSpace_of_solid fun x rest hx => solid_of_nameChar (nameChar_of_isDigit ?_)
      by_contra hdigit
      exact hdigits (by rw [hx, List.takeWhile_cons_of_neg hdigit])
    split
    next =>
      split
      next => exact .ok
      next => exact .error (Failure.named_of_some fun _ => hspace).toRegular
    next => exact .ok

end Token

/-! ### Expressions -/

namespace Expression

variable {base c : Cursor}

section
variable {α : Type} {item : (d : Cursor) → base < d → Reading (Step d α)}
  (hitem : ∀ d h, FailsWith Failure.Regular (item d h))
include hitem

/-- Only final failures of a further item are failures of the list, as a soft one ends it. The
induction is on the rest of the source. -/
theorem moreItems_named (h : base ≤ c) : FailsWith Failure.Named (moreItems item c h) := by
  induction hn : c.rest.length using Nat.strongRecOn generalizing c with
  | _ n ih =>
    rw [moreItems]
    split
    next => exact .ok
    next comma _ =>
      split
      next f hf =>
        split
        next hfinal => exact .of_final (hitem _ _ f hf) hfinal
        next => exact .ok
      next first _ =>
        have hlt := hn ▸ Cursor.length_lt (comma.andThen first).later
        exact .bind (ih _ hlt _ rfl) fun _ _ => .ok

theorem optionalItems_named (h : base < c) : FailsWith Failure.Named (optionalItems item c h) := by
  have hitems : FailsWith Failure.Regular (items item c h) :=
    .bind (hitem c h) fun _ _ => .bind (moreItems_named hitem _).regular fun _ _ => .ok
  exact .bind hitems.optional fun _ _ => .ok

end

theorem items_named {α : Type} {item : (d : Cursor) → base < d → Reading (Step d α)}
    (hitem : ∀ d h, FailsWith Failure.Named (item d h)) (h : base < c) :
    FailsWith Failure.Named (items item c h) :=
  .bind (hitem c h) fun _ _ =>
    .bind (moreItems_named (fun d h => (hitem d h).regular) _) fun _ _ => .ok

theorem atom_regular (c : Cursor) : FailsWith Failure.Regular (atom c) :=
  .orElse ((number_regular c).map _) <| .orElse ((string_regular c).map _) <|
    .orElse ((keyword_regular _ c).map _) <| .orElse ((keyword_regular _ c).map _) <|
      (name_regular c).map _

/-- A mark or a name that has to follow. Its expectation is stated before the space in front of it. -/
theorem required_named {α : Type} {read : (d : Cursor) → Reading (Step d α)} {e : Expectation}
    (hread : ∀ d, FailsWith Failure.Regular (read d)) (he : e.afterSpace = false) (c : Cursor) :
    FailsWith Failure.Named (Reading.commit ((lexeme read c).expecting e)) :=
  (Reading.FailsWith.expecting (fun h => Bool.noConfusion (he.symm.trans h))
    (lexeme_regular hread c)).commit

section
variable {inner : After base} (hinner : ∀ d h, FailsWith Failure.Named (inner d h))
include hinner

theorem vector_regular (h : base ≤ c) : FailsWith Failure.Regular (vector inner c h) := by
  refine .bind (char_regular _ c) fun opened _ => .regular ?_
  refine .bind (items_named hinner _).commit fun list _ => ?_
  refine .bind (required_named (char_regular _) rfl _) fun closed _ => ?_
  split
  · exact .ok
  · exact .error (Failure.named_of_some Bool.noConfusion)

theorem parenthesized_regular (h : base ≤ c) :
    FailsWith Failure.Regular (parenthesized inner c h) :=
  .bind (char_regular _ c) fun _ _ => .regular <| .bind (hinner _ _).commit fun _ _ =>
    .bind (required_named (char_regular _) rfl _) fun _ _ => .ok

/-- Space has been skipped where an expression is expected. -/
theorem primary_named (h : base ≤ c) : FailsWith Failure.Named (primary inner c h) := by
  have hspace := Cursor.le_trans h (le_skipSpace c)
  have hhere : FailsWith Failure.Named (primaryHere inner (skipSpace c) hspace) :=
    .expecting (fun _ => skipSpace_skipSpace c) <| .choice <| .orElse (atom_regular _) <|
      .orElse (vector_regular hinner _) <| parenthesized_regular hinner _
  exact hhere.map _

/-- A call or a member access fails behind its mark only, and then it names an argument, the closing
parenthesis, a field name, or that only names can be called. -/
theorem suffix_named (e : Expr) (h : base ≤ c) : FailsWith Failure.Named (suffix inner e c h) := by
  unfold suffix
  split
  next opened _ =>
    split
    next =>
      have hargs : FailsWith Failure.Named (arguments inner opened.next (opened.lt_next h)) :=
        .bind (optionalItems_named (fun d h => (hinner d h).regular) _) fun _ _ =>
          .bind (required_named (char_regular _) rfl _) fun _ _ => .ok
      exact .bind hargs fun _ _ => .ok
    next => exact .error (Failure.named_of_some fun _ => skipSpace_skipSpace c)
  next =>
    split
    next => exact .bind (required_named name_regular rfl _) fun _ _ => .ok
    next => exact .ok

/-- Calls and members that follow an expression fail as one of them does, by induction on the rest of
the source. -/
theorem suffixes_named (e : Expr) (h : base ≤ c) :
    FailsWith Failure.Named (suffixes inner e c h) := by
  induction hn : c.rest.length using Nat.strongRecOn generalizing e c with
  | _ n ih =>
    rw [suffixes]
    refine .bind (suffix_named hinner e h) fun found _ => ?_
    cases found with
    | none => exact .ok
    | some s =>
      have hlt := hn ▸ Cursor.length_lt s.later
      exact .bind (ih _ hlt _ _ rfl) fun _ _ => .ok

/-- Negation and powers name what was expected, by induction on the rest of the source: a sign is
followed by another operand of this level, and so are the stars of a power. -/
theorem unary_named (h : base ≤ c) : FailsWith Failure.Named (unary inner c h) := by
  induction hn : c.rest.length using Nat.strongRecOn generalizing c with
  | _ n ih =>
    rw [unary]
    split
    next minus _ =>
      have hlt := hn ▸ Cursor.length_lt minus.later
      exact .bind (ih _ hlt _ rfl).commit fun _ _ => .ok
    next =>
      have hfirst : FailsWith Failure.Named (postfixed inner c h) :=
        .bind (primary_named hinner h) fun _ _ =>
          .bind (suffixes_named hinner _ _) fun _ _ => .ok
      refine .bind hfirst fun first _ => ?_
      split
      next => exact .ok
      next stars _ =>
        have hlt := hn ▸ Cursor.length_lt (first.andThen stars).later
        exact .bind (ih _ hlt _ rfl).commit fun _ _ => .ok

end

section
variable {operator : OperatorReader} {operand : From base}
  (hoperand : ∀ d h, FailsWith Failure.Named (operand d h))
include hoperand

/-- Behind an operator an operand has to follow, and its failure is made final. Without an operator
nothing fails. -/
theorem moreOperands_named (left : Expr) (h : base ≤ c) :
    FailsWith Failure.Named (moreOperands operator operand left c h) := by
  induction hn : c.rest.length using Nat.strongRecOn generalizing left c with
  | _ n ih =>
    rw [moreOperands]
    split
    next => exact .ok
    next op _ =>
      refine .bind (hoperand _ _).commit fun right _ => ?_
      have hlt := hn ▸ Cursor.length_lt (op.andThen right).later
      exact .bind (ih _ hlt _ _ rfl) fun _ _ => .ok

theorem chain_named (h : base ≤ c) : FailsWith Failure.Named (chain operator operand c h) :=
  .bind (hoperand c h) fun _ _ => .bind (moreOperands_named hoperand _ _) fun _ _ => .ok

end

section
variable {inner : After base} (hinner : ∀ d h, FailsWith Failure.Named (inner d h))
include hinner

theorem sum_named (h : base ≤ c) : FailsWith Failure.Named (sum inner c h) :=
  chain_named (fun _ h => chain_named (fun _ h => unary_named hinner h) h) h

theorem comparison_named (h : base ≤ c) : FailsWith Failure.Named (comparison inner c h) := by
  refine .bind (sum_named hinner h) fun left _ => ?_
  split
  next => exact .ok
  next => exact .bind (sum_named hinner _).commit fun _ _ => .ok

/-- Logical negation names what was expected, by induction on the rest of the source as `not` may be
repeated. -/
theorem negation_named (h : base ≤ c) : FailsWith Failure.Named (negation inner c h) := by
  induction hn : c.rest.length using Nat.strongRecOn generalizing c with
  | _ n ih =>
    rw [negation]
    split
    next word _ =>
      have hlt := hn ▸ Cursor.length_lt word.later
      exact .bind (ih _ hlt _ rfl).commit fun _ _ => .ok
    next => exact (comparison_named hinner _).map _

end

theorem expression_named (c : Cursor) : FailsWith Failure.Named (expression c) := by
  induction hn : c.rest.length using Nat.strongRecOn generalizing c with
  | _ n ih =>
    rw [expression]
    have hinner : ∀ d (_ : c < d), FailsWith Failure.Named (expression d) := fun d h =>
      ih _ (hn ▸ Cursor.length_lt h) d rfl
    exact chain_named (fun _ h => chain_named (fun _ h => negation_named hinner h) h) _

end Expression

/-! ### Statements -/

namespace Statement

open Expression

variable {base c : Cursor}

theorem assignMark_regular (c : Cursor) : FailsWith Failure.Regular (assignMark c) :=
  charNotBefore_regular _ _ c

theorem assignment_regular (c : Cursor) : FailsWith Failure.Regular (assignment c) := by
  have htarget : ∀ d, FailsWith Failure.Regular (target d) := fun d =>
    .bind (lexeme_regular name_regular d) fun _ _ => .ok
  exact .bind (htarget c) fun _ _ =>
    .bind (moreItems_named (fun d _ => htarget d) _).regular fun _ _ =>
      .bind (lexeme_regular assignMark_regular _) fun _ _ =>
        .bind (expression_named _).commit.regular fun _ _ => .ok

theorem fieldAssignment_regular (c : Cursor) : FailsWith Failure.Regular (fieldAssignment c) :=
  .bind (lexeme_regular name_regular c) fun _ _ =>
    .bind (lexeme_regular (char_regular _) _) fun _ _ =>
      .bind (lexeme_regular name_regular _) fun _ _ =>
        .bind (lexeme_regular assignMark_regular _) fun _ _ =>
          .bind (expression_named _).commit.regular fun _ _ => .ok

theorem simple_regular (c : Cursor) : FailsWith Failure.Regular (simple c) :=
  .bind (.choice <| .orElse (assignment_regular c) <| .orElse (fieldAssignment_regular c) <|
    (expression_named c).regular.map _) fun _ _ =>
      .bind (required_named (char_regular _) rfl _).regular fun _ _ => .ok

theorem typeName_named (c : Cursor) : FailsWith Failure.Named (typeName c) := by
  refine .bind (required_named name_regular rfl c) fun word _ => ?_
  split
  · exact .ok
  · exact .error (Failure.named_of_some Bool.noConfusion)

theorem parameter_named (c : Cursor) : FailsWith Failure.Named (parameter c) := by
  have hdefault : ∀ d, FailsWith Failure.Regular (defaultValue d) := fun d =>
    .bind (lexeme_regular assignMark_regular d) fun _ _ =>
      .bind (expression_named _).commit.regular fun _ _ => .ok
  have hhere : FailsWith Failure.Named (parameterHere (skipSpace c)) :=
    .bind (.expecting (fun _ => skipSpace_skipSpace c) (name_regular _)) fun _ _ =>
      .bind (required_named (char_regular _) rfl _) fun _ _ =>
        .bind (typeName_named _) fun _ _ => .bind (hdefault _).optional fun _ _ => .ok
  exact hhere.map _

theorem outputs_regular (c : Cursor) : FailsWith Failure.Regular (outputs c) :=
  .bind (lexeme_regular (pair_regular _ _) c) fun _ _ =>
    .bind (items_named (fun d _ => parameter_named d) _).commit.regular fun _ _ => .ok

theorem bound_named (c : Cursor) : FailsWith Failure.Named (bound c) := by
  have hhere : FailsWith Failure.Named (boundHere (skipSpace c)) := by
    refine .bind (char_regular _ _).optional fun minus _ => ?_
    refine .bind (.expecting Bool.noConfusion (number_regular _)) fun digits _ => ?_
    split
    · exact .ok
    · exact .error (Failure.named_of_some fun _ => skipSpace_skipSpace c)
  exact hhere.map _

section
variable {inner : StmtAfter base} (hinner : ∀ d h, FailsWith Failure.Regular (inner d h))
include hinner

/-- Statements of a block end at the first soft failure, so what fails is final and thus named. -/
theorem statements_named (h : base < c) : FailsWith Failure.Named (statements inner c h) := by
  induction hn : c.rest.length using Nat.strongRecOn generalizing c with
  | _ n ih =>
    rw [statements]
    split
    next f hf =>
      split
      next hfinal => exact .of_final (hinner _ _ f hf) hfinal
      next => exact .ok
    next first _ =>
      have hlt := hn ▸ Cursor.length_lt first.later
      exact .bind (ih _ hlt _ rfl) fun _ _ => .ok

theorem block_named (h : base ≤ c) : FailsWith Failure.Named (block inner c h) :=
  .bind (.expecting Bool.noConfusion (lexeme_regular (char_regular _) c)) fun _ _ =>
    .bind (statements_named hinner _) fun _ _ =>
      .bind (required_named (char_regular _) rfl _) fun _ _ => .ok

/-- A definition fails softly before its keyword. Behind the keyword each part is asked for by
name. -/
theorem definition_regular (h : base ≤ c) : FailsWith Failure.Regular (definition inner c h) := by
  have hkeyword : FailsWith Failure.Regular (defKeyword c) :=
    .choice <| .orElse ((keyword_regular _ c).map _) ((keyword_regular _ c).map _)
  exact .bind hkeyword fun _ _ => .regular <|
    .bind (required_named name_regular rfl _) fun _ _ =>
      .bind (required_named (char_regular _) rfl _) fun _ _ =>
        .bind (optionalItems_named (fun d _ => (parameter_named d).regular) _) fun _ _ =>
          .bind (required_named (char_regular _) rfl _) fun _ _ =>
            .bind (outputs_regular _).optional fun _ _ =>
              .bind (block_named hinner _).commit fun _ _ => .ok

theorem loop_regular (h : base ≤ c) : FailsWith Failure.Regular (loop inner c h) := by
  have hcounter : ∀ d, FailsWith Failure.Regular (counter d) := fun d =>
    .bind (lexeme_regular name_regular d) fun _ _ =>
      .bind (lexeme_regular assignMark_regular _) fun _ _ => .ok
  exact .bind (keyword_regular _ c) fun _ _ => .regular <|
    .bind (hcounter _).optional fun _ _ =>
      .bind (bound_named _).commit fun _ _ =>
        .bind (required_named (pair_regular _ _) rfl _) fun _ _ =>
          .bind (bound_named _).commit fun _ _ =>
            .bind (block_named hinner _).commit fun _ _ => .ok

theorem zone_regular (h : base ≤ c) : FailsWith Failure.Regular (zone inner c h) :=
  .bind (keyword_regular _ c) fun _ _ => .regular <| .bind (expression_named _).commit fun _ _ =>
    .bind (block_named hinner _).commit fun _ _ => .ok

theorem statementHere_regular (h : base ≤ c) :
    FailsWith Failure.Regular (statementHere inner c h) :=
  .bind (.choice <| .orElse (definition_regular hinner h) <| .orElse (loop_regular hinner h) <|
    .orElse (zone_regular hinner h) (simple_regular c)) fun _ _ => .ok

end

theorem statement_regular (c : Cursor) : FailsWith Failure.Regular (statement c) := by
  induction hn : c.rest.length using Nat.strongRecOn generalizing c with
  | _ n ih =>
    rw [statement]
    have hinner : ∀ d (_ : c < d), FailsWith Failure.Regular (statement d) := fun d h =>
      ih _ (hn ▸ Cursor.length_lt h) d rfl
    exact (statementHere_regular hinner _).map _

/-- A source that cannot be read lacks something that can be named: whichever reading fails, a
reading around it states what was expected there. -/
theorem program_named (c : Cursor) : FailsWith Failure.Named (program c) := by
  have hall : FailsWith Failure.Named (allStatements c) := by
    induction hn : c.rest.length using Nat.strongRecOn generalizing c with
    | _ n ih =>
      rw [allStatements]
      split
      next f hf =>
        split
        next hfinal => exact .of_final (statement_regular _ f hf) hfinal
        next => exact .ok
      next first _ =>
        have hlt := hn ▸ Cursor.length_lt first.later
        exact .bind (ih _ hlt _ rfl) fun _ _ => .ok
  refine .bind hall fun body _ => ?_
  split
  · exact .ok
  · exact .error ((Failure.regular_mismatch _).named_within Bool.noConfusion)

end Statement

/-! ### The two ways to skip space -/

theorem Text.blank_of_spaceChar {x : Char} (h : spaceChar x = true) : Text.blank x = true := by
  simp only [spaceChar, Bool.or_eq_true, beq_iff_eq] at h
  rcases h with ((rfl | rfl) | rfl) | rfl <;> decide

theorem Text.blank_of_mem_takeWhile {cs : List Char} :
    ∀ y ∈ cs.takeWhile Text.blank, Text.blank y = true :=
  List.all_eq_true.1 List.all_takeWhile

namespace Cursor

variable {c : Cursor} {x : Char} {rest : List Char}

theorem trim_of_blank (h : c.rest = x :: rest) (hx : Text.blank x = true) :
    c.trim = (c.after [x] rest).trim := by
  simp only [trim, skipWhile, after, h, List.takeWhile_cons_of_pos hx, List.dropWhile_cons_of_pos hx,
    utf8Length_cons, utf8Length_nil, Nat.add_zero, Nat.add_assoc]

theorem trim_of_not_blank (offset : Nat) (hx : Text.blank x = false) :
    trim ⟨offset, x :: rest⟩ = ⟨offset, x :: rest⟩ := by
  have hneg : ¬ Text.blank x = true := Bool.eq_false_iff.1 hx
  simp only [trim, skipWhile, after, List.takeWhile_cons_of_neg hneg,
    List.dropWhile_cons_of_neg hneg, utf8Length_nil, Nat.add_zero]

/-- Trimming stays where it is exactly if no blank character follows. Blanks are all white space, not
only the characters that separate tokens. -/
theorem trim_eq_self_iff : c.trim = c ↔ c.rest.takeWhile Text.blank = [] := by
  have hsplit : c.rest.takeWhile Text.blank ++ c.trim.rest = c.rest :=
    List.takeWhile_append_dropWhile
  constructor
  · intro h
    rw [h] at hsplit
    exact List.append_left_eq_self.1 hsplit
  · intro h
    rw [h, List.nil_append] at hsplit
    have hoffset : c.trim.offset = c.offset + utf8Length (c.rest.takeWhile Text.blank) := rfl
    rw [h] at hoffset
    exact eq_of_offset_eq c.le_trim (Cursor.le_refl c) hoffset

theorem not_blank_of_trim (h : c.trim.rest.head? = some x) : Text.blank x = false := by
  have hhead := List.head?_dropWhile_not Text.blank c.rest
  have hdrop : (c.rest.dropWhile Text.blank).head? = some x := h
  rw [hdrop] at hhead
  exact hhead

/-- Where all blanks are skipped by readers, readers go on after them in the same place, whether the
blanks were trimmed before or not. -/
theorem skipSpace_trim (h : ∀ y ∈ c.rest.takeWhile Text.blank, spaceChar y = true) :
    skipSpace c.trim = skipSpace c := by
  obtain ⟨offset, rest⟩ := c
  induction rest generalizing offset with
  | nil => rfl
  | cons x rest ih =>
    by_cases hx : Text.blank x = true
    · simp only [List.takeWhile_cons_of_pos hx, List.forall_mem_cons] at h
      rw [trim_of_blank rfl hx, skipSpace_of_space (c := ⟨offset, x :: rest⟩) rfl h.1]
      exact ih _ h.2
    · rw [trim_of_not_blank offset (Bool.eq_false_iff.2 hx)]

/-- If readers skip all blanks that stand here, then each of these is one that separates tokens.
There are other blanks, which are trimmed from the end of a span but are no separators. -/
theorem spaceChar_of_trim_le (h : c.trim ≤ skipSpace c) :
    ∀ y ∈ c.rest.takeWhile Text.blank, spaceChar y = true := by
  obtain ⟨offset, rest⟩ := c
  induction rest generalizing offset with
  | nil => exact List.forall_mem_nil _
  | cons x rest ih =>
    by_cases hx : Text.blank x = true
    · have hnext : (⟨offset, x :: rest⟩ : Cursor).trim = _ := trim_of_blank rfl hx
      simp only [List.takeWhile_cons_of_pos hx, List.forall_mem_cons]
      have hspace : spaceChar x = true := by
        -- A reader would stop at a blank of another kind, which `trim` has passed.
        by_contra hspace
        have hstay : skipSpace ⟨offset, x :: rest⟩ = ⟨offset, x :: rest⟩ := by
          refine skipSpace_of_solid fun y rest' hy => ?_
          cases hy
          exact ⟨Bool.eq_false_iff.2 hspace, by rintro rfl; exact absurd hx (by decide)⟩
        rw [hstay, hnext] at h
        have hlt : (⟨offset, x :: rest⟩ : Cursor) < ⟨offset, x :: rest⟩ :=
          Cursor.lt_of_lt_of_le (Cursor.lt_of_lt_of_le (lt_after (s := [x]) rfl (by simp))
            (le_trim _)) h
        exact Nat.lt_irrefl _ (length_lt hlt)
      rw [hnext, skipSpace_of_space rfl hspace] at h
      exact ⟨hspace, ih _ h⟩
    · rw [List.takeWhile_cons_of_neg hx]
      exact List.forall_mem_nil _

/-- The two agree exactly if there is nothing that only one of them skips. -/
theorem trim_eq_skipSpace_iff : c.trim = skipSpace c ↔
    (∀ y ∈ c.rest.takeWhile Text.blank, spaceChar y = true) ∧ ¬ StartsComment c.trim.rest := by
  constructor
  · intro h
    refine ⟨spaceChar_of_trim_le (h ▸ Cursor.le_refl _), fun hcomment => ?_⟩
    have hlt := lt_skipSpace_of_comment hcomment
    rw [h, skipSpace_skipSpace] at hlt
    exact Nat.lt_irrefl _ (length_lt hlt)
  · rintro ⟨hspace, hcomment⟩
    rw [← skipSpace_trim hspace, skipSpace_eq_self (fun y hy => ?_) hcomment]
    have hblank := not_blank_of_trim hy
    exact Bool.eq_false_iff.2 fun hspace => by simp [Text.blank_of_spaceChar hspace] at hblank

end Cursor

/-! ### Syntax errors -/

/-- An error points at a token, if `place` is where its expectation is stated: a reader that comes from
there skips all characters up to the start of the error, and none there. -/
def SourceError.PointsAtToken (e : SourceError) (place : Cursor) : Prop :=
  ∃ found : Cursor, found.offset = e.span.start ∧ place ≤ found ∧ found ≤ skipSpace place ∧
    skipSpace found = found

namespace Failure

variable {f : Failure}

theorem start_toError (f : Failure) : f.toError.span.start = f.place.trim.offset := by
  unfold toError
  simp only
  split <;> rfl

/-- An error points at a token exactly if both ways to skip space lead to the same place. -/
theorem pointsAtToken_iff : f.toError.PointsAtToken f.place ↔ f.place.trim = skipSpace f.place := by
  constructor
  · rintro ⟨found, hstart, hle, hskip, hfixed⟩
    obtain rfl : found = f.place.trim :=
      Cursor.eq_of_offset_eq hle f.place.le_trim (hstart.trans f.start_toError)
    rw [← Cursor.skipSpace_trim (Cursor.spaceChar_of_trim_le hskip), hfixed]
  · intro h
    exact ⟨f.place.trim, f.start_toError.symm, f.place.le_trim, h ▸ Cursor.le_refl _,
      by rw [h, skipSpace_skipSpace]⟩

/-- In a source without comments and with white space of one kind only, every error points at a
token. -/
theorem pointsAtToken_of_plain {source : String} (h : Cursor.ofString source ≤ f.place)
    (hplain : ∀ y ∈ source.toList, y ≠ '#' ∧ (Text.blank y = true → spaceChar y = true)) :
    f.toError.PointsAtToken f.place := by
  obtain ⟨before, hbefore, -⟩ := h
  have hmem : ∀ y ∈ f.place.rest, y ∈ source.toList := fun y hy => by
    rw [show source.toList = before ++ f.place.rest from hbefore]
    exact List.mem_append_right _ hy
  refine pointsAtToken_iff.2 (Cursor.trim_eq_skipSpace_iff.2 ⟨fun y hy => ?_, ?_⟩)
  · have hy' := (List.takeWhile_prefix _).subset hy
    exact (hplain y (hmem y hy')).2 (Text.blank_of_mem_takeWhile y hy)
  · rintro ⟨rest, hrest, -⟩
    have hhash : '#' ∈ f.place.trim.rest := hrest ▸ .head _
    exact (hplain '#' (hmem '#' ((List.dropWhile_suffix _).subset hhash))).1 rfl

end Failure

/-- Where a syntax error points. It names what was expected, at the place where that is stated, and it
starts after all white space there, at the end of the source or at a character that is no white space.
It points at a token exactly if this white space is of the kind that separates tokens and no comment
follows it. That is so in every source without `#` and without other white space than blanks, tabs and
line breaks.

Where space has been skipped before the expectation is stated, a reader does not skip anything there. So
the error then points at a token exactly if there is no white space. -/
theorem Program.parse_error_found {source : String} {e : SourceError}
    (h : Program.parse source = .error e) :
    ∃ (f : Failure) (x : Expectation) (blanks : List Char) (found : Cursor),
      Statement.program (Cursor.ofString source) = .error f ∧ e = f.toError ∧
      Cursor.ofString source ≤ f.place ∧ f.expected = some x ∧
      f.place.rest = blanks ++ found.rest ∧ found.offset = f.place.offset + utf8Length blanks ∧
      e.span.start = found.offset ∧ (∀ y ∈ blanks, Text.blank y = true) ∧
      (∀ y, found.rest.head? = some y → Text.blank y = false) ∧
      (e.PointsAtToken f.place ↔
        (∀ y ∈ blanks, spaceChar y = true) ∧ ¬ StartsComment found.rest) ∧
      (x.afterSpace = true →
        skipSpace f.place = f.place ∧ (e.PointsAtToken f.place ↔ blanks = [])) ∧
      ((∀ y ∈ source.toList, y ≠ '#' ∧ (Text.blank y = true → spaceChar y = true)) →
        e.PointsAtToken f.place) := by
  unfold Program.parse at h
  cases hp : Statement.program (Cursor.ofString source) with
  | ok p =>
    rw [hp] at h
    cases h
  | error f =>
    rw [hp] at h
    cases h
    have hplace := (Statement.program_failsFrom _).place hp
    have hnamed := Statement.program_named _ f hp
    obtain ⟨x, hx⟩ := Option.isSome_iff_exists.1 hnamed.named
    refine ⟨f, x, f.place.rest.takeWhile Text.blank, f.place.trim, rfl, rfl, hplace, hx,
      List.takeWhile_append_dropWhile.symm, rfl, f.start_toError, Text.blank_of_mem_takeWhile,
      fun _ => Cursor.not_blank_of_trim, Failure.pointsAtToken_iff.trans Cursor.trim_eq_skipSpace_iff,
      fun hafter => ?_, Failure.pointsAtToken_of_plain hplace⟩
    have hspace := hnamed.spaced x hx hafter
    refine ⟨hspace, Failure.pointsAtToken_iff.trans ?_⟩
    rw [hspace]
    exact Cursor.trim_eq_self_iff

/-- The failure of a reading that fails. -/
def Reading.failure? {α : Type} : Reading α → Option Failure
  | .error f => some f
  | .ok _ => none

theorem Reading.failure?_eq_some {α : Type} {r : Reading α} {f : Failure}
    (h : r.failure? = some f) : r = .error f := by
  cases r with
  | ok a => cases h
  | error f' =>
    cases h
    rfl

/-- A statement without its semicolon before a comment. The error points at the comment, although
readers would skip it and go on with what follows. -/
theorem Program.parse_error_comment : ∃ f e,
    Statement.program (Cursor.ofString "x = 1 # note") = .error f ∧
    Program.parse "x = 1 # note" = .error e ∧ e.message = "expected ';', found '#'" ∧
    e.span = ⟨6, 7⟩ ∧ skipSpace f.place = ⟨12, []⟩ ∧ ¬ e.PointsAtToken f.place := by
  have hfail : ((Statement.program (Cursor.ofString "x = 1 # note")).failure?.any fun f =>
      f.toError.message = "expected ';', found '#'" ∧ f.toError.span = ⟨6, 7⟩ ∧
        skipSpace f.place = ⟨12, []⟩ ∧ f.place.trim ≠ skipSpace f.place) = true := by
    decide +kernel
  obtain ⟨f, hf, hall⟩ := (Option.any_eq_true ..).1 hfail
  obtain ⟨hmessage, hspan, hskip, hne⟩ := of_decide_eq_true hall
  have hp := Reading.failure?_eq_some hf
  refine ⟨f, f.toError, hp, ?_, hmessage, hspan, hskip, mt Failure.pointsAtToken_iff.1 hne⟩
  rw [Program.parse, hp]
  rfl

/-- An operator without an operand, before space and the end of the statement. What is lacking is an
expression, and the error points at the token where it was looked for. -/
theorem Program.parse_error_found_operand : ∃ f e,
    Statement.program (Cursor.ofString "x = 1 +\t ;") = .error f ∧
    Program.parse "x = 1 +\t ;" = .error e ∧ f.expected = some .expression ∧
    e.PointsAtToken f.place := by
  have hfail : ((Statement.program (Cursor.ofString "x = 1 +\t ;")).failure?.any fun f =>
      f.expected = some .expression) = true := by decide +kernel
  obtain ⟨f, hf, hx⟩ := (Option.any_eq_true ..).1 hfail
  have hp := Reading.failure?_eq_some hf
  have herror : Program.parse "x = 1 +\t ;" = .error f.toError := by
    rw [Program.parse, hp]
    rfl
  obtain ⟨f', x, blanks, found, hp', -, -, -, -, -, -, -, -, -, -, hpoints⟩ :=
    parse_error_found herror
  obtain rfl : f' = f := Except.error.inj (hp'.symm.trans hp)
  refine ⟨f', _, hp, herror, of_decide_eq_true hx, hpoints ?_⟩
  have hplain : ("x = 1 +\t ;".toList.all fun y =>
      y ≠ '#' ∧ (Text.blank y = true → spaceChar y = true)) = true := by decide +kernel
  exact fun y hy => of_decide_eq_true (List.all_eq_true.1 hplain y hy)

end NodeFormula

import NodeFormula.Proofs.Parsing.Lexing

/-!
# Reading operators back

Each level of the grammar has a reader (`readerAt`). Lexemes that are read as an operand by the reader
of one level are read by the readers of all weaker levels, and operands with an operator between them
are read by the level of the operator. The lexeme after an operand matters: it must not bind as
strongly as the position (`Follow`), or the reader would go on.

Operators that group to the left are read by a loop. For these the statement is about what is left of
the loop after an operand (`ChainReads`), which goes through an induction on the expression.
-/

namespace NodeFormula

open Token Expression Lexeme

/-! ### What may follow and what may start an operand -/

namespace Lexeme

/-- How strongly a lexeme after an operand binds: the level of the operator it is, zero if it ends an
expression, and 9 if it cannot stand there. -/
def strength : Lexeme → Nat
  | word s => if s = "or" then 1 else if s = "and" then 2 else 9
  | mark m =>
    match m with
    | .closeParen | .closeBrace | .comma | .semicolon | .openBrace => 0
    | .less | .lessEqual | .greater | .greaterEqual | .equal | .notEqual => 4
    | .plus | .minus => 5
    | .star | .slash | .percent => 6
    | .stars => 7
    | .openParen | .dot => 8
    | .colon | .assign | .arrow => 9
  | _ => 9

/-- The highest level at which an expression can start with a lexeme, and zero if none can. -/
def startLevel : Lexeme → Nat
  | word s => if s = "not" then 3 else 8
  | digits _ => 8
  | quoted _ => 8
  | mark .minus => 7
  | mark .openParen => 8
  | mark .openBrace => 8
  | _ => 0

end Lexeme

/-- The lexemes after an operand of the given level. A lone `*` must not be read as `**`. -/
structure Follow (k : Nat) (ls : List Lexeme) : Prop where
  strength : ∀ l, ls.head? = some l → l.strength < k
  star : ∀ rest, ls = mark .star :: rest → firstChar rest ≠ some '*'

/-- Lexemes that start an operand of the given level. -/
def Opens (k : Nat) (ls : List Lexeme) : Prop := ∃ l rest, ls = l :: rest ∧ k ≤ l.startLevel

theorem Follow.mono {k k' : Nat} {ls : List Lexeme} (h : Follow k ls) (hk : k ≤ k') : Follow k' ls :=
  ⟨fun l hl => Nat.lt_of_lt_of_le (h.strength l hl) hk, h.star⟩

theorem Follow.of_mark {k : Nat} {m : Mark} {ls : List Lexeme} (h : (mark m).strength < k)
    (hm : m ≠ .star) : Follow k (mark m :: ls) := by
  refine ⟨fun l hl => ?_, fun rest hrest => ?_⟩
  · cases hl
    exact h
  · cases hrest
    exact absurd rfl hm

/-- A mark that ends an expression may follow any operand. -/
theorem Follow.of_end (m : Mark) (hm : (mark m).strength = 0) (ls : List Lexeme) :
    Follow 1 (mark m :: ls) := by
  refine .of_mark (by rw [hm]; decide) ?_
  rintro rfl
  cases hm

theorem Opens.mono {k k' : Nat} {ls : List Lexeme} (h : Opens k ls) (hk : k' ≤ k) : Opens k' ls :=
  let ⟨l, rest, hls, hl⟩ := h
  ⟨l, rest, hls, Nat.le_trans hk hl⟩

/-- What opens an operand still does so with more behind it. -/
theorem Opens.append {k : Nat} {ls : List Lexeme} (h : Opens k ls) (more : List Lexeme) :
    Opens k (ls ++ more) := by
  obtain ⟨l, rest, rfl, hl⟩ := h
  exact ⟨l, rest ++ more, rfl, hl⟩

/-- The characters that an operand does not start with. It starts with a name, a number or a string,
or with a sign or an opening parenthesis or brace. -/
theorem Opens.firstChar_ne {ls : List Lexeme} (h : Opens 1 ls) (hv : ∀ l ∈ ls, l.Valid) {x : Char}
    (hx : nameChar x = false) (hne : x ∉ ['"', '-', '(', '\x7b']) : firstChar ls ≠ some x := by
  intro hfirst
  obtain ⟨m, rest, rfl, hm⟩ := firstChar_mark hv hfirst hx fun hmem =>
    hne (List.mem_append_left ['(', '\x7b'] hmem)
  obtain ⟨l, rest', hls, hl⟩ := h
  cases hls
  cases m with
  | minus | openParen | openBrace =>
    cases hm
    exact hne (by decide)
  | _ => cases hl

/-! ### Operators -/

theorem BinaryOp.strength_lexeme (op : BinaryOp) : op.lexeme.strength = op.level := by
  cases op <;> rfl

/-- The reader of the operators of a level. -/
def operatorAt : Nat → OperatorReader
  | 1 => Expression.word .or
  | 2 => Expression.word .and
  | 4 => comparisonOperator
  | 5 => sumOperator
  | _ => productOperator

section
variable {c : Cursor} {ls : List Lexeme}

theorem mark_gives {read : (d : Cursor) → Reading (Step d Unit)} (op : BinaryOp)
    (h : (read c).Gives fun s => Ahead ls s.next) :
    (Expression.mark op read c).Gives fun s => s.value = op ∧ Ahead ls s.next :=
  h.map fun _ hs => ⟨rfl, hs⟩

theorem mark_fails {read : (d : Cursor) → Reading (Step d Unit)} (op : BinaryOp)
    (h : (read c).Fails) : (Expression.mark op read c).Fails :=
  h.map _

theorem firstOf_head {r : OperatorReader} {rs : List OperatorReader} {P : Step c BinaryOp → Prop}
    (h : (r c).Gives P) : (firstOf (r :: rs) c).Gives P :=
  h.orElse _

theorem firstOf_tail {r : OperatorReader} {rs : List OperatorReader} {P : Step c BinaryOp → Prop}
    (h : (r c).Fails) (hs : (firstOf rs c).Gives P) : (firstOf (r :: rs) c).Gives P :=
  h.orElse_gives hs

theorem firstOf_fails {rs : List OperatorReader} (h : ∀ r ∈ rs, (r c).Fails) :
    (firstOf rs c).Fails := by
  induction rs with
  | nil => exact ⟨_, rfl, rfl⟩
  | cons r rs ih => exact (h r (.head _)).orElse (ih fun r' hr => h r' (.tail _ hr))

theorem Here.mark_char_fails {m : Mark} {x : Char} (h : Here (mark m :: ls) c)
    (hx : m.chars.head? ≠ some x) : (Token.char x c).Fails :=
  h.char_fails hx

theorem Here.mark_pair_fails {m : Mark} {x y : Char} (h : Here (mark m :: ls) c)
    (hx : m.chars.head? ≠ some x) : (Token.pair x y c).Fails :=
  h.pair_fails hx

theorem Here.charNotBefore_fails {x y : Char} (h : Here ls c) (hx : firstChar ls ≠ some x) :
    (Token.charNotBefore x y c).Fails :=
  NodeFormula.charNotBefore_fails (.inl (by rw [h.head?_rest]; exact hx))

/-- The operator of a binary expression is read by its level. Where one mark is the start of another
the longer one is tried first, and the operand behind the shorter one does not complete it. -/
theorem operator_gives {op : BinaryOp} (hop : op ≠ .pow) (h : Here (op.lexeme :: ls) c)
    (ho : Opens 1 ls) :
    (operatorAt op.level c).Gives fun s => s.value = op ∧ Ahead ls s.next := by
  have hv : ∀ l ∈ ls, l.Valid := fun l hl => h.valid l (.tail _ hl)
  have hgreater : firstChar ls ≠ some '>' := ho.firstChar_ne hv (by decide) (by decide)
  have hstar : firstChar ls ≠ some '*' := ho.firstChar_ne hv (by decide) (by decide)
  have hequal : firstChar ls ≠ some '=' := ho.firstChar_ne hv (by decide) (by decide)
  cases op with
  | or => exact h.keyword.map fun _ hs => ⟨rfl, hs⟩
  | and => exact h.keyword.map fun _ hs => ⟨rfl, hs⟩
  | add => exact firstOf_head (mark_gives _ (h.char rfl))
  | sub =>
    refine firstOf_tail (mark_fails _ (h.mark_char_fails (by decide))) (firstOf_head ?_)
    exact mark_gives _ (h.charNotBefore rfl hgreater (by decide) (by decide))
  | mul => exact firstOf_head (mark_gives _ (h.charNotBefore rfl hstar (by decide) (by decide)))
  | div =>
    refine firstOf_tail (mark_fails _ (h.charNotBefore_fails nofun)) (firstOf_head ?_)
    exact mark_gives _ (h.char rfl)
  | mod =>
    refine firstOf_tail (mark_fails _ (h.charNotBefore_fails nofun)) ?_
    refine firstOf_tail (mark_fails _ (h.mark_char_fails (by decide))) (firstOf_head ?_)
    exact mark_gives _ (h.char rfl)
  | eq => exact firstOf_head (mark_gives _ (h.pair rfl))
  | ne =>
    refine firstOf_tail (mark_fails _ (h.mark_pair_fails (by decide))) (firstOf_head ?_)
    exact mark_gives _ (h.pair rfl)
  | le =>
    refine firstOf_tail (mark_fails _ (h.mark_pair_fails (by decide))) ?_
    refine firstOf_tail (mark_fails _ (h.mark_pair_fails (by decide))) (firstOf_head ?_)
    exact mark_gives _ (h.pair rfl)
  | ge =>
    refine firstOf_tail (mark_fails _ (h.mark_pair_fails (by decide))) ?_
    refine firstOf_tail (mark_fails _ (h.mark_pair_fails (by decide))) ?_
    refine firstOf_tail (mark_fails _ (h.mark_pair_fails (by decide))) (firstOf_head ?_)
    exact mark_gives _ (h.pair rfl)
  | lt =>
    refine firstOf_tail (mark_fails _ (h.mark_pair_fails (by decide))) ?_
    refine firstOf_tail (mark_fails _ (h.mark_pair_fails (by decide))) ?_
    refine firstOf_tail (mark_fails _
      (h.pair_fails_of_single rfl hequal (by decide) (by decide))) ?_
    refine firstOf_tail (mark_fails _ (h.mark_pair_fails (by decide))) (firstOf_head ?_)
    exact mark_gives _ (h.char rfl)
  | gt =>
    refine firstOf_tail (mark_fails _ (h.mark_pair_fails (by decide))) ?_
    refine firstOf_tail (mark_fails _ (h.mark_pair_fails (by decide))) ?_
    refine firstOf_tail (mark_fails _ (h.mark_pair_fails (by decide))) ?_
    refine firstOf_tail (mark_fails _
      (h.pair_fails_of_single rfl hequal (by decide) (by decide))) ?_
    refine firstOf_tail (mark_fails _ (h.mark_char_fails (by decide))) (firstOf_head ?_)
    exact mark_gives _ (h.char rfl)
  | pow => exact absurd rfl hop

/-- The characters that no lexeme after an operand starts with: those of marks that bind as strongly
as the operand or more strongly would have been read as part of it. -/
theorem Follow.firstChar_ne {k : Nat} (h : Follow k ls) (hk : k ≤ 9) (hv : ∀ l ∈ ls, l.Valid)
    (xs : List Char) (hx : xs.any nameChar = false)
    (hm : ∀ m : Mark, ls.head? = some (mark m) → (mark m).strength < k →
      m.chars.headD ' ' ∉ xs) {x : Char} (hmem : x ∈ xs) : firstChar ls ≠ some x := by
  cases ls with
  | nil => exact nofun
  | cons l ls =>
    intro hfirst
    have hl := h.strength l rfl
    have hhead : l.chars.head? = some x := hfirst
    cases l with
    | mark m =>
      refine hm m rfl hl ?_
      rw [List.headD_eq_head?_getD, show m.chars.head? = some x from hhead]
      exact hmem
    | word s =>
      obtain ⟨y, rest, hs, hy, -⟩ := isWord_iff.1 (hv _ (.head _))
      rw [Lexeme.chars, hs] at hhead
      cases hhead
      have hname := List.any_eq_false.1 hx _ hmem
      exact hname (nameChar_of_nameStart hy)
    | digits | negative | quoted => exact absurd (Nat.lt_of_lt_of_le hl hk) (Nat.lt_irrefl 9)

/-- No operator of a level is read after an operand of that level, since what follows binds less
strongly. For each level the first characters of its operators are gone through. -/
theorem operator_fails {k : Nat} (hk : k ∈ [1, 2, 4, 5, 6]) (hf : Follow k ls) (h : Here ls c) :
    (operatorAt k c).Fails := by
  simp only [List.mem_cons, List.not_mem_nil, or_false] at hk
  rcases hk with rfl | rfl | rfl | rfl | rfl
  · refine (h.keyword_fails (by decide) fun hhead => ?_).map _
    exact absurd (hf.strength _ hhead) (by decide)
  · refine (h.keyword_fails (by decide) fun hhead => ?_).map _
    exact absurd (hf.strength _ hhead) (by decide)
  · have hne {x : Char} : x ∈ ['=', '!', '<', '>'] → firstChar ls ≠ some x :=
      hf.firstChar_ne (by decide) h.valid _ (by decide) fun m _ => by cases m <;> decide
    refine firstOf_fails fun r hr => ?_
    simp only [List.mem_cons, List.not_mem_nil, or_false] at hr
    rcases hr with rfl | rfl | rfl | rfl | rfl | rfl
    · exact mark_fails _ (h.pair_fails (hne (by decide)))
    · exact mark_fails _ (h.pair_fails (hne (by decide)))
    · exact mark_fails _ (h.pair_fails (hne (by decide)))
    · exact mark_fails _ (h.pair_fails (hne (by decide)))
    · exact mark_fails _ (h.char_fails (hne (by decide)))
    · exact mark_fails _ (h.char_fails (hne (by decide)))
  · have hne {x : Char} : x ∈ ['+', '-'] → firstChar ls ≠ some x :=
      hf.firstChar_ne (by decide) h.valid _ (by decide) fun m _ => by cases m <;> decide
    refine firstOf_fails fun r hr => ?_
    simp only [List.mem_cons, List.not_mem_nil, or_false] at hr
    rcases hr with rfl | rfl
    · exact mark_fails _ (h.char_fails (hne (by decide)))
    · exact mark_fails _ (h.charNotBefore_fails (hne (by decide)))
  · have hne {x : Char} : x ∈ ['*', '/', '%'] → firstChar ls ≠ some x :=
      hf.firstChar_ne (by decide) h.valid _ (by decide) fun m _ => by cases m <;> decide
    refine firstOf_fails fun r hr => ?_
    simp only [List.mem_cons, List.not_mem_nil, or_false] at hr
    rcases hr with rfl | rfl | rfl
    · exact mark_fails _ (h.charNotBefore_fails (hne (by decide)))
    · exact mark_fails _ (h.char_fails (hne (by decide)))
    · exact mark_fails _ (h.char_fails (hne (by decide)))

/-- No `**` is read after an operand of the level of powers, since a power is of this level itself
and what follows binds less strongly. -/
theorem stars_fails (hf : Follow 7 ls) (h : Here ls c) : (Token.pair '*' '*' c).Fails := by
  by_cases hstar : ∃ rest, ls = mark .star :: rest
  · obtain ⟨rest, rfl⟩ := hstar
    exact h.pair_fails_of_single rfl (hf.star rest rfl) (by decide) (by decide)
  · have hne : firstChar ls ≠ some '*' := by
      refine hf.firstChar_ne (by decide) h.valid ['*'] (by decide) (fun m hm => ?_) (.head _)
      cases m with
      | star =>
        cases ls with
        | nil => cases hm
        | cons l rest => cases hm; exact absurd ⟨rest, rfl⟩ hstar
      | _ => decide
    exact h.pair_fails hne

/-- No call or member access is read after an operand of the highest level. -/
theorem suffix_fails (hf : Follow 8 ls) (h : Here ls c) :
    (Token.char '(' c).Fails ∧ (Token.char '.' c).Fails := by
  have hne {x : Char} : x ∈ ['(', '.'] → firstChar ls ≠ some x :=
    hf.firstChar_ne (by decide) h.valid _ (by decide) fun m _ => by cases m <;> decide
  exact ⟨h.char_fails (hne (by decide)), h.char_fails (hne (by decide))⟩

end

/-! ### Levels -/

/-- The reader of inner expressions. -/
abbrev inside (base : Cursor) : After base := fun d _ => expression d

/-- The reader of a level. -/
def readerAt {base : Cursor} (inner : After base) : Nat → From base
  | 1 => disjunction inner
  | 2 => conjunction inner
  | 3 => negation inner
  | 4 => comparison inner
  | 5 => sum inner
  | 6 => product inner
  | 7 => unary inner
  | _ => postfixed inner

/-- Lexemes are read as an expression by the reader of a level. -/
def ReadsAt (k : Nat) (ls : List Lexeme) (e : Expr) : Prop :=
  ∀ (base c : Cursor) (h : base ≤ c) (more : List Lexeme), Follow k more → Ahead (ls ++ more) c →
    (readerAt (inside base) k c h).Gives fun s =>
      s.value.unspanned = e.unspanned ∧ Ahead more s.next

variable {ls rs : List Lexeme} {e l r : Expr} {span : Span}

/-- An operand of the strongest level does not begin with a minus, so negation is not tried on it. -/
theorem Opens.firstChar_ne_minus (h : Opens 8 ls) (hv : ∀ l ∈ ls, l.Valid) :
    firstChar ls ≠ some '-' := by
  obtain ⟨k, rest, rfl, hk⟩ := h
  obtain ⟨x, tail, hx, -, -, hname⟩ := (hv k (.head _)).exists_first
  intro hfirst
  have hhead : k.chars.head? = some '-' := hfirst
  rw [hx] at hhead
  cases hhead
  cases k with
  | word | digits => cases hname
  | negative => cases hk
  | quoted => cases hx
  | mark m =>
    cases m with
    | minus | arrow => exact absurd hk (by decide)
    | _ => cases hx

/-- The operators of the levels that group to the left. -/
theorem readerAt_chain {k : Nat} (hk : k ∈ [1, 2, 5, 6]) {base : Cursor} (inner : After base) :
    readerAt inner k = chain (operatorAt k) (readerAt inner (k + 1)) := by
  simp only [List.mem_cons, List.not_mem_nil, or_false] at hk
  rcases hk with rfl | rfl | rfl | rfl <;> rfl

/-- Lexemes are read as an operand of a level that groups to the left, and what is left is to read
further operands. -/
def ChainReads (k : Nat) (ls : List Lexeme) (e : Expr) : Prop :=
  ∀ (base c : Cursor) (h : base ≤ c) (more : List Lexeme), Follow (k + 1) more →
    Ahead (ls ++ more) c → ∃ (left : Expr) (d : Cursor) (hd : base ≤ d),
      left.unspanned = e.unspanned ∧ Ahead more d ∧
      ∀ r, moreOperands (operatorAt k) (readerAt (inside base) (k + 1)) left d hd = .ok r →
        ∃ s, chain (operatorAt k) (readerAt (inside base) (k + 1)) c h = .ok s ∧
          s.value = r.value ∧ s.next = r.next

theorem ChainReads.of_reads {k : Nat} (h : ReadsAt (k + 1) ls e) : ChainReads k ls e := by
  intro base c hb more hf ha
  obtain ⟨s, hs, hv, hnext⟩ := h base c hb more hf ha
  refine ⟨s.value, s.next, s.le_next hb, hv, hnext, fun r hr => ⟨s.extend r, ?_, rfl, rfl⟩⟩
  exact Reading.bind_ok.2 ⟨s, hs, Reading.bind_ok.2 ⟨r, hr, rfl⟩⟩

/-- An operator of a level may follow an operand of a higher one. -/
theorem Follow.operator {op : BinaryOp} {k : Nat} (hk : op.level < k) (ho : Opens 1 rs)
    (hv : ∀ l ∈ rs, l.Valid) : Follow k (op.lexeme :: rs) := by
  refine ⟨fun l hl => ?_, fun rest hrest => ?_⟩
  · cases hl
    rw [op.strength_lexeme]
    exact hk
  · obtain ⟨-, rfl⟩ := List.cons.inj hrest
    exact ho.firstChar_ne hv (by decide) (by decide)

/-- One more operator with its right operand keeps the loop going: what is left of it after the left
operand is what is left after the whole. -/
theorem ChainReads.binary {op : BinaryOp} (hop : op ≠ .pow) (hl : ChainReads op.level ls l)
    (hr : ReadsAt (op.level + 1) rs r) (ho : Opens 1 rs) :
    ChainReads op.level (ls ++ op.lexeme :: rs) (.binary op l r span) := by
  intro base c hb more hf ha
  have ha' : Ahead (ls ++ op.lexeme :: (rs ++ more)) c := by simpa using ha
  have hopens : Opens 1 (rs ++ more) := ho.append more
  have hvalid : ∀ l ∈ rs ++ more, l.Valid := fun l hl =>
    ha'.valid l (List.mem_append_right _ (.tail _ hl))
  obtain ⟨left, d, hd, hleft, had, hcont⟩ := hl base c hb (op.lexeme :: (rs ++ more))
    (.operator (Nat.lt_succ_self _) hopens hvalid) ha'
  obtain ⟨o, hoperator, hvalue, hao⟩ := lexeme_gives (P := fun v d => v = op ∧ Ahead (rs ++ more) d)
    (operator_gives hop had.skip hopens)
  obtain ⟨s, hs, hright, has⟩ := hr base o.next (o.le_next hd) more hf hao
  refine ⟨.join o.value left s.value, (o.andThen s).next, (o.andThen s).le_next hd, ?_, has,
    fun r hr => hcont ((o.andThen s).extend r).reach ?_⟩
  · rw [hvalue]
    simp only [Expr.join, Expr.unspanned, hleft, hright]
  · rw [moreOperands]
    simp only [hoperator]
    exact Reading.bind_ok.2 ⟨s, Reading.commit_ok.2 hs, Reading.bind_ok.2 ⟨r, hr, rfl⟩⟩

/-- A loop that reads its operands ends in front of what may follow, and so its level reads the
expression. -/
theorem ChainReads.reads {k : Nat} (hk : k ∈ [1, 2, 5, 6]) (h : ChainReads k ls e) :
    ReadsAt k ls e := by
  intro base c hb more hf ha
  have hlevels : ∀ j ∈ [1, 2, 5, 6], j ∈ [1, 2, 4, 5, 6] := by decide
  obtain ⟨left, d, hd, hleft, had, hcont⟩ := h base c hb more (hf.mono (Nat.le_succ k)) ha
  obtain ⟨f, hfail, -⟩ := lexeme_fails (operator_fails (hlevels k hk) hf had.skip)
  have hmore : moreOperands (operatorAt k) (readerAt (inside base) (k + 1)) left d hd =
      .ok (Reach.here d left) := by
    rw [moreOperands]
    simp only [hfail]
  obtain ⟨s, hs, hvalue, hnext⟩ := hcont _ hmore
  rw [readerAt_chain hk]
  exact ⟨s, hs, by rw [hvalue]; exact hleft, by rw [hnext]; exact had⟩

/-! ### Comparisons, negations and powers -/

/-- A sum without a comparison behind it is read as a comparison. -/
theorem ReadsAt.comparison (h : ReadsAt 5 ls e) : ReadsAt 4 ls e := by
  intro base c hb more hf ha
  change (Expression.comparison (inside base) c hb).Gives _
  refine (h base c hb more (hf.mono (by decide)) ha).bind fun s hs => ?_
  obtain ⟨f, hfail, -⟩ := lexeme_fails (operator_fails (k := 4) (by decide) hf hs.2.skip)
  have hfail' : lexeme comparisonOperator s.next = .error f := hfail
  simp only [hfail']
  exact ⟨s, rfl, hs⟩

/-- Two sums with a comparison between them are read as that comparison, and the mark behind them
does not go on. -/
theorem ReadsAt.compare {op : BinaryOp} (hop : op.level = 4) (hl : ReadsAt 5 ls l)
    (hr : ReadsAt 5 rs r) (ho : Opens 1 rs) :
    ReadsAt 4 (ls ++ op.lexeme :: rs) (.binary op l r span) := by
  intro base c hb more hf ha
  have ha' : Ahead (ls ++ op.lexeme :: (rs ++ more)) c := by simpa using ha
  have hopens : Opens 1 (rs ++ more) := ho.append more
  have hvalid : ∀ l ∈ rs ++ more, l.Valid := fun l hl =>
    ha'.valid l (List.mem_append_right _ (.tail _ hl))
  have hpow : op ≠ .pow := by
    rintro rfl
    cases hop
  change (Expression.comparison (inside base) c hb).Gives _
  refine (hl base c hb _ (.operator (by rw [hop]; decide) hopens hvalid) ha').bind fun s hs => ?_
  have hgives := operator_gives hpow hs.2.skip hopens
  rw [hop] at hgives
  obtain ⟨o, hoperator, hvalue, hao⟩ :=
    lexeme_gives (P := fun v d => v = op ∧ Ahead (rs ++ more) d) hgives
  have hoperator' : lexeme comparisonOperator s.next = .ok o := hoperator
  simp only [hoperator']
  refine (hr base o.next _ more (hf.mono (by decide)) hao).commit.bind fun t ht => ?_
  refine ⟨_, rfl, ?_, ht.2⟩
  simp only [Step.map, Step.andThen, Expr.join, Expr.unspanned, hs.1, ht.1, hvalue]

/-- A comparison that does not begin with `not` is read where a negation may stand. -/
theorem ReadsAt.negation (h : ReadsAt 4 ls e) (ho : Opens 4 ls) : ReadsAt 3 ls e := by
  intro base c hb more hf ha
  change (Expression.negation (inside base) c hb).Gives _
  have hne : (ls ++ more).head? ≠ some (.word "not") := by
    obtain ⟨l, rest, rfl, hl⟩ := ho
    rintro ⟨⟩
    exact absurd hl (by decide)
  obtain ⟨f, hfail, -⟩ := lexeme_fails (ha.skip.keyword_fails (by decide) hne)
  rw [Expression.negation]
  simp only [hfail]
  exact (h base (skipSpace c) _ more (hf.mono (by decide)) ha.skip.ahead).map fun s hs => hs

/-- The keyword `not` in front of a negation is read as its negation. -/
theorem ReadsAt.not (h : ReadsAt 3 ls e) : ReadsAt 3 (.word "not" :: ls) (.unary .not e span) := by
  intro base c hb more hf ha
  change (Expression.negation (inside base) c hb).Gives _
  obtain ⟨w, hword, haw⟩ := lexeme_gives (P := fun _ d => Ahead (ls ++ more) d) ha.skip.keyword
  rw [Expression.negation]
  simp only [hword]
  refine (h base w.next _ more hf haw).commit.bind fun s hs => ⟨_, rfl, ?_, hs.2⟩
  simp only [Step.map, Step.andThen, Expr.unspanned, hs.1]

/-- What is read at the strongest level and does not begin with a sign is read as an operand of
negation. -/
theorem ReadsAt.unary (h : ReadsAt 8 ls e) (ho : Opens 8 ls) : ReadsAt 7 ls e := by
  intro base c hb more hf ha
  change (Expression.unary (inside base) c hb).Gives _
  have hminus := (ho.append more).firstChar_ne_minus ha.valid
  obtain ⟨f, hfail, -⟩ := lexeme_fails (ha.skip.char_fails hminus)
  rw [Expression.unary]
  simp only [hfail]
  refine (h base c hb more (hf.mono (by decide)) ha).bind fun s hs => ?_
  obtain ⟨f, hstars, -⟩ := lexeme_fails (stars_fails hf hs.2.skip)
  simp only [hstars]
  exact ⟨s, rfl, hs⟩

/-- A sign in front of such an operand is read as its negation. -/
theorem ReadsAt.neg (h : ReadsAt 7 ls e) : ReadsAt 7 (.mark .minus :: ls) (.unary .neg e span) := by
  intro base c hb more hf ha
  change (Expression.unary (inside base) c hb).Gives _
  obtain ⟨m, hminus, ham⟩ := lexeme_gives (P := fun _ d => Ahead (ls ++ more) d)
    (ha.skip.char (x := '-') rfl)
  rw [Expression.unary]
  simp only [hminus]
  refine (h base m.next _ more hf ham).commit.bind fun s hs => ⟨_, rfl, ?_, hs.2⟩
  simp only [Step.map, Step.andThen, Expr.unspanned, hs.1]

/-- A power is read with its base from the strongest level and its exponent from the level of signs,
so that powers group to the right. -/
theorem ReadsAt.pow (hl : ReadsAt 8 ls l) (ho : Opens 8 ls) (hr : ReadsAt 7 rs r) :
    ReadsAt 7 (ls ++ .mark .stars :: rs) (.binary .pow l r span) := by
  intro base c hb more hf ha
  have ha' : Ahead (ls ++ .mark .stars :: (rs ++ more)) c := by simpa using ha
  have hfollow : Follow 8 (.mark .stars :: (rs ++ more)) := .of_mark (by decide) nofun
  change (Expression.unary (inside base) c hb).Gives _
  have hminus := (ho.append _).firstChar_ne_minus ha'.valid
  obtain ⟨f, hfail, -⟩ := lexeme_fails (ha'.skip.char_fails hminus)
  rw [Expression.unary]
  simp only [hfail]
  refine (hl base c hb _ hfollow ha').bind fun s hs => ?_
  obtain ⟨o, hstars, hao⟩ := lexeme_gives (P := fun _ d => Ahead (rs ++ more) d)
    (hs.2.skip.pair (x := '*') (y := '*') rfl)
  simp only [hstars]
  refine (hr base o.next _ more hf hao).commit.bind fun t ht => ⟨_, rfl, ?_, ht.2⟩
  simp only [Step.map, Step.andThen, Expr.join, Expr.unspanned, hs.1, ht.1]

/-- What the reader of one level reads, the reader of the level below it reads too. -/
theorem ReadsAt.step {k : Nat} (hk : k ∈ [1, 2, 3, 4, 5, 6, 7]) (h : ReadsAt (k + 1) ls e)
    (ho : Opens (k + 1) ls) : ReadsAt k ls e := by
  simp only [List.mem_cons, List.not_mem_nil, or_false] at hk
  rcases hk with rfl | rfl | rfl | rfl | rfl | rfl | rfl
  · exact (ChainReads.of_reads h).reads (by decide)
  · exact (ChainReads.of_reads h).reads (by decide)
  · exact h.negation ho
  · exact h.comparison
  · exact (ChainReads.of_reads h).reads (by decide)
  · exact (ChainReads.of_reads h).reads (by decide)
  · exact h.unary ho

/-- What is read at a level is read at all weaker ones, by induction on the distance: each level
passes its operand on if no operator of its own follows. -/
theorem ReadsAt.lower {k n : Nat} (hk : 1 ≤ k) (hn : k + n ≤ 8) (h : ReadsAt (k + n) ls e)
    (ho : Opens (k + n) ls) : ReadsAt k ls e := by
  induction n with
  | zero => exact h
  | succ n ih =>
    have hmem : k + n ∈ [1, 2, 3, 4, 5, 6, 7] := by
      simp only [List.mem_cons, List.not_mem_nil, or_false]
      omega
    exact ih (by omega) (h.step hmem ho) (ho.mono (by omega))

end NodeFormula

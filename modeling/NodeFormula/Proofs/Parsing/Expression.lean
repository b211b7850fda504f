import NodeFormula.Proofs.Parsing.Levels

/-!
# Reading expressions back

The lexemes of an expression of the right shape are read as that expression, up to spans
(`Expr.reads`). Calls and members are read by a loop after a primary expression; as for the operators
that group to the left, the statement is about what is left of the loop (`PostfixReads`).
-/

namespace NodeFormula

open Token Expression Lexeme

/-! ### Lists -/

/-- A list with commas is its first item and the others, each after a comma. -/
theorem commas_cons (ls : List Lexeme) (lss : List (List Lexeme)) :
    commas (ls :: lss) = ls ++ lss.flatMap fun ls => .mark .comma :: ls := by
  induction lss generalizing ls with
  | nil => simp [commas]
  | cons next rest ih => rw [commas, ih, List.flatMap_cons, List.cons_append]

section
variable {α β : Type} {base c : Cursor} {item : (d : Cursor) → base < d → Reading (Step d α)}
  {lexemes : α → List Lexeme} {forget : α → β} {Ends : List Lexeme → Prop} {as : List α}
  {more : List Lexeme}

/-- Every item of a list can be read. -/
def ItemsRead (item : (d : Cursor) → base < d → Reading (Step d α)) (lexemes : α → List Lexeme)
    (forget : α → β) (Ends : List Lexeme → Prop) (as : List α) : Prop :=
  ∀ a ∈ as, ∀ d hd more, Ends more → Ahead (lexemes a ++ more) d →
    (item d hd).Gives fun s => forget s.value = forget a ∧ Ahead more s.next

/-- Further items are read back, each behind its comma, and the loop stops in front of what is no
comma. The induction is on the items. -/
theorem moreItems_gives (hitem : ItemsRead item lexemes forget Ends as)
    (hcomma : ∀ rest, Ends (.mark .comma :: rest)) (hends : Ends more)
    (hmore : firstChar more ≠ some ',') (h : base ≤ c)
    (ha : Ahead (as.flatMap (fun a => .mark .comma :: lexemes a) ++ more) c) :
    (moreItems item c h).Gives fun r => r.value.map forget = as.map forget ∧ Ahead more r.next := by
  induction as generalizing c with
  | nil =>
    obtain ⟨f, hfail, -⟩ := lexeme_fails (ha.skip.char_fails hmore)
    rw [moreItems]
    simp only [hfail]
    exact ⟨_, rfl, rfl, ha⟩
  | cons a as ih =>
    have ha' : Ahead (.mark .comma :: (lexemes a ++
        (as.flatMap (fun a => .mark .comma :: lexemes a) ++ more))) c := by simpa using ha
    obtain ⟨comma, hread, hac⟩ := lexeme_gives (P := fun _ d => Ahead (lexemes a ++
      (as.flatMap (fun a => .mark .comma :: lexemes a) ++ more)) d) (ha'.skip.char (x := ',') rfl)
    have hends' : Ends (as.flatMap (fun a => .mark .comma :: lexemes a) ++ more) := by
      cases as with
      | nil => exact hends
      | cons b bs => exact hcomma _
    obtain ⟨first, hfirst, hvalue, haf⟩ :=
      hitem a (.head _) comma.next (comma.lt_next h) _ hends' hac
    rw [moreItems]
    simp only [hread, hfirst]
    have hle : base ≤ (comma.andThen first).next := (comma.andThen first).le_next h
    obtain ⟨r, hr, hmap, har⟩ := ih (fun b hb => hitem b (.tail _ hb)) hle haf
    refine ⟨_, Reading.bind_ok.2 ⟨r, hr, rfl⟩, ?_, har⟩
    simp only [Step.reach, Step.extend, Reach.map, Step.andThen, List.map_cons, hvalue, hmap]

/-- A list of at least one item is read back if each item is, whatever ends an item being satisfied
by a comma and by what follows the list. -/
theorem items_gives (hne : as ≠ []) (hitem : ItemsRead item lexemes forget Ends as)
    (hcomma : ∀ rest, Ends (.mark .comma :: rest)) (hends : Ends more)
    (hmore : firstChar more ≠ some ',') (h : base < c)
    (ha : Ahead (commas (as.map lexemes) ++ more) c) :
    (items item c h).Gives fun s => s.value.map forget = as.map forget ∧ Ahead more s.next := by
  cases as with
  | nil => exact absurd rfl hne
  | cons a as =>
    have hflat : commas ((a :: as).map lexemes) =
        lexemes a ++ as.flatMap fun a => .mark .comma :: lexemes a := by
      rw [List.map_cons, commas_cons, List.flatMap_map]
    rw [hflat, List.append_assoc] at ha
    have hends' : Ends (as.flatMap (fun a => .mark .comma :: lexemes a) ++ more) := by
      cases as with
      | nil => exact hends
      | cons b bs => exact hcomma _
    refine (hitem a (.head _) c h _ hends' ha).bind fun first hfirst => ?_
    refine (moreItems_gives (fun b hb => hitem b (.tail _ hb)) hcomma hends hmore _ hfirst.2).bind
      fun r hr => ⟨_, rfl, ?_, hr.2⟩
    simp only [Step.extend, Reach.map, List.map_cons, hfirst.1, hr.1]

/-- A list that may be empty is read back, where no item starts with what follows it. If it is empty,
then the first item fails softly and nothing is read. -/
theorem optionalItems_gives (hitem : ItemsRead item lexemes forget Ends as)
    (hcomma : ∀ rest, Ends (.mark .comma :: rest)) (hends : Ends more)
    (hmore : firstChar more ≠ some ',') (h : base < c) (hfails : as = [] → (item c h).Fails)
    (ha : Ahead (commas (as.map lexemes) ++ more) c) :
    (optionalItems item c h).Gives fun r =>
      r.value.map forget = as.map forget ∧ Ahead more r.next := by
  by_cases hne : as = []
  · subst hne
    have hnone := ((hfails rfl).bind fun first => do
      let more ← moreItems item first.next (first.le_next (Cursor.le_of_lt h))
      return first.extend (more.map (first.value :: ·))).optional
    exact ⟨_, Reading.bind_ok.2 ⟨_, hnone, rfl⟩, rfl, ha⟩
  · obtain ⟨s, hs, hvalue, has⟩ := items_gives hne hitem hcomma hends hmore h ha
    refine ⟨_, Reading.bind_ok.2 ⟨(s.map some).reach, ?_, rfl⟩, hvalue, has⟩
    rw [hs]
    rfl

end

/-! ### Where no expression starts -/

/-- No expression starts here: the text ends, or a list or block does. -/
def Stops (ls : List Lexeme) : Prop :=
  ls.head? ∈ [none, some (.mark .closeParen), some (.mark .closeBrace)]

section
variable {ls : List Lexeme} {base c : Cursor} {inner : After base}

/-- Where no expression starts, the text begins with a closing mark or not at all, so no other
character is at the cursor. -/
theorem Stops.firstChar_ne {x : Char} (hs : Stops ls) (hx : x ∉ [')', '\x7d']) :
    firstChar ls ≠ some x := by
  simp only [Stops, List.mem_cons, List.not_mem_nil, or_false] at hs
  simp only [List.mem_cons, List.not_mem_nil, or_false, not_or] at hx
  rw [firstChar]
  rcases hs with hs | hs | hs
  · rw [hs]
    rintro ⟨⟩
  · rw [hs]
    rintro ⟨⟩
    exact hx.1 rfl
  · rw [hs]
    rintro ⟨⟩
    exact hx.2 rfl

theorem Stops.head?_mark {l : Lexeme} (hs : Stops ls) (hl : ls.head? = some l) :
    ∃ m, l = .mark m := by
  simp only [Stops, hl, List.mem_cons, List.not_mem_nil, or_false, reduceCtorEq, false_or,
    Option.some.injEq] at hs
  rcases hs with rfl | rfl
  · exact ⟨_, rfl⟩
  · exact ⟨_, rfl⟩

theorem Stops.head?_ne_word (hs : Stops ls) (w : String) : ls.head? ≠ some (.word w) := by
  intro hw
  obtain ⟨m, hm⟩ := hs.head?_mark hw
  cases hm

/-- Numbers, strings, truth values and names do not start with a mark, so none of them is read where
a mark comes first. -/
theorem atom_fails (h : Here ls c) (hm : ∀ l, ls.head? = some l → ∃ m, l = .mark m) :
    (atom c).Fails := by
  have hfirst : ∀ x, firstChar ls = some x → x.isDigit = false ∧ x ≠ '"' := by
    intro x hx
    cases ls with
    | nil => cases hx
    | cons l ls =>
      obtain ⟨m, rfl⟩ := hm l rfl
      cases m <;> cases hx <;> decide
  have hword : ∀ n, ls.head? ≠ some (.word n) := by
    intro n hn
    obtain ⟨m, hm⟩ := hm _ hn
    cases hm
  refine ((h.number_fails fun x hx => (hfirst x hx).1).map _).orElse ?_
  refine ((h.string_fails fun hq => (hfirst _ hq).2 rfl).map _).orElse ?_
  refine ((h.keyword_fails (by decide) (hword _)).map _).orElse ?_
  refine ((h.keyword_fails (by decide) (hword _)).map _).orElse ?_
  exact (h.name_fails fun n hn => absurd hn (hword n)).map _

theorem postfixed_fails (hs : Stops ls) (hb : base ≤ c) (ha : Ahead ls c) :
    (postfixed inner c hb).Fails := by
  have hh := ha.skip
  refine Reading.Fails.bind (Reading.Fails.map (Reading.Fails.expecting (.choice ?_) _) _) _
  refine (atom_fails hh fun l hl => hs.head?_mark hl).orElse ?_
  refine Reading.Fails.orElse ?_ ?_
  · exact (hh.char_fails (hs.firstChar_ne (by decide))).bind _
  · exact (hh.char_fails (hs.firstChar_ne (by decide))).bind _

theorem unary_fails (hs : Stops ls) (hb : base ≤ c) (ha : Ahead ls c) :
    (unary inner c hb).Fails := by
  obtain ⟨f, hminus, -⟩ := lexeme_fails (ha.skip.char_fails (hs.firstChar_ne (x := '-') (by decide)))
  rw [unary]
  simp only [hminus]
  exact (postfixed_fails hs hb ha).bind _

theorem negation_fails (hs : Stops ls) (hb : base ≤ c) (ha : Ahead ls c) :
    (negation inner c hb).Fails := by
  obtain ⟨f, hnot, -⟩ := lexeme_fails (ha.skip.keyword_fails (by decide) (hs.head?_ne_word "not"))
  rw [negation]
  simp only [hnot]
  refine Reading.Fails.map (Reading.Fails.bind (Reading.Fails.bind (Reading.Fails.bind ?_ _) _) _) _
  exact unary_fails hs _ ha.skip.ahead

theorem expression_fails (hs : Stops ls) (ha : Ahead ls c) : (expression c).Fails := by
  rw [expression]
  exact ((negation_fails hs _ ha).bind _).bind _

end

/-! ### Primary expressions, calls and members -/

/-- An integer does not go on as a number with a fraction. -/
def NoFraction (ls : List Lexeme) : Prop := ∀ n rest, ls ≠ .mark .dot :: .digits n :: rest

/-- Lexemes are read as a primary expression. -/
def PrimaryReads (ls : List Lexeme) (e : Expr) : Prop :=
  ∀ (base c : Cursor) (h : base ≤ c) (more : List Lexeme), NoFraction more → Here (ls ++ more) c →
    (primaryHere (inside base) c h).Gives fun s =>
      s.value.unspanned = e.unspanned ∧ Ahead more s.next

/-- Lexemes are read as an expression of the highest level, and what is left is to read further calls
and members. -/
def PostfixReads (ls : List Lexeme) (e : Expr) : Prop :=
  ∀ (base c : Cursor) (h : base ≤ c) (more : List Lexeme), NoFraction more → Ahead (ls ++ more) c →
    ∃ (first : Expr) (d : Cursor) (hd : base ≤ d), first.unspanned = e.unspanned ∧ Ahead more d ∧
      ∀ r, suffixes (inside base) first d hd = .ok r →
        ∃ s, postfixed (inside base) c h = .ok s ∧ s.value = r.value ∧ s.next = r.next

section
variable {ls : List Lexeme} {e : Expr} {es : List Expr} {n f : String} {span : Span}

theorem PrimaryReads.postfixed (h : PrimaryReads ls e) : PostfixReads ls e := by
  intro base c hb more hn ha
  obtain ⟨s, hs, hvalue, hnext⟩ := h base (skipSpace c) _ more hn ha.skip
  refine ⟨s.value, s.next, s.le_next (Cursor.le_trans hb (le_skipSpace c)), hvalue, hnext,
    fun r hr => ⟨(s.since (le_skipSpace c)).extend r, ?_, rfl, rfl⟩⟩
  refine Reading.bind_ok.2 ⟨s.since (le_skipSpace c), Reading.map_ok.2 ⟨s, hs, rfl⟩, ?_⟩
  exact Reading.bind_ok.2 ⟨r, hr, rfl⟩

theorem Follow.noFraction {k : Nat} {more : List Lexeme} (h : Follow k more) (hk : k ≤ 8) :
    NoFraction more := by
  rintro n rest rfl
  exact absurd (Nat.lt_of_lt_of_le (h.strength _ rfl) hk) (by decide)

/-- An expression with its calls and members is read at the strongest level, where the loop ends in
front of what may follow an operand. -/
theorem PostfixReads.reads (h : PostfixReads ls e) : ReadsAt 8 ls e := by
  intro base c hb more hf ha
  obtain ⟨first, d, hd, hvalue, had, hcont⟩ := h base c hb more (hf.noFraction (Nat.le_refl 8)) ha
  obtain ⟨hparen, hdot⟩ := suffix_fails hf had.skip
  obtain ⟨f, hparen, -⟩ := lexeme_fails hparen
  obtain ⟨g, hdot, -⟩ := lexeme_fails hdot
  have hsuffixes : suffixes (inside base) first d hd = .ok (Reach.here d first) := by
    rw [suffixes, suffix]
    simp only [hparen, hdot]
    rfl
  obtain ⟨s, hs, hv, hnext⟩ := hcont _ hsuffixes
  exact ⟨s, hs, by rw [hv]; exact hvalue, by rw [hnext]; exact had⟩

/-- What the weakest level reads is read as an inner expression. -/
theorem ReadsAt.expression {c : Cursor} {more : List Lexeme} (h : ReadsAt 1 ls e)
    (hf : Follow 1 more) (ha : Ahead (ls ++ more) c) :
    (expression c).Gives fun s => s.value.unspanned = e.unspanned ∧ Ahead more s.next := by
  rw [Expression.expression]
  exact h c c (Cursor.le_refl c) more hf ha

theorem itemsRead_inside {base : Cursor} (h : ∀ e ∈ es, ReadsAt 1 e.lexemes e) :
    ItemsRead (inside base) Expr.lexemes Expr.unspanned (Follow 1) es :=
  fun e he _ _ _ hf ha => (h e he).expression hf ha

theorem primaryReads_int {v : Int64} (hv : 0 ≤ v.toInt) :
    PrimaryReads [.digits v.toInt.toNat] (.int v span) := by
  intro base c hb more hn h
  refine (Reading.Gives.orElse (Reading.Gives.orElse ?_ _) _).choice.expecting _
  refine (h.number hv hn).map fun s hs => ⟨?_, hs.2⟩
  simp only [Step.map, hs.1, Expr.unspanned]

theorem primaryReads_str : PrimaryReads [.quoted n] (.str n span) := by
  intro base c hb more hn h
  have hdigit : ∀ x, firstChar (.quoted n :: more) = some x → x.isDigit = false := by
    rintro x ⟨⟩
    decide
  refine (Reading.Gives.orElse (((h.number_fails hdigit).map _).orElse_gives ?_) _).choice.expecting _
  refine Reading.Gives.orElse (h.string.map fun s hs => ⟨?_, hs.2⟩) _
  simp only [Step.map, hs.1, Expr.unspanned]

/-- Numbers and strings do not start with a word. Where one comes first, an atom is what the readers
for truth values and names make of it. -/
theorem atom_word_gives {w : String} {more : List Lexeme} {c : Cursor} {P : Step c Expr → Prop}
    (h : Here (.word w :: more) c)
    (hg : Reading.Gives (Reading.orElse ((keyword "true" c).map fun s =>
        s.map fun _ => Expr.bool true (c.spanTo s.next)) fun _ =>
      Reading.orElse ((keyword "false" c).map fun s =>
        s.map fun _ => Expr.bool false (c.spanTo s.next)) fun _ =>
      (name c).map fun s => s.map fun n => Expr.name n (c.spanTo s.next)) P) : (atom c).Gives P := by
  obtain ⟨y, rest, hw, hy, -⟩ := isWord_iff.1 (h.valid _ (.head _))
  have hfirst : firstChar (.word w :: more) = some y := by simp [firstChar, Lexeme.chars, hw]
  refine ((h.number_fails fun x hx => ?_).map _).orElse_gives
    (((h.string_fails fun hq => ?_).map _).orElse_gives hg)
  · cases hfirst.symm.trans hx
    exact isDigit_eq_false_of_nameStart hy
  · cases hfirst.symm.trans hq
    cases hy

/-- The keywords of the truth values are read as truth values, before they could be taken for
names. -/
theorem primaryReads_bool (b : Bool) :
    PrimaryReads [.word (if b then "true" else "false")] (.bool b span) := by
  intro base c hb more hn h
  refine (Reading.Gives.orElse (atom_word_gives h ?_) _).choice.expecting _
  cases b with
  | true => exact Reading.Gives.orElse (h.keyword.map fun s hs => ⟨rfl, hs⟩) _
  | false =>
    refine ((h.keyword_fails (by decide) (by simp)).map _).orElse_gives ?_
    exact Reading.Gives.orElse (h.keyword.map fun s hs => ⟨rfl, hs⟩) _

theorem ne_of_isName {w : String} (hn : isName n = true) (hw : isName w = false) : n ≠ w := by
  rintro rfl
  rw [hn] at hw
  cases hw

/-- A name is read as a name, after numbers, strings and truth values have failed softly. -/
theorem primaryReads_name (hname : isName n = true) : PrimaryReads [.word n] (.name n span) := by
  intro base c hb more hn h
  have hne : ∀ w, isName w = false → ((.word n :: more : List Lexeme)).head? ≠ some (.word w) := by
    rintro w hw ⟨⟩
    exact ne_of_isName hname hw rfl
  refine (Reading.Gives.orElse (atom_word_gives h ?_) _).choice.expecting _
  refine ((h.keyword_fails (by decide) (hne _ (by decide))).map _).orElse_gives ?_
  refine ((h.keyword_fails (by decide) (hne _ (by decide))).map _).orElse_gives ?_
  refine (h.name hname).map fun s hs => ⟨?_, hs.2⟩
  simp only [Step.map, hs.1, Expr.unspanned]

/-- Three or four items in braces are read as a vector if each item is read back. There are commas
between them and none behind the last one. -/
theorem primaryReads_vector (hlen : es.length = 3 ∨ es.length = 4)
    (hes : ∀ e ∈ es, ReadsAt 1 e.lexemes e) :
    PrimaryReads (.mark .openBrace :: (commas (es.map Expr.lexemes) ++ [.mark .closeBrace]))
      (.vector es span) := by
  intro base c hb more hn h
  have h' : Here (.mark .openBrace ::
      (commas (es.map Expr.lexemes) ++ .mark .closeBrace :: more)) c := by simpa using h
  have hne : es ≠ [] := by
    rintro rfl
    rcases hlen with hlen | hlen <;> cases hlen
  refine Reading.Gives.expecting (.choice ((atom_fails h' ?_).orElse_gives (.orElse ?_ _))) _
  · rintro l ⟨⟩
    exact ⟨_, rfl⟩
  refine (h'.char rfl).bind fun opened ho => ?_
  refine (items_gives hne (itemsRead_inside hes) (.of_end .comma rfl)
    (.of_end .closeBrace rfl more) nofun _ ho).commit.bind fun list hl => ?_
  refine ((lexeme_gives (P := fun _ d => Ahead more d) (hl.2.skip.char rfl)).expecting _).commit.bind
    fun closed hc => ?_
  have hlength : list.value.length = es.length := by simpa using congrArg List.length hl.1
  rw [if_pos (by rw [hlength]; exact hlen)]
  refine ⟨_, rfl, ?_, hc⟩
  simp only [Step.map, Expr.unspanned, Expr.unspannedAll_eq_map, hl.1]

/-- An expression in parentheses is read as that expression, up to spans, whatever its level is. -/
theorem primaryReads_parens (h : ReadsAt 1 ls e) : PrimaryReads (wrap true ls) e := by
  intro base c hb more hn hh
  have h' : Here (.mark .openParen :: (ls ++ .mark .closeParen :: more)) c := by
    simpa [wrap] using hh
  refine Reading.Gives.expecting (.choice ((atom_fails h' ?_).orElse_gives ?_)) _
  · rintro l ⟨⟩
    exact ⟨_, rfl⟩
  refine ((h'.char_fails (x := '\x7b') nofun).bind _).orElse_gives ?_
  refine (h'.char rfl).bind fun opened ho => ?_
  refine (h.expression (.of_end .closeParen rfl more) ho).commit.bind fun body hbody => ?_
  refine ((lexeme_gives (P := fun _ d => Ahead more d)
    (hbody.2.skip.char rfl)).expecting _).commit.bind fun closed hc => ⟨_, rfl, ?_, hc⟩
  simp only [Step.map, Expr.unspanned_withSpan, hbody.1]

/-- One more call or member access leaves the rest of the loop. -/
theorem suffixes_of_suffix {base d : Cursor} {inner : After base} {first : Expr} {hd : base ≤ d}
    {s : Step d Expr} (h : suffix inner first d hd = .ok (some s))
    {r : Reach s.next Expr} (hr : suffixes inner s.value s.next (s.le_next hd) = .ok r) :
    suffixes inner first d hd = .ok (s.extend r).reach := by
  rw [suffixes]
  exact Reading.bind_ok.2 ⟨some s, h, Reading.bind_ok.2 ⟨r, hr, rfl⟩⟩

/-- A name with arguments in parentheses is read as a call. The arguments may be none, and then the
reader of a list fails softly. -/
theorem PostfixReads.call {nameSpan : Span} (h : PostfixReads ls (.name f nameSpan))
    (hes : ∀ e ∈ es, ReadsAt 1 e.lexemes e) :
    PostfixReads (ls ++ .mark .openParen :: (commas (es.map Expr.lexemes) ++ [.mark .closeParen]))
      (.call f es span) := by
  intro base c hb more hn ha
  have ha' : Ahead (ls ++ .mark .openParen ::
      (commas (es.map Expr.lexemes) ++ .mark .closeParen :: more)) c := by simpa using ha
  have hparen : NoFraction (.mark .openParen ::
      (commas (es.map Expr.lexemes) ++ .mark .closeParen :: more)) := fun _ _ => nofun
  obtain ⟨first, d, hd, hfirst, had, hcont⟩ := h base c hb _ hparen ha'
  obtain ⟨s, rfl⟩ : ∃ s, first = .name f s := by
    cases first with
    | name n s => cases hfirst; exact ⟨s, rfl⟩
    | _ => cases hfirst
  obtain ⟨opened, hopened, hao⟩ := lexeme_gives (P := fun _ d => Ahead
    (commas (es.map Expr.lexemes) ++ .mark .closeParen :: more) d) (had.skip.char (x := '(') rfl)
  have hnone : es = [] → (expression opened.next).Fails := by
    rintro rfl
    exact expression_fails (.tail _ (.head _)) hao
  obtain ⟨args, hargs, hvalues, haargs⟩ := optionalItems_gives (itemsRead_inside hes)
    (.of_end .comma rfl) (.of_end .closeParen rfl more) nofun (opened.lt_next hd) hnone hao
  obtain ⟨closed, hclosed, hac⟩ := ((lexeme_gives (P := fun _ d => Ahead more d)
    (haargs.skip.char (x := ')') rfl)).expecting .closeParen).commit
  let whole : Step d Expr := (opened.andThen ((args.andThen closed).map fun _ => args.value)).map
    fun values => .call f values ⟨s.start, closed.next.offset⟩
  have hsuffix : suffix (inside base) (.name f s) d hd = .ok (some whole) := by
    rw [suffix]
    simp only [hopened]
    refine Reading.bind_ok.2 ⟨(args.andThen closed).map fun _ => args.value, ?_, rfl⟩
    exact Reading.bind_ok.2 ⟨args, hargs, Reading.bind_ok.2 ⟨closed, hclosed, rfl⟩⟩
  refine ⟨whole.value, whole.next, whole.le_next hd, ?_, hac,
    fun r hr => hcont _ (suffixes_of_suffix hsuffix hr)⟩
  simp only [whole, Step.map, Step.andThen, Reach.andThen, Expr.unspanned,
    Expr.unspannedAll_eq_map, hvalues]

/-- An expression with a point and a name behind it is read as an access to a member. -/
theorem PostfixReads.member (h : PostfixReads ls e) (hn : isName n = true) :
    PostfixReads (ls ++ [.mark .dot, .word n]) (.member e n span) := by
  intro base c hb more _ ha
  have ha' : Ahead (ls ++ .mark .dot :: .word n :: more) c := by simpa using ha
  have hmember : NoFraction (.mark .dot :: .word n :: more) := fun _ _ => nofun
  obtain ⟨first, d, hd, hfirst, had, hcont⟩ := h base c hb _ hmember ha'
  obtain ⟨f, hparen, -⟩ := lexeme_fails (had.skip.char_fails (x := '(') nofun)
  obtain ⟨dot, hdot, hadot⟩ := lexeme_gives (P := fun _ d => Ahead (.word n :: more) d)
    (had.skip.char (x := '.') rfl)
  obtain ⟨field, hfield, hvalue, haf⟩ := ((lexeme_gives (P := fun v d => v = n ∧ Ahead more d)
    (hadot.skip.name hn)).expecting .fieldName).commit
  let whole : Step d Expr := (dot.andThen field).map fun n =>
    .member first n ⟨first.span.start, field.next.offset⟩
  have hsuffix : suffix (inside base) first d hd = .ok (some whole) := by
    rw [suffix]
    simp only [hparen, hdot]
    exact Reading.bind_ok.2 ⟨field, hfield, rfl⟩
  refine ⟨whole.value, whole.next, whole.le_next hd, ?_, haf,
    fun r hr => hcont _ (suffixes_of_suffix hsuffix hr)⟩
  simp only [whole, Step.map, Step.andThen, Expr.unspanned, hfirst, hvalue]

end

/-! ### Operands -/

theorem BinaryOp.level_bounds (op : BinaryOp) : 1 ≤ op.level ∧ op.level ≤ 8 := by
  cases op <;> decide

theorem UnaryOp.level_bounds (op : UnaryOp) : 1 ≤ op.level ∧ op.level ≤ 8 := by
  cases op <;> decide

theorem Expr.level_bounds (e : Expr) : 1 ≤ e.level ∧ e.level ≤ 8 := by
  cases e with
  | unary op => exact op.level_bounds
  | binary op => exact op.level_bounds
  | _ => exact (by decide : 1 ≤ 8 ∧ 8 ≤ 8)

theorem BinaryOp.level_le_leftLevel (op : BinaryOp) : op.level ≤ op.leftLevel := by
  cases op <;> decide

theorem BinaryOp.leftLevel_le (op : BinaryOp) : op.leftLevel ≤ 8 := by
  cases op <;> decide

/-- An operand in its position starts as the position asks for. -/
theorem Opens.wrap {e : Expr} {k : Nat} (h : Opens e.level e.lexemes) (hk : k ≤ 8) :
    Opens k (wrap (e.level < k) e.lexemes) := by
  by_cases hlt : e.level < k
  · rw [Lexeme.wrap, if_pos (decide_eq_true hlt)]
    exact ⟨_, _, rfl, hk⟩
  · rw [Lexeme.wrap, if_neg (by simpa using hlt)]
    exact h.mono (Nat.le_of_not_lt hlt)

theorem opens_name {n : String} (hn : isName n = true) (ls : List Lexeme) :
    Opens 8 (.word n :: ls) := by
  refine ⟨_, _, rfl, ?_⟩
  rw [Lexeme.startLevel, if_neg (ne_of_isName hn (by decide))]

/-- An expression is read by the reader of its level, and by the loop of that level if it has one. -/
structure Expr.Reads (e : Expr) : Prop where
  opens : Opens e.level e.lexemes
  reads : ReadsAt e.level e.lexemes e
  chain : e.level ∈ [1, 2, 5, 6] → ChainReads e.level e.lexemes e
  suffixed : e.level = 8 → PostfixReads e.lexemes e

namespace Expr.Reads

variable {e : Expr} {k : Nat}

/-- An expression is read at every level that is not stronger than its own. -/
theorem lower (h : e.Reads) (hk : 1 ≤ k) (hle : k ≤ e.level) : ReadsAt k e.lexemes e := by
  obtain ⟨n, hn⟩ := Nat.exists_eq_add_of_le hle
  have hlevel := e.level_bounds.2
  have hreads := h.reads
  have hopens := h.opens
  rw [hn] at hlevel hreads hopens
  exact hreads.lower hk hlevel hopens

theorem parens (h : e.Reads) : PostfixReads (wrap true e.lexemes) e :=
  (primaryReads_parens (h.lower (Nat.le_refl 1) e.level_bounds.1)).postfixed

/-- An operand is read in its position, in parentheses if its operator binds less strongly than the
position asks for, and as it is otherwise. -/
theorem operand (h : e.Reads) (hk : 1 ≤ k) (hk8 : k ≤ 8) :
    ReadsAt k (wrap (e.level < k) e.lexemes) e := by
  by_cases hlt : e.level < k
  · rw [decide_eq_true hlt]
    obtain ⟨n, hn⟩ := Nat.exists_eq_add_of_le hk8
    have hreads := h.parens.reads
    have hopens : Opens 8 (wrap true e.lexemes) := ⟨_, _, rfl, Nat.le_refl 8⟩
    rw [hn] at hreads hopens
    exact hreads.lower hk (Nat.le_of_eq hn.symm) hopens
  · rw [decide_eq_false hlt]
    exact h.lower hk (Nat.le_of_not_lt hlt)

/-- The left operand of an operator that groups to the left is read by the same loop. -/
theorem leftOperand (h : e.Reads) (hk : k ∈ [1, 2, 5, 6]) :
    ChainReads k (wrap (e.level < k) e.lexemes) e := by
  by_cases heq : e.level = k
  · subst heq
    rw [decide_eq_false (Nat.lt_irrefl _)]
    exact h.chain hk
  · have hbounds : ∀ j ∈ [1, 2, 5, 6], 1 ≤ j + 1 ∧ j + 1 ≤ 8 := by decide
    have hwrap : decide (e.level < k) = decide (e.level < k + 1) := by
      rw [decide_eq_decide]
      omega
    rw [hwrap]
    exact .of_reads (h.operand (hbounds k hk).1 (hbounds k hk).2)

theorem suffixedOperand (h : e.Reads) : PostfixReads (wrap (e.level < 8) e.lexemes) e := by
  by_cases hlt : e.level < 8
  · rw [decide_eq_true hlt]
    exact h.parens
  · rw [decide_eq_false hlt]
    exact h.suffixed (Nat.le_antisymm e.level_bounds.2 (Nat.le_of_not_lt hlt))

/-- The lexemes of an expression are read as that expression, in the form in which statements use
it. -/
theorem expression (h : e.Reads) {c : Cursor} {more : List Lexeme} (hf : Follow 1 more)
    (ha : Ahead (e.lexemes ++ more) c) :
    (expression c).Gives fun s => s.value.unspanned = e.unspanned ∧ Ahead more s.next :=
  (h.lower (Nat.le_refl 1) e.level_bounds.1).expression hf ha

theorem of_postfixed (hlevel : e.level = 8) (hopens : Opens 8 e.lexemes)
    (h : PostfixReads e.lexemes e) : e.Reads := by
  refine ⟨by rw [hlevel]; exact hopens, by rw [hlevel]; exact h.reads, fun hmem => ?_, fun _ => h⟩
  rw [hlevel] at hmem
  exact absurd hmem (by decide)

theorem of_chain (hmem : e.level ∈ [1, 2, 5, 6]) (hopens : Opens e.level e.lexemes)
    (h : ChainReads e.level e.lexemes e) : e.Reads := by
  refine ⟨hopens, h.reads hmem, fun _ => h, fun hlevel => ?_⟩
  rw [hlevel] at hmem
  exact absurd hmem (by decide)

/-- The levels without a loop. -/
theorem of_single (hmem : e.level ∈ [3, 4, 7]) (hopens : Opens e.level e.lexemes)
    (h : ReadsAt e.level e.lexemes e) : e.Reads := by
  have hchain : ∀ k ∈ [3, 4, 7], k ∉ [1, 2, 5, 6] := by decide
  refine ⟨hopens, h, fun hmem' => absurd hmem' (hchain _ hmem), fun hlevel => ?_⟩
  rw [hlevel] at hmem
  exact absurd hmem (by decide)

end Expr.Reads

/-- The operators that group to the left, the comparisons and the power differ in what their operands
may be. -/
theorem BinaryOp.grouping (op : BinaryOp) :
    (op ≠ .pow ∧ op.level ∈ [1, 2, 5, 6] ∧ op.leftLevel = op.level ∧
        op.rightLevel = op.level + 1) ∨
      (op.level = 4 ∧ op.leftLevel = 5 ∧ op.rightLevel = 5) ∨ op = .pow := by
  cases op <;> decide

theorem BinaryOp.rightLevel_bounds (op : BinaryOp) : 1 ≤ op.rightLevel ∧ op.rightLevel ≤ 8 := by
  cases op <;> decide

/-- An operator between two expressions that are read back is read back. Comparisons, powers and the
levels that group to the left are read by different readers, which the cases follow. -/
theorem Expr.Reads.binary {op : BinaryOp} {l r : Expr} {span : Span} (hl : l.Reads) (hr : r.Reads) :
    (Expr.binary op l r span).Reads := by
  have hopens : Opens op.level (Expr.binary op l r span).lexemes :=
    ((hl.opens.wrap op.leftLevel_le).mono op.level_le_leftLevel).append _
  have hright := hr.operand op.rightLevel_bounds.1 op.rightLevel_bounds.2
  have hro : Opens 1 (wrap (r.level < op.rightLevel) r.lexemes) :=
    (hr.opens.wrap op.rightLevel_bounds.2).mono op.rightLevel_bounds.1
  rcases op.grouping with ⟨hpow, hmem, hll, hrl⟩ | ⟨hlevel, hll, hrl⟩ | rfl
  · refine .of_chain hmem hopens ?_
    have hleft : ChainReads op.level (wrap (l.level < op.leftLevel) l.lexemes) l := by
      rw [hll]
      exact hl.leftOperand hmem
    rw [hrl] at hright hro
    rw [Expr.lexemes, hrl]
    exact .binary hpow hleft hright hro
  · have hmem : (Expr.binary op l r span).level ∈ [3, 4, 7] := by
      change op.level ∈ _
      rw [hlevel]
      decide
    refine .of_single hmem hopens ?_
    change ReadsAt op.level _ _
    rw [hrl] at hright hro
    rw [Expr.lexemes, hll, hrl, hlevel]
    exact .compare hlevel (hl.operand (by decide) (by decide)) hright hro
  · refine .of_single (.tail _ (.tail _ (.head _))) hopens ?_
    exact .pow (hl.operand (by decide) (by decide)) (hl.opens.wrap (Nat.le_refl 8)) hright

theorem Expr.Reads.unary {op : UnaryOp} {e : Expr} {span : Span} (h : e.Reads) :
    (Expr.unary op e span).Reads := by
  have hoperand := h.operand op.level_bounds.1 op.level_bounds.2
  cases op with
  | neg =>
    exact .of_single (.tail _ (.tail _ (.head _))) ⟨_, _, rfl, Nat.le_refl 7⟩ (.neg hoperand)
  | not =>
    refine .of_single (.head _) ⟨_, _, rfl, ?_⟩ (.not hoperand)
    exact (by decide : 3 ≤ (Lexeme.word "not").startLevel)

mutual

/-- Every expression of the right shape is read back from its lexemes, up to spans. The induction is
on the expression, with a case for each kind in the lemmas before. -/
theorem Expr.reads : (e : Expr) → e.shaped false = true → e.Reads
  | .int v _, h =>
    .of_postfixed rfl ⟨_, _, rfl, Nat.le_refl 8⟩ (primaryReads_int (of_decide_eq_true h)).postfixed
  | .float _ _, h => nomatch h
  | .bool b _, _ => by
    refine .of_postfixed rfl ⟨_, _, rfl, ?_⟩ (primaryReads_bool b).postfixed
    cases b <;> decide
  | .str _ _, _ => .of_postfixed rfl ⟨_, _, rfl, Nat.le_refl 8⟩ primaryReads_str.postfixed
  | .name _ _, h => .of_postfixed rfl (opens_name h _) (primaryReads_name h).postfixed
  | .vector es _, h => by
    rw [shaped, Bool.and_eq_true, Bool.or_eq_true, beq_iff_eq, beq_iff_eq] at h
    refine .of_postfixed rfl ⟨_, _, rfl, Nat.le_refl 8⟩ ?_
    rw [lexemes, lexemesAll_eq_map]
    exact (primaryReads_vector h.1 (Expr.reads_all es h.2)).postfixed
  | .unary _ e _, h => (e.reads h).unary
  | .binary _ l r _, h => by
    rw [shaped, Bool.and_eq_true] at h
    exact (l.reads h.1).binary (r.reads h.2)
  | .call f es _, h => by
    rw [shaped, Bool.and_eq_true] at h
    refine .of_postfixed rfl (opens_name h.1 _) ?_
    rw [lexemes, lexemesAll_eq_map]
    have hf : PrimaryReads [.word f] (.name f default) := primaryReads_name h.1
    exact hf.postfixed.call (Expr.reads_all es h.2)
  | .member e _ _, h => by
    rw [shaped, Bool.and_eq_true] at h
    have he := e.reads h.1
    refine .of_postfixed rfl ((he.opens.wrap (Nat.le_refl 8)).append _) ?_
    exact he.suffixedOperand.member h.2

theorem Expr.reads_all : (es : List Expr) → Expr.allShaped false es = true →
    ∀ e ∈ es, ReadsAt 1 e.lexemes e
  | [], _ => List.forall_mem_nil _
  | e :: es, h => by
    rw [allShaped, Bool.and_eq_true] at h
    exact List.forall_mem_cons.2
      ⟨(e.reads h.1).lower (Nat.le_refl 1) e.level_bounds.1, Expr.reads_all es h.2⟩

end

/-! ### What an expression is made of -/

/-- A valid lexeme that can stand in an expression. -/
def Lexeme.Inner (l : Lexeme) : Prop := l.Valid ∧ l ≠ .mark .assign

/-- A word is a lexeme that may stand in an expression. -/
theorem Lexeme.Inner.word {s : String} (h : isWord s = true) : (Lexeme.word s).Inner := ⟨h, nofun⟩

/-- A name is a lexeme that may stand in an expression. -/
theorem Lexeme.Inner.name {s : String} (h : isName s = true) : (Lexeme.word s).Inner :=
  .word (Bool.and_eq_true_iff.1 h).1

theorem Lexeme.Inner.mark {m : Mark} (h : m ≠ .assign) : (Lexeme.mark m).Inner :=
  ⟨trivial, by simpa using h⟩

theorem Lexeme.Inner.wrap {parens : Bool} {ls : List Lexeme} (h : ∀ l ∈ ls, l.Inner) :
    ∀ l ∈ wrap parens ls, l.Inner := by
  cases parens with
  | false => exact h
  | true =>
    refine List.forall_mem_cons.2 ⟨.mark nofun, List.forall_mem_append.2 ⟨h, ?_⟩⟩
    exact List.forall_mem_singleton.2 (.mark nofun)

theorem forall_mem_commas {P : Lexeme → Prop} (hp : P (.mark .comma)) {lss : List (List Lexeme)}
    (h : ∀ ls ∈ lss, ∀ l ∈ ls, P l) : ∀ l ∈ commas lss, P l := by
  cases lss with
  | nil => exact List.forall_mem_nil _
  | cons ls lss =>
    rw [commas_cons]
    obtain ⟨hfirst, hrest⟩ := List.forall_mem_cons.1 h
    refine List.forall_mem_append.2 ⟨hfirst, fun l hl => ?_⟩
    obtain ⟨ls', hmem, hl⟩ := List.mem_flatMap.1 hl
    exact List.forall_mem_cons.2 ⟨hp, hrest ls' hmem⟩ l hl

mutual

/-- An expression is made of valid lexemes, and no assignment mark is among them. So an expression is
never taken for the start of an assignment. The induction is on the expression. -/
theorem Expr.inner_lexemes : (e : Expr) → e.shaped false = true → ∀ l ∈ e.lexemes, l.Inner
  | .int _ _, _ => List.forall_mem_singleton.2 ⟨trivial, nofun⟩
  | .float _ _, h => nomatch h
  | .bool b _, _ => by
    refine List.forall_mem_singleton.2 (.word ?_)
    cases b <;> decide
  | .str s _, h => by
    refine List.forall_mem_singleton.2 ⟨?_, nofun⟩
    simpa [shaped, Lexeme.Valid] using h
  | .name _ _, h => List.forall_mem_singleton.2 (.name h)
  | .vector es _, h => by
    rw [shaped, Bool.and_eq_true] at h
    refine List.forall_mem_cons.2 ⟨.mark nofun, List.forall_mem_append.2 ⟨?_, ?_⟩⟩
    · exact forall_mem_commas (.mark nofun) (Expr.inner_lexemesAll es h.2)
    · exact List.forall_mem_singleton.2 (.mark nofun)
  | .unary op e _, h => by
    refine List.forall_mem_cons.2 ⟨?_, .wrap (e.inner_lexemes h)⟩
    cases op with
    | neg => exact .mark nofun
    | not => exact .word (by decide)
  | .binary op l r _, h => by
    rw [shaped, Bool.and_eq_true] at h
    refine List.forall_mem_append.2 ⟨.wrap (l.inner_lexemes h.1),
      List.forall_mem_cons.2 ⟨?_, .wrap (r.inner_lexemes h.2)⟩⟩
    cases op with
    | or | and => exact .word (by decide)
    | _ => exact .mark nofun
  | .call f es _, h => by
    rw [shaped, Bool.and_eq_true] at h
    refine List.forall_mem_cons.2 ⟨.name h.1,
      List.forall_mem_cons.2 ⟨.mark nofun, List.forall_mem_append.2 ⟨?_, ?_⟩⟩⟩
    · exact forall_mem_commas (.mark nofun) (Expr.inner_lexemesAll es h.2)
    · exact List.forall_mem_singleton.2 (.mark nofun)
  | .member e n _, h => by
    rw [shaped, Bool.and_eq_true] at h
    refine List.forall_mem_append.2 ⟨.wrap (e.inner_lexemes h.1),
      List.forall_mem_cons.2 ⟨.mark nofun, ?_⟩⟩
    exact List.forall_mem_singleton.2 (.name h.2)

theorem Expr.inner_lexemesAll : (es : List Expr) → Expr.allShaped false es = true →
    ∀ ls ∈ Expr.lexemesAll es, ∀ l ∈ ls, l.Inner
  | [], _ => List.forall_mem_nil _
  | e :: es, h => by
    rw [allShaped, Bool.and_eq_true] at h
    exact List.forall_mem_cons.2 ⟨e.inner_lexemes h.1, Expr.inner_lexemesAll es h.2⟩

end

theorem BinaryOp.lexeme_ne_comma (op : BinaryOp) : op.lexeme ≠ .mark .comma := by
  cases op <;> exact nofun

/-- How an expression starts: not with the keyword of a statement, and not with a name and a comma. -/
def StartsExpr (ls : List Lexeme) : Prop :=
  (∀ w ∈ ["fn", "ng", "loop", "repeat"], ls.head? ≠ some (.word w)) ∧
    ∀ n rest, ls = .word n :: rest → isName n = true → rest.head? ≠ some (.mark .comma)

theorem StartsExpr.of_mark {m : Mark} {ls : List Lexeme} : StartsExpr (.mark m :: ls) :=
  ⟨fun _ _ => nofun, fun _ _ => nofun⟩

theorem StartsExpr.of_keyword {w : String} {ls : List Lexeme} (hn : isName w = false)
    (hw : w ∉ ["fn", "ng", "loop", "repeat"]) : StartsExpr (.word w :: ls) := by
  refine ⟨?_, ?_⟩
  · rintro v hv ⟨⟩
    exact hw hv
  · rintro n rest ⟨⟩ hname
    rw [hn] at hname
    cases hname

theorem head?_ne_keyword {n : String} (hn : isName n = true) {ls : List Lexeme} :
    ∀ w ∈ ["fn", "ng", "loop", "repeat"], (Lexeme.word n :: ls).head? ≠ some (.word w) := by
  have hkeywords : ∀ w ∈ ["fn", "ng", "loop", "repeat"], isName w = false := by decide
  rintro w hw ⟨⟩
  exact ne_of_isName hn (hkeywords _ hw) rfl

theorem StartsExpr.of_name {n : String} {ls : List Lexeme} (hn : isName n = true)
    (hls : ls.head? ≠ some (.mark .comma)) : StartsExpr (.word n :: ls) := by
  refine ⟨head?_ne_keyword hn, ?_⟩
  rintro n rest ⟨⟩ -
  exact hls

/-- The first operand of an expression decides how it starts. -/
theorem StartsExpr.wrap {e : Expr} {k : Nat} {ls more : List Lexeme} {l : Lexeme}
    (h : ∀ more, more.head? ≠ some (.mark .comma) → StartsExpr (e.lexemes ++ more))
    (hl : l ≠ .mark .comma) : StartsExpr (wrap (e.level < k) e.lexemes ++ l :: ls ++ more) := by
  rw [List.append_assoc, Lexeme.wrap]
  split
  · exact .of_mark
  · exact h _ fun hhead => hl (Option.some.inj hhead)

/-- An expression begins as expressions do, whatever follows it. So the readers of assignments give
it up softly. -/
theorem Expr.starts : (e : Expr) → e.shaped false = true → (more : List Lexeme) →
    more.head? ≠ some (.mark .comma) → StartsExpr (e.lexemes ++ more)
  | .int _ _, _, _, _ => ⟨fun _ _ => nofun, fun _ _ => nofun⟩
  | .float _ _, h, _, _ => nomatch h
  | .bool true _, _, _, _ => .of_keyword (by decide) (by decide)
  | .bool false _, _, _, _ => .of_keyword (by decide) (by decide)
  | .str _ _, _, _, _ => ⟨fun _ _ => nofun, fun _ _ => nofun⟩
  | .name _ _, h, _, hmore => .of_name h hmore
  | .vector _ _, _, _, _ => .of_mark
  | .unary .neg _ _, _, _, _ => .of_mark
  | .unary .not _ _, _, _, _ => .of_keyword (by decide) (by decide)
  | .binary op l _ _, h, _, _ => by
    rw [shaped, Bool.and_eq_true] at h
    exact .wrap (l.starts h.1) op.lexeme_ne_comma
  | .call _ _ _, h, _, _ => by
    rw [shaped, Bool.and_eq_true] at h
    exact .of_name h.1 nofun
  | .member e _ _, h, _, _ => by
    rw [shaped, Bool.and_eq_true] at h
    exact .wrap (e.starts h.1) nofun

end NodeFormula

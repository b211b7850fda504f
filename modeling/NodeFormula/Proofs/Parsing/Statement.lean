import NodeFormula.Proofs.Parsing.Expression

/-!
# Reading statements back

The lexemes of a statement of the right shape are read as that statement, up to spans, whatever
follows it (`Stmt.reads`). A statement that is an expression is tried as an assignment and as a field
assignment first; both fail softly, since an expression has no assignment mark and does not start with
a name and a comma.

`Program.parse_written` puts the statements together: a text of the lexemes of a program is read as
that program.
-/

namespace NodeFormula

open Token Expression Statement Lexeme

section
variable {c : Cursor} {ls more : List Lexeme} {e : Expr}

/-! ### Assignment marks -/

/-- The mark of an assignment is not read where another lexeme comes first, a comparison among
them. -/
theorem assignMark_fails (ha : Ahead ls c) (hne : ls.head? ≠ some (.mark .assign)) :
    (lexeme assignMark c).Fails := by
  have h := ha.skip
  refine lexeme_fails ?_
  by_cases hfirst : firstChar ls = some '='
  · -- The lexeme is `==`, which no assignment mark starts.
    obtain ⟨m, rest, rfl, hm⟩ := firstChar_mark h.valid hfirst (by decide) (by decide)
    obtain ⟨text, hc, -⟩ := h.exists_rest
    cases m with
    | assign => exact absurd rfl hne
    | equal => exact charNotBefore_fails (.inr ⟨text, hc⟩)
    | _ => cases hm
  · exact h.charNotBefore_fails hfirst

theorem assignMark_gives (ha : Ahead (.mark .assign :: ls) c) (ho : Opens 1 ls) :
    (lexeme assignMark c).Gives fun s => Ahead ls s.next := by
  have h := ha.skip
  have hequal : firstChar ls ≠ some '=' :=
    ho.firstChar_ne (fun l hl => h.valid l (.tail _ hl)) (by decide) (by decide)
  exact lexeme_gives (P := fun _ d => Ahead ls d)
    (h.charNotBefore rfl hequal (by decide) (by decide))

theorem Expr.Reads.opens_append (he : e.Reads) (more : List Lexeme) :
    Opens 1 (e.lexemes ++ more) :=
  (he.opens.mono e.level_bounds.1).append more

/-- An assignment mark and the value after it. -/
theorem Expr.Reads.assigned (he : e.Reads) (hf : Follow 1 more)
    (ha : Ahead (.mark .assign :: (e.lexemes ++ more)) c) :
    (lexeme assignMark c).Gives fun mark =>
      (Expression.expression mark.next).Gives fun s =>
        s.value.unspanned = e.unspanned ∧ Ahead more s.next :=
  (assignMark_gives ha (he.opens_append more)).mono fun _ hm => he.expression hf hm

/-! ### Simple statements -/

theorem name_gives {n : String} (hn : isName n = true) (ha : Ahead (.word n :: more) c) :
    (lexeme name c).Gives fun s => s.value = n ∧ Ahead more s.next :=
  lexeme_gives (P := fun v d => v = n ∧ Ahead more d) (ha.skip.name hn)

theorem char_gives_ahead {m : Mark} (x : Char) (hm : m.chars = [x])
    (ha : Ahead (.mark m :: more) c) :
    (lexeme (char x) c).Gives fun s => Ahead more s.next :=
  lexeme_gives (P := fun _ d => Ahead more d) (ha.skip.char hm)

/-- A target is read back: a name as itself, and an underscore as what ignores its value. -/
theorem target_gives {t : Target} (ht : t.shaped = true) (ha : Ahead (t.lexemes ++ more) c) :
    (target c).Gives fun s => s.value.unspanned = t.unspanned ∧ Ahead more s.next := by
  cases t with
  | name n span =>
    rw [Target.shaped, Bool.and_eq_true, bne_iff_ne] at ht
    refine (name_gives ht.1 ha).bind fun word hw => ⟨_, rfl, ?_, hw.2⟩
    simp only [Step.map, hw.1, if_neg ht.2, Target.unspanned]
  | ignore span =>
    refine (name_gives (by decide) ha).bind fun word hw => ⟨_, rfl, ?_, hw.2⟩
    simp only [Step.map, hw.1, if_pos, Target.unspanned]

/-- What is read of a statement before its span is known. -/
def Unspanned (stmt : Stmt) (more : List Lexeme) (s : Step c (Span → Stmt)) : Prop :=
  (∀ span, (s.value span).unspanned = stmt.unspanned) ∧ Ahead more s.next

/-- Targets with commas between them, the mark and a value are read as an assignment. -/
theorem assignment_gives {targets : List Target} {span : Span} (hne : targets ≠ [])
    (ht : ∀ t ∈ targets, t.shaped = true) (he : e.Reads) (hf : Follow 1 more)
    (ha : Ahead (commas (targets.map Target.lexemes) ++ .mark .assign :: (e.lexemes ++ more)) c) :
    (assignment c).Gives (Unspanned (.assign targets e span) more) := by
  cases targets with
  | nil => exact absurd rfl hne
  | cons t ts =>
    rw [List.map_cons, commas_cons, List.flatMap_map, List.append_assoc] at ha
    obtain ⟨hfirst, hrest⟩ := List.forall_mem_cons.1 ht
    refine (target_gives hfirst ha).bind fun first hfirst => ?_
    have hitems : ItemsRead (fun d (_ : c < d) => target d) Target.lexemes Target.unspanned
        (fun _ => True) ts := fun t ht _ _ _ _ ha => target_gives (hrest t ht) ha
    have hcomma : firstChar (.mark .assign :: (e.lexemes ++ more)) ≠ some ',' := nofun
    refine (moreItems_gives hitems (fun _ => trivial) trivial hcomma _ hfirst.2).bind
      fun others hothers => ?_
    refine (he.assigned hf hothers.2).bind fun mark hmark => ?_
    refine hmark.commit.bind fun value hvalue => ⟨_, rfl, fun span => ?_, hvalue.2⟩
    simp only [Step.map, Step.andThen, Step.extend, Stmt.unspanned, List.map_cons, hfirst.1,
      hothers.1, hvalue.1]

/-- A name is read where one is ahead, and only there. -/
theorem name_cases (ha : Ahead ls c) :
    (∃ n rest, ls = .word n :: rest ∧ isName n = true ∧
      (lexeme name c).Gives fun s => Ahead rest s.next) ∨ (lexeme name c).Fails := by
  by_cases hname : ∃ n rest, ls = .word n :: rest ∧ isName n = true
  · obtain ⟨n, rest, rfl, hn⟩ := hname
    exact .inl ⟨n, rest, rfl, hn, (name_gives hn ha).mono fun s hs => hs.2⟩
  · refine .inr (lexeme_fails (ha.skip.name_fails fun n hhead => Bool.eq_false_iff.2 fun hn => ?_))
    obtain ⟨rest, hrest⟩ := List.head?_eq_some_iff.1 hhead
    exact hname ⟨n, rest, hrest, hn⟩

/-- No assignment is read where no name is followed by an assignment mark or a comma. -/
theorem assignment_fails (ha : Ahead ls c)
    (h : ∀ n rest, ls = .word n :: rest → isName n = true →
      rest.head? ≠ some (.mark .comma) ∧ rest.head? ≠ some (.mark .assign)) :
    (assignment c).Fails := by
  rcases name_cases ha with ⟨n, rest, rfl, hn, hword⟩ | hfails
  · obtain ⟨hcomma, hassign⟩ := h n rest rfl hn
    have hfirst : (target c).Gives fun s => Ahead rest s.next :=
      hword.bind fun word hw => ⟨_, rfl, hw⟩
    refine hfirst.bind_fails fun first hfirst => ?_
    have hitems : ItemsRead (fun d (_ : c < d) => target d) Target.lexemes Target.unspanned
        (fun _ => True) [] := List.forall_mem_nil _
    have hchar : firstChar rest ≠ some ',' :=
      firstChar_ne_of_head? hfirst.valid hcomma (by decide) (by decide) (by rintro ⟨⟩ <;> decide)
    exact (moreItems_gives hitems (fun _ => trivial) trivial hchar _ hfirst).bind_fails
      fun others hothers => (assignMark_fails hothers.2 hassign).bind _
  · exact (hfails.bind _).bind _

/-- A name, a point, a name, the mark and a value are read as an assignment to a component. -/
theorem fieldAssignment_gives {n f : String} {span : Span} (hn : isName n = true)
    (hfield : isName f = true) (he : e.Reads) (hf : Follow 1 more)
    (ha : Ahead (.word n :: .mark .dot :: .word f :: .mark .assign :: (e.lexemes ++ more)) c) :
    (fieldAssignment c).Gives (Unspanned (.setField n f e span) more) := by
  refine (name_gives hn ha).bind fun object hobject => ?_
  refine (char_gives_ahead '.' rfl hobject.2).bind fun dot hdot => ?_
  refine (name_gives hfield hdot).bind fun field hfield => ?_
  refine (he.assigned hf hfield.2).bind fun mark hmark => ?_
  refine hmark.commit.bind fun value hvalue => ⟨_, rfl, fun span => ?_, hvalue.2⟩
  simp only [Step.map, Step.andThen, Stmt.unspanned, hobject.1, hfield.1, hvalue.1]

/-- No field assignment is read where no member of a name is followed by an assignment mark. -/
theorem fieldAssignment_fails (ha : Ahead ls c)
    (h : ∀ n f rest, ls = .word n :: .mark .dot :: .word f :: rest →
      rest.head? ≠ some (.mark .assign)) :
    (fieldAssignment c).Fails := by
  rcases name_cases ha with ⟨n, rest, rfl, -, hobject⟩ | hfails
  · refine hobject.bind_fails fun object hobject => ?_
    by_cases hdot : rest.head? = some (.mark .dot)
    · obtain ⟨rest, rfl⟩ := List.head?_eq_some_iff.1 hdot
      refine (char_gives_ahead '.' rfl hobject).bind_fails fun dot hdot => ?_
      rcases name_cases hdot with ⟨f, rest, rfl, -, hfield⟩ | hfails
      · exact hfield.bind_fails fun field hfield =>
          (assignMark_fails hfield (h n f rest rfl)).bind _
      · exact hfails.bind _
    · refine Reading.Fails.bind (lexeme_fails (hobject.skip.char_fails ?_)) _
      exact firstChar_ne_of_head? hobject.valid hdot (by decide) (by decide)
        (by rintro ⟨⟩ <;> decide)
  · exact hfails.bind _

/-- Up to the first semicolon after an expression there is no assignment mark. -/
theorem head?_ne_assign (before : List Lexeme) {rest : List Lexeme} (hls : ∀ l ∈ ls, l.Inner)
    (hbefore : .mark .semicolon ∉ before)
    (h : ls ++ .mark .semicolon :: more = before ++ rest) : rest.head? ≠ some (.mark .assign) := by
  intro hhead
  obtain ⟨rest, rfl⟩ := List.head?_eq_some_iff.1 hhead
  rcases List.append_eq_append_iff.1 h with ⟨as, rfl, has⟩ | ⟨bs, rfl, hbs⟩
  · cases as with
    | nil => cases has
    | cons a as =>
      cases has
      exact hbefore (List.mem_append_right _ (.head _))
  · cases bs with
    | nil => cases hbs
    | cons b bs =>
      cases hbs
      exact (hls _ (List.mem_append_right _ (.head _))).2 rfl

/-- A statement that is an expression is no assignment and no field assignment. -/
theorem assignments_fail (he : e.shaped false = true)
    (ha : Ahead (e.lexemes ++ .mark .semicolon :: more) c) :
    (assignment c).Fails ∧ (fieldAssignment c).Fails := by
  have hinner := e.inner_lexemes he
  have hstarts := e.starts he (.mark .semicolon :: more) nofun
  refine ⟨assignment_fails ha fun n rest hls hn => ⟨hstarts.2 n rest hls hn, ?_⟩,
    fieldAssignment_fails ha fun n f rest hls => ?_⟩
  · exact head?_ne_assign [.word n] hinner nofun hls
  · exact head?_ne_assign [.word n, .mark .dot, .word f] hinner (by simp) hls

/-- The semicolon after a simple statement. -/
theorem simple_gives {stmt : Stmt}
    (h : Reading.Gives (Reading.orElse (assignment c) fun _ => Reading.orElse (fieldAssignment c)
      fun _ => (expression c).map fun s => s.map Stmt.expr)
      (Unspanned stmt (.mark .semicolon :: more))) :
    (simple c).Gives (Unspanned stmt more) := by
  refine Reading.Gives.bind h.choice fun body hbody => ?_
  exact ((char_gives_ahead ';' rfl hbody.2).expecting _).commit.bind
    fun mark hmark => ⟨_, rfl, hbody.1, hmark⟩

theorem simple_assign {targets : List Target} {span : Span} (hne : targets ≠ [])
    (ht : ∀ t ∈ targets, t.shaped = true) (he : e.Reads)
    (ha : Ahead ((Stmt.assign targets e span).lexemes ++ more) c) :
    (simple c).Gives (Unspanned (.assign targets e span) more) := by
  refine simple_gives ((assignment_gives hne ht he (.of_end .semicolon rfl more) ?_).orElse _)
  simpa [Stmt.lexemes] using ha

/-- An assignment to a component is read back. It is tried as an assignment first, which fails softly
at the point. -/
theorem simple_setField {n f : String} {span : Span} (hn : isName n = true)
    (hf : isName f = true) (he : e.Reads)
    (ha : Ahead ((Stmt.setField n f e span).lexemes ++ more) c) :
    (simple c).Gives (Unspanned (.setField n f e span) more) := by
  have ha' : Ahead (.word n :: .mark .dot :: .word f :: .mark .assign ::
      (e.lexemes ++ .mark .semicolon :: more)) c := by simpa [Stmt.lexemes] using ha
  refine simple_gives ((assignment_fails ha' ?_).orElse_gives
    ((fieldAssignment_gives hn hf he (.of_end .semicolon rfl more) ha').orElse _))
  rintro n rest ⟨⟩ -
  exact ⟨nofun, nofun⟩

theorem simple_expr {span : Span} (hs : e.shaped false = true)
    (ha : Ahead ((Stmt.expr e span).lexemes ++ more) c) :
    (simple c).Gives (Unspanned (.expr e span) more) := by
  have ha' : Ahead (e.lexemes ++ .mark .semicolon :: more) c := by simpa [Stmt.lexemes] using ha
  obtain ⟨hassign, hfield⟩ := assignments_fail hs ha'
  refine simple_gives (hassign.orElse_gives (hfield.orElse_gives ?_))
  refine ((e.reads hs).expression (.of_end .semicolon rfl more) ha').map fun s hs =>
    ⟨fun span => ?_, hs.2⟩
  simp only [Step.map, Stmt.unspanned, hs.1]

/-- No simple statement starts where the text or a block ends. -/
theorem simple_fails (hs : Stops ls) (ha : Ahead ls c) : (simple c).Fails := by
  have hword : ∀ n rest, ls ≠ .word n :: rest := by
    rintro n rest rfl
    exact hs.head?_ne_word n rfl
  refine Reading.Fails.bind (.choice ?_) _
  refine (assignment_fails ha fun n rest hls => absurd hls (hword n rest)).orElse ?_
  refine (fieldAssignment_fails ha fun n f rest hls => absurd hls (hword n _)).orElse ?_
  exact (expression_fails hs ha).map _

/-! ### Parameters -/

theorem SocketType.isName_name (t : SocketType) : isName t.name = true := by
  cases t <;> decide

theorem SocketType.ofName?_name (t : SocketType) : SocketType.ofName? t.name = some t := by
  cases t <;> decide

theorem typeName_gives (t : SocketType) (ha : Ahead (.word t.name :: more) c) :
    (typeName c).Gives fun s => s.value = t ∧ Ahead more s.next := by
  refine (((name_gives t.isName_name ha).expecting _).commit).bind fun word hword => ?_
  rw [hword.1, t.ofName?_name]
  exact ⟨_, rfl, rfl, hword.2⟩

/-- The default value of a parameter is read back behind its mark. It may be left out, and then
nothing is read. -/
theorem defaultValue_gives {preset : Option Expr} (hp : ∀ e ∈ preset, e.Reads) (hf : Follow 1 more)
    (ha : Ahead (Lexeme.preset preset ++ more) c) :
    (defaultValue c).optional.Gives fun r =>
      r.value.map Expr.unspanned = preset.map Expr.unspanned ∧ Ahead more r.next := by
  cases preset with
  | none =>
    have hne : more.head? ≠ some (.mark .assign) := fun h => absurd (hf.strength _ h) (by decide)
    exact ⟨_, ((assignMark_fails ha hne).bind _).optional, rfl, ha⟩
  | some e =>
    refine Reading.Gives.optional (((hp e rfl).assigned hf ha).bind fun mark hmark => ?_)
    refine hmark.commit.bind fun value hvalue => ⟨_, rfl, ?_, hvalue.2⟩
    simp only [Step.reach, Step.map, Step.andThen, Option.map_some, hvalue.1]

/-- A parameter is read back with its type and its default. Without a default the reader of one fails
softly at what follows. -/
theorem parameter_gives {p : Param} (hp : p.shaped false = true) (hf : Follow 1 more)
    (ha : Ahead (p.lexemes ++ more) c) :
    (parameter c).Gives fun s => s.value.unspanned = p.unspanned ∧ Ahead more s.next := by
  rw [Param.shaped, Bool.and_eq_true, Option.all_eq_true] at hp
  obtain ⟨hn, hp⟩ := hp
  refine Reading.Gives.map (P := fun s => s.value.unspanned = p.unspanned ∧ Ahead more s.next) ?_
    fun s hs => hs
  refine ((ha.skip.name hn).expecting _).bind fun word hword => ?_
  refine (((char_gives_ahead ':' rfl hword.2).expecting _).commit).bind fun colon hcolon => ?_
  refine (typeName_gives p.type hcolon).bind fun type htype => ?_
  refine (defaultValue_gives (fun e he => e.reads (hp e he)) hf htype.2).bind
    fun preset hpreset => ⟨_, rfl, ?_, hpreset.2⟩
  simp only [Step.map, Step.extend, Param.unspanned, hword.1, htype.1, hpreset.1]

theorem parameter_fails (hs : Stops ls) (ha : Ahead ls c) : (parameter c).Fails := by
  refine Reading.Fails.map (Reading.Fails.bind (Reading.Fails.expecting ?_ _) _) _
  exact ha.skip.name_fails fun n hn => absurd hn (hs.head?_ne_word n)

theorem itemsRead_parameter {base : Cursor} {ps : List Param}
    (hps : ∀ p ∈ ps, p.shaped false = true) :
    ItemsRead (fun d (_ : base < d) => parameter d) Param.lexemes Param.unspanned (Follow 1) ps :=
  fun p hp _ _ _ hf ha => parameter_gives (hps p hp) hf ha

/-- The outputs of a definition are read back behind the arrow. They are left out together with the
arrow if there are none. -/
theorem outputs_gives {ps : List Param} (hps : ∀ p ∈ ps, p.shaped false = true)
    (ha : Ahead ((if ps.isEmpty then [] else .mark .arrow :: commas (ps.map Param.lexemes)) ++
      .mark .openBrace :: more) c) :
    (outputs c).optional.Gives fun r => (r.value.getD []).map Param.unspanned =
      ps.map Param.unspanned ∧ Ahead (.mark .openBrace :: more) r.next := by
  by_cases hne : ps = []
  · subst hne
    have hfails : (lexeme (pair '-' '>') c).Fails := lexeme_fails (ha.skip.pair_fails nofun)
    exact ⟨_, (hfails.bind _).optional, rfl, ha⟩
  · rw [if_neg (by simpa using hne)] at ha
    have harrow := lexeme_gives (P := fun _ d => Ahead (commas (ps.map Param.lexemes) ++
      .mark .openBrace :: more) d) (ha.skip.pair (x := '-') (y := '>') rfl)
    refine Reading.Gives.optional (harrow.bind fun arrow harrow => ?_)
    refine (items_gives hne (itemsRead_parameter hps) (.of_end .comma rfl)
      (.of_end .openBrace rfl more) nofun _ harrow).commit.bind fun list hlist => ?_
    exact ⟨_, rfl, hlist⟩

/-! ### Blocks -/

/-- A statement is read back, whatever follows it. -/
def Stmt.Reads (s : Stmt) : Prop :=
  ∀ (c : Cursor) (more : List Lexeme), Ahead (s.lexemes ++ more) c →
    (statement c).Gives fun t => t.value.unspanned = s.unspanned ∧ Ahead more t.next

/-- The reader of inner statements. -/
abbrev within (base : Cursor) : StmtAfter base := fun d _ => statement d

section
variable {base : Cursor} {inner : StmtAfter base}

theorem definition_fails (h : Here ls c) (hb : base ≤ c)
    (hne : ∀ w ∈ ["fn", "ng"], ls.head? ≠ some (.word w)) : (definition inner c hb).Fails := by
  refine Reading.Fails.bind (.choice (.orElse ?_ ?_)) _
  · exact (h.keyword_fails (by decide) (hne _ (by decide))).map _
  · exact (h.keyword_fails (by decide) (hne _ (by decide))).map _

theorem loop_fails (h : Here ls c) (hb : base ≤ c) (hne : ls.head? ≠ some (.word "loop")) :
    (loop inner c hb).Fails :=
  (h.keyword_fails (by decide) hne).bind _

theorem zone_fails (h : Here ls c) (hb : base ≤ c) (hne : ls.head? ≠ some (.word "repeat")) :
    (zone inner c hb).Fails :=
  (h.keyword_fails (by decide) hne).bind _

/-- No statement starts where the text or a block ends. -/
theorem statement_fails (hs : Stops ls) (ha : Ahead ls c) : (statement c).Fails := by
  rw [statement]
  refine Reading.Fails.map (Reading.Fails.bind (.choice ?_) _) _
  refine (definition_fails ha.skip _ fun w _ => hs.head?_ne_word w).orElse ?_
  refine (loop_fails ha.skip _ (hs.head?_ne_word _)).orElse ?_
  exact (zone_fails ha.skip _ (hs.head?_ne_word _)).orElse (simple_fails hs ha.skip.ahead)

/-- Statements that are read back one by one are read back in a row, up to where no statement begins.
The induction is on the statements. -/
theorem statements_gives {ss : List Stmt} (hss : ∀ s ∈ ss, s.Reads) (hs : Stops more)
    (h : base < c) (ha : Ahead (Stmt.lexemesAll ss ++ more) c) :
    (statements (within base) c h).Gives fun r =>
      r.value.map Stmt.unspanned = ss.map Stmt.unspanned ∧ Ahead more r.next := by
  induction ss generalizing c with
  | nil =>
    obtain ⟨f, hfail, hfinal⟩ := statement_fails hs ha
    rw [statements]
    simp only [hfail, hfinal]
    exact ⟨_, rfl, rfl, ha⟩
  | cons s ss ih =>
    rw [Stmt.lexemesAll, List.append_assoc] at ha
    obtain ⟨first, hfirst, hvalue, hnext⟩ := hss s (.head _) c _ ha
    obtain ⟨r, hr, hmap, har⟩ := ih (fun s hs => hss s (.tail _ hs))
      (first.lt_next (Cursor.le_of_lt h)) hnext
    rw [statements]
    simp only [hfirst]
    refine ⟨_, Reading.bind_ok.2 ⟨r, hr, rfl⟩, ?_, har⟩
    simp only [Step.reach, Step.extend, Reach.map, List.map_cons, hvalue, hmap]

/-- Statements in braces are read back as a block. -/
theorem block_gives {ss : List Stmt} (hss : ∀ s ∈ ss, s.Reads) (hb : base ≤ c)
    (ha : Ahead (.mark .openBrace :: (Stmt.lexemesAll ss ++ .mark .closeBrace :: more)) c) :
    (block (within base) c hb).Gives fun s =>
      s.value.map Stmt.unspanned = ss.map Stmt.unspanned ∧ Ahead more s.next := by
  refine ((char_gives_ahead '\x7b' rfl ha).expecting _).bind fun opened hopened => ?_
  have hstops : Stops (.mark .closeBrace :: more) := .tail _ (.tail _ (.head _))
  refine (statements_gives hss hstops _ hopened).bind fun body hbody => ?_
  refine ((char_gives_ahead '\x7d' rfl hbody.2).expecting _).commit.bind fun closed hclosed => ?_
  exact ⟨_, rfl, hbody.1, hclosed⟩

/-! ### Definitions, loops and repeat zones -/

theorem defKeyword_gives (kind : DefKind) (h : Here (kind.lexeme :: more) c) :
    (defKeyword c).Gives fun s => s.value = kind ∧ Ahead more s.next := by
  cases kind with
  | function => exact .choice ((h.keyword.map fun s hs => ⟨rfl, hs⟩).orElse _)
  | group =>
    refine .choice ?_
    refine ((h.keyword_fails (by decide) (by simp [DefKind.lexeme])).map _).orElse_gives ?_
    exact h.keyword.map fun s hs => ⟨rfl, hs⟩

/-- A definition is read back, part by part: keyword, name, inputs, outputs if there are any, and
body. Each part is read from where the one before has ended. -/
theorem definition_gives {header : Header} {ss : List Stmt} {span : Span}
    (hh : header.shaped false = true) (hss : ∀ s ∈ ss, s.Reads) (hb : base ≤ c)
    (h : Here ((Stmt.define header ss span).lexemes ++ more) c) :
    (definition (within base) c hb).Gives (Unspanned (.define header ss span) more) := by
  simp only [Header.shaped, Bool.and_eq_true, List.all_eq_true] at hh
  obtain ⟨⟨hname, hinputs⟩, houtputs⟩ := hh
  have h' : Here (header.kind.lexeme :: .word header.name :: .mark .openParen ::
      (commas (header.inputs.map Param.lexemes) ++ .mark .closeParen ::
        ((if header.outputs.isEmpty then []
          else .mark .arrow :: commas (header.outputs.map Param.lexemes)) ++
        .mark .openBrace :: (Stmt.lexemesAll ss ++ .mark .closeBrace :: more)))) c := by
    simpa [Stmt.lexemes, Header.lexemes] using h
  refine (defKeyword_gives _ h').bind fun kind hkind => ?_
  refine ((name_gives hname hkind.2).expecting _).commit.bind fun word hword => ?_
  refine ((char_gives_ahead '(' rfl hword.2).expecting _).commit.bind fun opened hopened => ?_
  have hnone : header.inputs = [] → (parameter opened.next).Fails := by
    intro hnil
    rw [hnil] at hopened
    exact parameter_fails (.tail _ (.head _)) hopened
  refine (optionalItems_gives (itemsRead_parameter hinputs) (.of_end .comma rfl)
    (.of_end .closeParen rfl _) (firstChar_mark_ne .closeParen _ (by decide)) _ hnone
    hopened).bind fun params hparams => ?_
  refine ((char_gives_ahead ')' rfl hparams.2).expecting _).commit.bind fun closed hclosed => ?_
  refine (outputs_gives houtputs hclosed).bind fun results hresults => ?_
  refine (block_gives hss _ hresults.2).commit.bind fun body hbody => ?_
  refine ⟨_, rfl, fun span => ?_, hbody.2⟩
  simp only [Step.map, Step.andThen, Stmt.unspanned, Header.unspanned, Stmt.unspannedAll_eq_map,
    hkind.1, hword.1, hparams.1, hresults.1, hbody.1]

/-- A repeat zone is read back with its count and its body, if both are. The count ends where the
brace of the body opens. -/
theorem zone_gives {ss : List Stmt} {span : Span} (he : e.Reads) (hss : ∀ s ∈ ss, s.Reads)
    (hb : base ≤ c) (h : Here ((Stmt.zone e ss span).lexemes ++ more) c) :
    (zone (within base) c hb).Gives (Unspanned (.zone e ss span) more) := by
  have h' : Here (.word "repeat" :: (e.lexemes ++
      .mark .openBrace :: (Stmt.lexemesAll ss ++ .mark .closeBrace :: more))) c := by
    simpa [Stmt.lexemes] using h
  refine h'.keyword.bind fun word hword => ?_
  refine (he.expression (.of_end .openBrace rfl _) hword).commit.bind fun count hcount => ?_
  refine (block_gives hss _ hcount.2).commit.bind fun body hbody => ?_
  refine ⟨_, rfl, fun span => ?_, hbody.2⟩
  simp only [Step.map, Step.andThen, Stmt.unspanned, Stmt.unspannedAll_eq_map, hcount.1, hbody.1]

theorem noFraction_mark {m : Mark} (hm : m ≠ .dot) : NoFraction (.mark m :: more) := by
  rintro k rest ⟨⟩
  exact hm rfl

/-- A negative loop bound is one lexeme, and its sign is read first. The digits behind it are those
of the absolute value, which is in range for every bound. -/
theorem boundHere_negative {n : Int64} {m : Mark} (hn : Word.isBound n = true)
    (hneg : n.toInt < 0) (hm : m ≠ .dot)
    (h : Here (.negative n.toInt.natAbs :: .mark m :: more) c) :
    (boundHere c).Gives fun s => s.value = n ∧ Ahead (.mark m :: more) s.next := by
  obtain ⟨text, hc, hw, hnext⟩ := h.exists_rest
  have hvalid : ∀ l ∈ (.mark m :: more : List Lexeme), l.Valid := fun l hl => h.valid l (.tail _ hl)
  have hopp : (-n).toInt = -n.toInt := toInt_neg_of_isBound hn
  have hdigits : (-n).toInt.toNat = n.toInt.natAbs := by omega
  have hsign : (char '-' c).Gives fun s =>
      s.next.rest = Nat.toDigits 10 (-n).toInt.toNat ++ text := by
    rw [hdigits]
    exact char_gives hc
  have hword : ∀ x, text.head? = some x → nameChar x = false := fun x hx =>
    hw.nameChar_head? hvalid (.inr (by rintro l ⟨⟩; rfl)) hx
  refine Reading.Gives.bind (Reading.Gives.optional (P := fun r => r.value.isSome = true ∧
    r.next.rest = Nat.toDigits 10 (-n).toInt.toNat ++ text)
    (hsign.mono fun s hs => ⟨rfl, hs⟩)) fun minus hminus => ?_
  have hfraction := hw.fractionChars hvalid (noFraction_mark hm)
  refine ((number_gives (by omega) hminus.2 hword hfraction).expecting _).bind
    fun digits hdigits => ?_
  simp only [hdigits.1, hminus.1]
  exact ⟨_, rfl, Int64.neg_neg, hnext _ hdigits.2⟩

theorem boundHere_nonneg {n : Int64} {m : Mark} (hn : 0 ≤ n.toInt) (hm : m ≠ .dot)
    (h : Here (.digits n.toInt.toNat :: .mark m :: more) c) :
    (boundHere c).Gives fun s => s.value = n ∧ Ahead (.mark m :: more) s.next := by
  have hopens : Opens 8 (.digits n.toInt.toNat :: .mark m :: more) := ⟨_, _, rfl, Nat.le_refl 8⟩
  have hminus := (h.char_fails (hopens.firstChar_ne_minus h.valid)).optional
  refine Reading.Gives.bind (P := fun r => r = Reach.here c none) ⟨_, hminus, rfl⟩ ?_
  rintro _ rfl
  refine ((h.number hn (noFraction_mark hm)).expecting _).bind fun digits hdigits => ?_
  simp only [hdigits.1]
  exact ⟨_, rfl, rfl, hdigits.2⟩

/-- A loop bound is read where a mark follows it other than a point, whether it is negative or
not. -/
theorem bound_gives {n : Int64} (m : Mark) (hn : Word.isBound n = true) (hm : m ≠ .dot)
    (ha : Ahead (Lexeme.bound n :: .mark m :: more) c) :
    (bound c).Gives fun s => s.value = n ∧ Ahead (.mark m :: more) s.next := by
  refine Reading.Gives.map (P := fun s => s.value = n ∧ Ahead (.mark m :: more) s.next) ?_
    fun s hs => hs
  have h := ha.skip
  by_cases hneg : n.toInt < 0
  · rw [Lexeme.bound, if_pos hneg] at h
    exact boundHere_negative hn hneg hm h
  · rw [Lexeme.bound, if_neg hneg] at h
    exact boundHere_nonneg (Int.not_lt.1 hneg) hm h

theorem bound_ne_word (n : Int64) (w : String) : Lexeme.bound n ≠ .word w := by
  rw [Lexeme.bound]
  split <;> exact nofun

theorem bound_ne_mark (n : Int64) (m : Mark) : Lexeme.bound n ≠ .mark m := by
  rw [Lexeme.bound]
  split <;> exact nofun

/-- The counter of a loop is read back with the mark behind it. It may be left out, where the first
bound comes next and is no name. -/
theorem counter_gives {index : Option String} {n : Int64} (hi : index.all isName = true)
    (ha : Ahead (Lexeme.counter index ++ Lexeme.bound n :: more) c) :
    (counter c).optional.Gives fun r =>
      r.value = index ∧ Ahead (Lexeme.bound n :: more) r.next := by
  cases index with
  | none =>
    have hfails := lexeme_fails (ha.skip.name_fails fun w hw =>
      absurd (Option.some.inj hw) (bound_ne_word n w))
    exact ⟨_, (hfails.bind _).optional, rfl, ha⟩
  | some i =>
    refine Reading.Gives.optional ((name_gives hi ha).bind fun word hword => ?_)
    have hequal : firstChar (Lexeme.bound n :: more) ≠ some '=' := by
      intro hfirst
      obtain ⟨m, rest, hls, -⟩ := firstChar_mark (fun l hl => hword.2.valid l (.tail _ hl)) hfirst
        (by decide) (by decide)
      exact bound_ne_mark n m (List.cons.inj hls).1
    have hmark := lexeme_gives (P := fun _ d => Ahead (Lexeme.bound n :: more) d)
      (hword.2.skip.charNotBefore rfl hequal (by decide) (by decide))
    exact hmark.bind fun mark hmark => ⟨_, rfl, congrArg some hword.1, hmark⟩

/-- A loop is read back with its counter, its bounds and its body. Without a counter the reader of
one fails softly at the bound. -/
theorem loop_gives {index : Option String} {first last : Int64} {ss : List Stmt} {span : Span}
    (hi : index.all isName = true) (hfirst : Word.isBound first = true)
    (hlast : Word.isBound last = true) (hss : ∀ s ∈ ss, s.Reads) (hb : base ≤ c)
    (h : Here ((Stmt.loop index first last ss span).lexemes ++ more) c) :
    (loop (within base) c hb).Gives (Unspanned (.loop index first last ss span) more) := by
  have h' : Here (.word "loop" :: (Lexeme.counter index ++ Lexeme.bound first :: .mark .arrow ::
      Lexeme.bound last :: .mark .openBrace ::
        (Stmt.lexemesAll ss ++ .mark .closeBrace :: more))) c := by
    simpa [Stmt.lexemes] using h
  refine h'.keyword.bind fun word hword => ?_
  refine (counter_gives hi hword).bind fun index hindex => ?_
  refine (bound_gives .arrow hfirst nofun hindex.2).commit.bind fun first hfirst => ?_
  have harrow := lexeme_gives (P := fun _ d => Ahead (Lexeme.bound last :: .mark .openBrace ::
    (Stmt.lexemesAll ss ++ .mark .closeBrace :: more)) d)
    (hfirst.2.skip.pair (x := '-') (y := '>') rfl)
  refine (harrow.expecting _).commit.bind fun arrow harrow => ?_
  refine (bound_gives .openBrace hlast nofun harrow).commit.bind fun last hlast => ?_
  refine (block_gives hss _ hlast.2).commit.bind fun body hbody => ?_
  refine ⟨_, rfl, fun span => ?_, hbody.2⟩
  simp only [Step.map, Step.andThen, Stmt.unspanned, Stmt.unspannedAll_eq_map, hindex.1, hfirst.1,
    hlast.1, hbody.1]

end

/-! ### Statements -/

/-- A statement is read once one of its four forms is. -/
theorem statement_gives {stmt : Stmt} {h : c ≤ skipSpace c}
    (hg : Reading.Gives (Reading.orElse (definition (within c) (skipSpace c) h) fun _ =>
      Reading.orElse (loop (within c) (skipSpace c) h) fun _ =>
      Reading.orElse (zone (within c) (skipSpace c) h) fun _ => simple (skipSpace c))
      (Unspanned stmt more)) :
    (statement c).Gives fun t => t.value.unspanned = stmt.unspanned ∧ Ahead more t.next := by
  rw [statement]
  refine Reading.Gives.map (Reading.Gives.bind hg.choice fun body hbody => ?_) fun s hs => hs
  exact ⟨_, rfl, hbody.1 _, hbody.2⟩

/-- A statement that begins with none of the four keywords is read as a simple one. -/
theorem statement_simple {stmt : Stmt} (ha : Ahead ls c)
    (hne : ∀ w ∈ ["fn", "ng", "loop", "repeat"], ls.head? ≠ some (.word w))
    (hg : (simple (skipSpace c)).Gives (Unspanned stmt more)) :
    (statement c).Gives fun t => t.value.unspanned = stmt.unspanned ∧ Ahead more t.next := by
  refine statement_gives (h := le_skipSpace c) ?_
  refine (definition_fails ha.skip _ fun w hw => hne w ?_).orElse_gives ?_
  · exact List.mem_append_left ["loop", "repeat"] hw
  refine (loop_fails ha.skip _ (hne _ (by decide))).orElse_gives ?_
  exact (zone_fails ha.skip _ (hne _ (by decide))).orElse_gives hg

theorem Target.exists_name {t : Target} (ht : t.shaped = true) :
    ∃ n, t.lexemes = [.word n] ∧ isName n = true := by
  cases t with
  | name n span =>
    rw [Target.shaped, Bool.and_eq_true] at ht
    exact ⟨n, rfl, ht.1⟩
  | ignore span => exact ⟨"_", rfl, by decide⟩

mutual

/-- Every statement of the right shape is read back from its lexemes, up to spans. The induction is
on the statement, as definitions, loops and zones have statements in them. -/
theorem Stmt.reads : (s : Stmt) → s.shaped false = true → s.Reads
  | .expr e span, h => by
    intro c more ha
    refine statement_simple ha ?_ (simple_expr h ha.skip.ahead)
    have hstarts := (e.starts h (.mark .semicolon :: more) nofun).1
    simpa [Stmt.lexemes] using hstarts
  | .assign targets e span, h => by
    simp only [shaped, Bool.and_eq_true, List.all_eq_true, Bool.not_eq_true',
      List.isEmpty_eq_false_iff] at h
    obtain ⟨⟨hne, ht⟩, he⟩ := h
    intro c more ha
    refine statement_simple ha ?_ (simple_assign hne ht (e.reads he) ha.skip.ahead)
    obtain ⟨t, ts, rfl⟩ := List.exists_cons_of_ne_nil hne
    obtain ⟨n, hlexemes, hn⟩ := Target.exists_name (ht t (.head _))
    rw [lexemes, List.map_cons, commas_cons, hlexemes]
    exact head?_ne_keyword hn
  | .setField n f e span, h => by
    simp only [shaped, Bool.and_eq_true] at h
    intro c more ha
    exact statement_simple ha (head?_ne_keyword h.1.1)
      (simple_setField h.1.1 h.1.2 (e.reads h.2) ha.skip.ahead)
  | .loop index first last ss span, h => by
    simp only [shaped, Bool.and_eq_true] at h
    obtain ⟨⟨⟨hi, hfirst⟩, hlast⟩, hss⟩ := h
    intro c more ha
    refine statement_gives (h := le_skipSpace c) ?_
    refine (definition_fails ha.skip _ ?_).orElse_gives
      ((loop_gives hi hfirst hlast (Stmt.reads_all ss hss) _ ha.skip).orElse _)
    rintro w hw ⟨⟩
    exact absurd hw (by decide)
  | .zone e ss span, h => by
    rw [shaped, Bool.and_eq_true] at h
    intro c more ha
    refine statement_gives (h := le_skipSpace c) ?_
    refine (definition_fails ha.skip _ ?_).orElse_gives ((loop_fails ha.skip _ ?_).orElse_gives
      ((zone_gives (e.reads h.1) (Stmt.reads_all ss h.2) _ ha.skip).orElse _))
    · rintro w hw ⟨⟩
      exact absurd hw (by decide)
    · simp [lexemes]
  | .define header ss span, h => by
    rw [shaped, Bool.and_eq_true] at h
    intro c more ha
    refine statement_gives (h := le_skipSpace c) ?_
    exact (definition_gives h.1 (Stmt.reads_all ss h.2) _ ha.skip).orElse _

theorem Stmt.reads_all : (ss : List Stmt) → Stmt.allShaped false ss = true → ∀ s ∈ ss, s.Reads
  | [], _ => List.forall_mem_nil _
  | s :: ss, h => by
    rw [allShaped, Bool.and_eq_true] at h
    exact List.forall_mem_cons.2 ⟨s.reads h.1, Stmt.reads_all ss h.2⟩

end

/-! ### What a statement is made of -/

theorem valid_name {n : String} (h : isName n = true) : (Lexeme.word n).Valid :=
  (Inner.name h).1

theorem Expr.valid_lexemes (h : e.shaped false = true) : ∀ l ∈ e.lexemes, l.Valid :=
  fun l hl => (e.inner_lexemes h l hl).1

theorem valid_bound (n : Int64) : (Lexeme.bound n).Valid := by
  rw [Lexeme.bound]
  split <;> exact trivial

theorem Param.valid_lexemes {p : Param} (h : p.shaped false = true) :
    ∀ l ∈ p.lexemes, l.Valid := by
  rw [Param.shaped, Bool.and_eq_true, Option.all_eq_true] at h
  simp only [Param.lexemes, List.forall_mem_cons]
  refine ⟨valid_name h.1, trivial, valid_name p.type.isName_name, ?_⟩
  cases hd : p.default with
  | none => exact List.forall_mem_nil _
  | some e => exact List.forall_mem_cons.2 ⟨trivial, Expr.valid_lexemes (h.2 e hd)⟩

theorem valid_params {ps : List Param} (h : ∀ p ∈ ps, p.shaped false = true) :
    ∀ l ∈ commas (ps.map Param.lexemes), l.Valid := by
  refine forall_mem_commas (P := Lexeme.Valid) trivial fun ls hls => ?_
  obtain ⟨p, hp, rfl⟩ := List.mem_map.1 hls
  exact Param.valid_lexemes (h p hp)

/-- The lexemes of a header in the right shape are valid, with outputs or without. -/
theorem Header.valid_lexemes {h : Header} (hs : h.shaped false = true) :
    ∀ l ∈ h.lexemes, l.Valid := by
  simp only [Header.shaped, Bool.and_eq_true, List.all_eq_true] at hs
  obtain ⟨⟨hname, hinputs⟩, houtputs⟩ := hs
  have hkind : h.kind.lexeme.Valid := by
    cases h.kind with
    | function => exact (by decide : isWord "fn" = true)
    | group => exact (by decide : isWord "ng" = true)
  simp only [Header.lexemes, List.forall_mem_cons, List.forall_mem_append]
  refine ⟨hkind, valid_name hname, trivial, valid_params hinputs, trivial, ?_⟩
  split
  · exact List.forall_mem_nil _
  · exact List.forall_mem_cons.2 ⟨trivial, valid_params houtputs⟩

theorem valid_counter {index : Option String} (h : index.all isName = true) :
    ∀ l ∈ Lexeme.counter index, l.Valid := by
  cases index with
  | none => exact List.forall_mem_nil _
  | some n => exact List.forall_mem_cons.2 ⟨valid_name h, List.forall_mem_singleton.2 trivial⟩

theorem valid_targets {ts : List Target} (h : ∀ t ∈ ts, t.shaped = true) :
    ∀ l ∈ commas (ts.map Target.lexemes), l.Valid := by
  refine forall_mem_commas (P := Lexeme.Valid) trivial fun ls hls => ?_
  obtain ⟨t, ht, rfl⟩ := List.mem_map.1 hls
  obtain ⟨n, hlexemes, hn⟩ := Target.exists_name (h t ht)
  rw [hlexemes]
  exact List.forall_mem_singleton.2 (valid_name hn)

mutual

/-- A statement of the right shape is made of valid lexemes: its words, numbers and strings are such
that the printed text can be split again. The induction is on the statement. -/
theorem Stmt.valid_lexemes : (s : Stmt) → s.shaped false = true → ∀ l ∈ s.lexemes, l.Valid
  | .expr e _, h =>
    List.forall_mem_append.2 ⟨Expr.valid_lexemes h, List.forall_mem_singleton.2 trivial⟩
  | .assign targets e _, h => by
    simp only [shaped, Bool.and_eq_true, List.all_eq_true] at h
    simp only [lexemes, List.forall_mem_cons, List.forall_mem_append]
    exact ⟨valid_targets h.1.2, trivial, Expr.valid_lexemes h.2, trivial,
      List.forall_mem_nil _⟩
  | .setField n f e _, h => by
    simp only [shaped, Bool.and_eq_true] at h
    simp only [lexemes, List.forall_mem_cons, List.forall_mem_append]
    exact ⟨valid_name h.1.1, trivial, valid_name h.1.2, trivial, Expr.valid_lexemes h.2, trivial,
      List.forall_mem_nil _⟩
  | .loop index first last ss _, h => by
    simp only [shaped, Bool.and_eq_true] at h
    simp only [lexemes, List.forall_mem_cons, List.forall_mem_append]
    exact ⟨(by decide : isWord "loop" = true), valid_counter h.1.1.1, valid_bound first, trivial,
      valid_bound last, trivial, Stmt.valid_lexemesAll ss h.2, trivial, List.forall_mem_nil _⟩
  | .zone e ss _, h => by
    rw [shaped, Bool.and_eq_true] at h
    simp only [lexemes, List.forall_mem_cons, List.forall_mem_append]
    exact ⟨(by decide : isWord "repeat" = true), Expr.valid_lexemes h.1, trivial,
      Stmt.valid_lexemesAll ss h.2, trivial, List.forall_mem_nil _⟩
  | .define header ss _, h => by
    rw [shaped, Bool.and_eq_true] at h
    simp only [lexemes, List.forall_mem_cons, List.forall_mem_append]
    exact ⟨Header.valid_lexemes h.1, trivial, Stmt.valid_lexemesAll ss h.2, trivial,
      List.forall_mem_nil _⟩

theorem Stmt.valid_lexemesAll : (ss : List Stmt) → Stmt.allShaped false ss = true →
    ∀ l ∈ Stmt.lexemesAll ss, l.Valid
  | [], _ => List.forall_mem_nil _
  | s :: ss, h => by
    rw [allShaped, Bool.and_eq_true] at h
    exact List.forall_mem_append.2 ⟨s.valid_lexemes h.1, Stmt.valid_lexemesAll ss h.2⟩

end

/-! ### Programs -/

/-- All statements of a source are read back up to its end. The induction is on the statements, and
the last reading fails softly where nothing is left. -/
theorem allStatements_gives {ss : List Stmt} (hss : ∀ s ∈ ss, s.Reads)
    (ha : Ahead (Stmt.lexemesAll ss) c) :
    (allStatements c).Gives fun r =>
      r.value.map Stmt.unspanned = ss.map Stmt.unspanned ∧ Ahead [] r.next := by
  induction ss generalizing c with
  | nil =>
    have hstops : Stops [] := .head _
    obtain ⟨f, hfail, hfinal⟩ := statement_fails hstops ha
    rw [allStatements]
    simp only [hfail, hfinal]
    exact ⟨_, rfl, rfl, ha⟩
  | cons s ss ih =>
    rw [Stmt.lexemesAll] at ha
    obtain ⟨first, hfirst, hvalue, hnext⟩ := hss s (.head _) c _ ha
    obtain ⟨r, hr, hmap, har⟩ := ih (fun s hs => hss s (.tail _ hs)) hnext
    rw [allStatements]
    simp only [hfirst]
    refine ⟨_, Reading.bind_ok.2 ⟨r, hr, rfl⟩, ?_, har⟩
    simp only [Step.reach, Step.extend, Reach.map, List.map_cons, hvalue, hmap]

end

/-- A text of the lexemes of a program is read as that program, up to spans. The gaps between the
lexemes may be any that keep these apart. -/
theorem Program.parse_of_written {p : Program} {text : String} (hp : p.shaped false = true)
    (hw : Written false p.lexemes text.toList) :
    ∃ q, Program.parse text = .ok q ∧ q.unspanned = p.unspanned := by
  have ha : Ahead p.lexemes (Cursor.ofString text) :=
    ⟨⟨false, hw⟩, Stmt.valid_lexemesAll p.items hp⟩
  obtain ⟨body, hbody, hvalue, hnext⟩ := allStatements_gives (Stmt.reads_all p.items hp) ha
  have hrest : (skipSpace body.next).rest = [] := by
    cases hnext.skip with
    | nil h => exact h
  have hread : Statement.program (Cursor.ofString text) = .ok ⟨body.value⟩ := by
    refine Reading.bind_ok.2 ⟨body, hbody, ?_⟩
    simp only [hrest]
    rfl
  refine ⟨⟨body.value⟩, by rw [Program.parse, hread]; rfl, ?_⟩
  simp only [Program.unspanned, Stmt.unspannedAll_eq_map, hvalue]

/-- Parsing undoes printing: a text of a program of the right shape, with any gaps between its
lexemes, is read as that program up to spans. Conversely every program that is read has that shape,
apart from its numbers with a fraction or an exponent. -/
theorem Program.parse_undoes_print :
    (∀ (p : Program) (text : String), p.shaped false = true → Written false p.lexemes text.toList →
      ∃ q, Program.parse text = .ok q ∧ q.unspanned = p.unspanned) ∧
    ∀ (text : String) (q : Program), Program.parse text = .ok q → q.shaped true = true :=
  ⟨fun _ _ hp hw => parse_of_written hp hw, fun _ _ h => shaped_of_parse h⟩

/-- A node group with a default value, a loop with a counter and a negative bound, and an expression
that needs parentheses. -/
def fadeProgram : Program :=
  ⟨[.define ⟨.group, "fade",
      [⟨"x", .float, none, default⟩, ⟨"w", .float, some (.int 2 default), default⟩],
      [⟨"y", .float, none, default⟩]⟩
    [.loop (some "i") (-1) 2
      [.assign [.name "y" default, .ignore default]
        (.binary .pow (.unary .neg (.name "x" default) default)
          (.binary .sub (.name "w" default)
            (.binary .sub (.int 1 default) (.name "i" default) default) default) default)
        default] default] default]⟩

example : fadeProgram.print [' '] =
    " ng fade( x: float, w: float= 2)-> y: float\x7b loop i=-1-> 2\x7b" ++
      " y, _=(- x)**( w-( 1- i));\x7d\x7d" := by
  decide +kernel

/-- A text of the program with comments between words and nothing between marks. -/
def fadeText : String := fadeProgram.print "# fade\n".toList

/-- The node group above, written with a comment in each gap, has the right shape and is read back up
to spans. Its text is not the one that would be printed. -/
theorem Program.parse_fadeText :
    fadeProgram.shaped false = true ∧ Written false fadeProgram.lexemes fadeText.toList ∧
      ∃ q, Program.parse fadeText = .ok q ∧ q.unspanned = fadeProgram.unspanned ∧
        q.shaped true = true := by
  have hshaped : fadeProgram.shaped false = true := by decide +kernel
  have hcomment : ∀ x ∈ " fade".toList, commentChar x = true := List.all_eq_true.1 (by decide)
  have hgap : Gap "# fade\n".toList := .comment hcomment .nil
  have hwritten := fadeProgram.written_print hgap (by decide)
  obtain ⟨q, hq, hspans⟩ := parse_undoes_print.1 fadeProgram fadeText hshaped hwritten
  exact ⟨hshaped, hwritten, q, hq, hspans, parse_undoes_print.2 fadeText q hq⟩

end NodeFormula

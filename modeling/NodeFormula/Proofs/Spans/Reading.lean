import NodeFormula.Proofs.Parsing.Shape
import NodeFormula.Proofs.Spans.Outline

/-!
# Readers lay out what they read

Every reader that succeeds at a place of a text lays out what it reads between that place and the cursor
after it (`Reading.Lays`). Each proof follows its reader: what is read first lies before what is read
next because the cursor only moves on. The result is `Program.outlines_of_parse`.
-/

namespace NodeFormula

/-- What is read at a place of a text is laid out between it and the cursor after it. -/
def Reading.Lays {α : Type} {c : Cursor} (text : String) (parts : α → List Outline)
    (r : Reading (Step c α)) : Prop :=
  Cursor.ofString text ≤ c → ∀ s, r = .ok s → Laid text c.offset s.next.offset (parts s.value)

/-- An expression that is read is laid out where it is read. -/
abbrev Reading.LaysExpr {c : Cursor} (text : String) (r : Reading (Step c Expr)) : Prop :=
  r.Lays text fun e => [e.outline]

variable {text : String} {base c d : Cursor}

section
variable {α : Type}

/-- The cursor after a step is a place of the text. -/
theorem Step.place (s : Step c α) (hc : Cursor.ofString text ≤ c) : Cursor.ofString text ≤ s.next :=
  s.le_next hc

theorem Step.offset_le (s : Step c α) : c.offset ≤ s.next.offset :=
  Cursor.offset_le (Cursor.le_of_lt s.later)

/-- After an optional part the cursor is still a place of the text. -/
theorem Reach.place (r : Reach c α) (hc : Cursor.ofString text ≤ c) :
    Cursor.ofString text ≤ r.next :=
  Cursor.le_trans hc r.reached

theorem Reach.offset_le (r : Reach c α) : c.offset ≤ r.next.offset := Cursor.offset_le r.reached

/-- A leaf of a syntax tree, from one place to another. -/
theorem Laid.leaf (hc : Cursor.ofString text ≤ c) (h : c ≤ d) :
    Laid text c.offset d.offset [.node (c.spanTo d) []] :=
  Laid.nil.node (Cursor.within_spanTo hc h)

/-- Space before what is read may be counted in. -/
theorem Laid.afterSpace {b : Nat} {parts : List Outline}
    (h : Laid text (Token.skipSpace c).offset b parts) : Laid text c.offset b parts :=
  h.widen (Cursor.offset_le (Token.le_skipSpace c)) (Nat.le_refl b)

/-- An optional part reads nothing, or is there and is read as it would be by itself. A final failure
of it is one of the whole. -/
theorem Reading.optional_cases {r : Reading (Step c α)} {o : Reach c (Option α)}
    (h : r.optional = .ok o) : o = Reach.here c none ∨ ∃ s, r = .ok s ∧ o = (s.map some).reach := by
  cases r with
  | ok s =>
    cases h
    exact .inr ⟨s, rfl, rfl⟩
  | error f =>
    simp only [optional] at h
    split at h
    next => cases h
    next => cases h; exact .inl rfl

theorem Cursor.skipSpace_place (hc : Cursor.ofString text ≤ c) :
    Cursor.ofString text ≤ Token.skipSpace c :=
  Cursor.le_trans hc (Token.le_skipSpace c)

end

namespace Expression

open Token Reading

/-! ### Lists -/

section
variable {α : Type} {part : α → Outline} {item : (d : Cursor) → base < d → Reading (Step d α)}
  (hitem : ∀ d h, (item d h).Lays text fun a => [part a])
include hitem

/-- Further items are laid out one behind the other, by induction on the length of the rest of the
source, which each item makes shorter. -/
theorem moreItems_laid (hc : Cursor.ofString text ≤ c) {h : base ≤ c} {r : Reach c (List α)}
    (hr : moreItems item c h = .ok r) : Laid text c.offset r.next.offset (r.value.map part) := by
  induction hn : c.rest.length using Nat.strong_induction_on generalizing c with
  | _ n ih =>
    rw [moreItems] at hr
    split at hr
    next => cases hr; exact .nil
    next comma _ =>
      split at hr
      next =>
        split at hr
        next => cases hr
        next => cases hr; exact .nil
      next first hfirst =>
        obtain ⟨more, hmore, hr⟩ := bind_ok.1 hr
        cases hr
        have hlt := hn ▸ Cursor.length_lt (comma.andThen first).later
        have hcomma := comma.place hc
        have hlaid := (hitem _ _ hcomma first hfirst).widen comma.offset_le (Nat.le_refl _)
        have hrest := ih _ hlt ((comma.andThen first).place hc) hmore rfl
        exact hlaid.cons hrest (comma.andThen first).offset_le more.offset_le

theorem items_lays (h : base < c) : (items item c h).Lays text fun as => as.map part := by
  intro hc s hs
  obtain ⟨first, hfirst, hs⟩ := bind_ok.1 hs
  obtain ⟨more, hmore, hs⟩ := bind_ok.1 hs
  cases hs
  have hrest := moreItems_laid hitem (first.place hc) hmore
  exact (hitem _ _ hc first hfirst).cons hrest first.offset_le more.offset_le

theorem optionalItems_laid (hc : Cursor.ofString text ≤ c) {h : base < c} {r : Reach c (List α)}
    (hr : optionalItems item c h = .ok r) : Laid text c.offset r.next.offset (r.value.map part) := by
  obtain ⟨list, hlist, hr⟩ := bind_ok.1 hr
  cases hr
  rcases optional_cases hlist with rfl | ⟨t, ht, rfl⟩
  · exact .nil
  · exact items_lays hitem h hc t ht

end

/-! ### Primary expressions -/

/-- An atom has no parts, and its span goes from the cursor to the end of its token. -/
theorem atom_lays (c : Cursor) : (atom c).LaysExpr text := by
  intro hc s h
  rcases orElse_ok h with h | h
  · obtain ⟨t, -, rfl⟩ := map_ok.1 h
    simp only [Step.map]
    split <;> exact .leaf hc (t.le_next (Cursor.le_refl c))
  rcases orElse_ok h with h | h
  · obtain ⟨t, -, rfl⟩ := map_ok.1 h
    exact .leaf hc (t.le_next (Cursor.le_refl c))
  rcases orElse_ok h with h | h
  · obtain ⟨t, -, rfl⟩ := map_ok.1 h
    exact .leaf hc (t.le_next (Cursor.le_refl c))
  rcases orElse_ok h with h | h
  · obtain ⟨t, -, rfl⟩ := map_ok.1 h
    exact .leaf hc (t.le_next (Cursor.le_refl c))
  · obtain ⟨t, -, rfl⟩ := map_ok.1 h
    exact .leaf hc (t.le_next (Cursor.le_refl c))

section
variable {inner : After base} (hinner : ∀ d h, (inner d h).LaysExpr text)
include hinner

/-- The items of a vector lie between its braces, and the span of the vector goes from brace to
brace. -/
theorem vector_lays (h : base ≤ c) : (vector inner c h).LaysExpr text := by
  intro hc s hs
  obtain ⟨opened, -, hs⟩ := bind_ok.1 hs
  obtain ⟨list, hlist, hs⟩ := bind_ok.1 hs
  obtain ⟨closed, -, hs⟩ := bind_ok.1 hs
  split at hs
  next =>
    cases hs
    have hitems : Laid text opened.next.offset list.next.offset (Expr.outlines list.value) := by
      rw [Expr.outlines_eq_map]
      exact items_lays hinner _ (opened.place hc) list (commit_ok.1 hlist)
    have hwhole : c ≤ closed.next := (opened.andThen (list.andThen closed)).le_next (Cursor.le_refl c)
    exact Laid.node (s := c.spanTo closed.next) (hitems.widen opened.offset_le closed.offset_le)
      (Cursor.within_spanTo hc hwhole)
  next => cases hs

/-- Parentheses widen the span of what stands in them, so its parts still lie inside. -/
theorem parenthesized_lays (h : base ≤ c) : (parenthesized inner c h).LaysExpr text := by
  intro hc s hs
  obtain ⟨opened, -, hs⟩ := bind_ok.1 hs
  obtain ⟨body, hbody, hs⟩ := bind_ok.1 hs
  obtain ⟨closed, -, hs⟩ := bind_ok.1 hs
  cases hs
  have hlaid := hinner _ _ (opened.place hc) body (commit_ok.1 hbody)
  -- The parentheses lie around the expression, whose parts lie inside its own span.
  have hstart := Nat.le_trans opened.offset_le hlaid.start_le
  have hstop := Nat.le_trans hlaid.stop_le closed.offset_le
  have hwhole : c ≤ closed.next := (opened.andThen (body.andThen closed)).le_next (Cursor.le_refl c)
  have hnode := Laid.node (s := c.spanTo closed.next) (hlaid.parts_laid.widen hstart hstop)
    (Cursor.within_spanTo hc hwhole)
  simp only [Step.map, Expr.outline_withSpan]
  exact hnode

theorem primary_lays (h : base ≤ c) : (primary inner c h).LaysExpr text := by
  intro hc s hs
  obtain ⟨t, ht, rfl⟩ := map_ok.1 hs
  have hspace := Cursor.skipSpace_place hc
  refine Laid.afterSpace ?_
  rcases orElse_ok (choice_ok.1 (expecting_ok.1 ht)) with ht | ht
  · exact atom_lays _ hspace t ht
  rcases orElse_ok ht with ht | ht
  · exact vector_lays hinner _ hspace t ht
  · exact parenthesized_lays hinner _ hspace t ht

/-! ### Calls and members -/

theorem arguments_lays (h : base < c) :
    (arguments inner c h).Lays text fun es => Expr.outlines es := by
  intro hc s hs
  obtain ⟨list, hlist, hs⟩ := bind_ok.1 hs
  obtain ⟨closed, -, hs⟩ := bind_ok.1 hs
  cases hs
  have hitems := optionalItems_laid hinner hc hlist
  rw [← Expr.outlines_eq_map] at hitems
  exact hitems.widen (Nat.le_refl _) closed.offset_le

/-- A call or member access starts where the expression starts that it follows, and ends where it was
read up to. Its arguments are laid out behind the expression. -/
theorem suffix_laid {a : Nat} {e : Expr} (he : Laid text a c.offset [e.outline])
    (hc : Cursor.ofString text ≤ c) {h : base ≤ c} {s : Step c Expr}
    (hs : suffix inner e c h = .ok (some s)) : Laid text a s.next.offset [s.value.outline] := by
  have hwithin := he.fitsWhole.within
  have hstart := he.start_le
  have hstop := he.stop_le
  rw [Expr.span_outline] at hwithin hstart hstop
  have hordered := hwithin.ordered
  unfold suffix at hs
  split at hs
  next opened _ =>
    split at hs
    next f span =>
      obtain ⟨args, hargs, hs⟩ := bind_ok.1 hs
      cases hs
      have hlaid := arguments_lays hinner _ (opened.place hc) args hargs
      have hplace := args.place (opened.place hc)
      have hbefore : span.start ≤ opened.next.offset :=
        Nat.le_trans (Nat.le_trans hordered hstop) opened.offset_le
      have hspan : (⟨span.start, args.next.offset⟩ : Span).Within text :=
        ⟨Nat.le_trans hbefore args.offset_le, Cursor.offset_le_size hplace, hwithin.startValid,
          Cursor.isValid_offset hplace⟩
      have hnode := Laid.node (s := ⟨span.start, args.next.offset⟩)
        (hlaid.widen hbefore (Nat.le_refl _)) hspan
      exact hnode.widen hstart (Nat.le_refl _)
    next => cases hs
  next =>
    split at hs
    next dot _ =>
      obtain ⟨field, -, hs⟩ := bind_ok.1 hs
      cases hs
      have hplace := field.place (dot.place hc)
      have hafter : e.span.stop ≤ field.next.offset :=
        Nat.le_trans hstop (Nat.le_trans dot.offset_le field.offset_le)
      have hspan : (⟨e.span.start, field.next.offset⟩ : Span).Within text :=
        ⟨Nat.le_trans hordered hafter, Cursor.offset_le_size hplace, hwithin.startValid,
          Cursor.isValid_offset hplace⟩
      have hself := he.self
      rw [Expr.span_outline] at hself
      have hnode := Laid.node (s := ⟨e.span.start, field.next.offset⟩)
        (hself.widen (Nat.le_refl _) hafter) hspan
      exact hnode.widen hstart (Nat.le_refl _)
    next => cases hs

/-- Each call and each member access lies around the expression that it follows and ends behind it,
by induction on the rest of the source. -/
theorem suffixes_laid {a : Nat} {e : Expr} (he : Laid text a c.offset [e.outline])
    (hc : Cursor.ofString text ≤ c) {h : base ≤ c} {r : Reach c Expr}
    (hr : suffixes inner e c h = .ok r) : Laid text a r.next.offset [r.value.outline] := by
  induction hn : c.rest.length using Nat.strong_induction_on generalizing e c with
  | _ n ih =>
    rw [suffixes] at hr
    obtain ⟨found, hfound, hr⟩ := bind_ok.1 hr
    cases found with
    | none => cases hr; exact he
    | some s =>
      obtain ⟨more, hmore, hr⟩ := bind_ok.1 hr
      cases hr
      have hlt : s.next.rest.length < n := hn ▸ Cursor.length_lt s.later
      have hlaid := suffix_laid hinner he hc hfound
      exact ih _ hlt (c := s.next) (r := more) hlaid (s.place hc) hmore rfl

theorem postfixed_lays (h : base ≤ c) : (postfixed inner c h).LaysExpr text := by
  intro hc s hs
  obtain ⟨first, hfirst, hs⟩ := bind_ok.1 hs
  obtain ⟨whole, hwhole, hs⟩ := bind_ok.1 hs
  cases hs
  have hlaid := primary_lays hinner _ hc first hfirst
  exact suffixes_laid hinner (r := whole) hlaid (first.place hc) hwhole

end

/-! ### Operators -/

/-- An operator before its operand, from the place where the operator starts. -/
theorem prefixed_laid {α : Type} (op : UnaryOp) (hc : Cursor.ofString text ≤ c) {mark : Step c α}
    {e : Expr} {b : Nat} (he : Laid text mark.next.offset b [e.outline])
    (hmark : (skipSpace c).offset ≤ mark.next.offset) :
    Laid text c.offset b [(Expr.unary op e ⟨(skipSpace c).offset, e.span.stop⟩).outline] := by
  have hwithin := he.fitsWhole.within
  have hstart := Nat.le_trans hmark he.start_le
  have hstop := he.stop_le
  have hself := he.self
  rw [Expr.span_outline] at hwithin hstart hstop hself
  have hspan : (⟨(skipSpace c).offset, e.span.stop⟩ : Span).Within text :=
    ⟨Nat.le_trans hstart hwithin.ordered, hwithin.stop_le,
      Cursor.isValid_offset (Cursor.skipSpace_place hc), hwithin.stopValid⟩
  have hnode := Laid.node (s := ⟨(skipSpace c).offset, e.span.stop⟩)
    (hself.widen hstart (Nat.le_refl _)) hspan
  exact (hnode.widen (Nat.le_refl _) hstop).afterSpace

theorem skipSpace_le_lexeme {α : Type} {read : (d : Cursor) → Reading (Step d α)} {s : Step c α}
    (h : lexeme read c = .ok s) : (skipSpace c).offset ≤ s.next.offset := by
  obtain ⟨t, -, -, hnext⟩ := lexeme_ok h
  rw [← hnext]
  exact t.offset_le

section
variable {inner : After base} (hinner : ∀ d h, (inner d h).LaysExpr text)
include hinner

/-- A negation begins at its sign and ends with its operand, and a power goes from its base to its
exponent. The induction is on the rest of the source. -/
theorem unary_lays (h : base ≤ c) : (unary inner c h).LaysExpr text := by
  induction hn : c.rest.length using Nat.strong_induction_on generalizing c with
  | _ n ih =>
    intro hc s hs
    rw [unary] at hs
    split at hs
    next minus hminus =>
      obtain ⟨operand, hoperand, hs⟩ := bind_ok.1 hs
      cases hs
      have hlaid := ih _ (hn ▸ Cursor.length_lt minus.later) _ rfl (minus.place hc) operand
        (commit_ok.1 hoperand)
      exact prefixed_laid .neg hc hlaid (skipSpace_le_lexeme hminus)
    next =>
      obtain ⟨first, hfirst, hs⟩ := bind_ok.1 hs
      have hlaid := postfixed_lays hinner _ hc first hfirst
      split at hs
      next => cases hs; exact hlaid
      next stars _ =>
        obtain ⟨exponent, hexponent, hs⟩ := bind_ok.1 hs
        cases hs
        have hlt := hn ▸ Cursor.length_lt (first.andThen stars).later
        have hexp := ih _ hlt _ rfl ((first.andThen stars).place hc) exponent
          (commit_ok.1 hexponent)
        exact hlaid.join .pow (hexp.widen stars.offset_le (Nat.le_refl _))

end

section
variable {operator : OperatorReader} {operand : From base}
  (hoperand : ∀ d h, (operand d h).LaysExpr text)
include hoperand

/-- Each further operand lies behind what stands to its left, and the span of the whole grows along,
by induction on the rest of the source. -/
theorem moreOperands_laid {a : Nat} {left : Expr} (hleft : Laid text a c.offset [left.outline])
    (hc : Cursor.ofString text ≤ c) {h : base ≤ c} {r : Reach c Expr}
    (hr : moreOperands operator operand left c h = .ok r) :
    Laid text a r.next.offset [r.value.outline] := by
  induction hn : c.rest.length using Nat.strong_induction_on generalizing left c with
  | _ n ih =>
    rw [moreOperands] at hr
    split at hr
    next => cases hr; exact hleft
    next op _ =>
      obtain ⟨right, hright, hr⟩ := bind_ok.1 hr
      obtain ⟨more, hmore, hr⟩ := bind_ok.1 hr
      cases hr
      have hlt : (op.andThen right).next.rest.length < n :=
        hn ▸ Cursor.length_lt (op.andThen right).later
      have hlaid := hoperand _ _ (op.place hc) right (commit_ok.1 hright)
      have hjoin := hleft.join op.value (hlaid.widen op.offset_le (Nat.le_refl _))
      exact ih _ hlt (r := more) hjoin ((op.andThen right).place hc) hmore rfl

theorem chain_lays (h : base ≤ c) : (chain operator operand c h).LaysExpr text := by
  intro hc s hs
  obtain ⟨first, hfirst, hs⟩ := bind_ok.1 hs
  obtain ⟨whole, hwhole, hs⟩ := bind_ok.1 hs
  cases hs
  have hlaid := hoperand _ _ hc first hfirst
  exact moreOperands_laid hoperand (r := whole) hlaid (first.place hc) hwhole

end

section
variable {inner : After base} (hinner : ∀ d h, (inner d h).LaysExpr text)
include hinner

theorem sum_lays (h : base ≤ c) : (sum inner c h).LaysExpr text :=
  chain_lays (fun _ h => chain_lays (fun _ h => unary_lays hinner h) h) h

/-- A comparison is laid out from its left sum to its right one, if it has one. -/
theorem comparison_lays (h : base ≤ c) : (comparison inner c h).LaysExpr text := by
  intro hc s hs
  obtain ⟨left, hleft, hs⟩ := bind_ok.1 hs
  have hlaid := sum_lays hinner _ hc left hleft
  split at hs
  next => cases hs; exact hlaid
  next op _ =>
    obtain ⟨right, hright, hs⟩ := bind_ok.1 hs
    cases hs
    have hr := sum_lays hinner _ ((left.andThen op).place hc) right (commit_ok.1 hright)
    exact hlaid.join op.value (hr.widen op.offset_le (Nat.le_refl _))

/-- Logical negation begins at its keyword and ends with its operand, by induction on the rest of the
source. -/
theorem negation_lays (h : base ≤ c) : (negation inner c h).LaysExpr text := by
  induction hn : c.rest.length using Nat.strong_induction_on generalizing c with
  | _ n ih =>
    intro hc s hs
    rw [negation] at hs
    split at hs
    next word hword =>
      obtain ⟨operand, hoperand, hs⟩ := bind_ok.1 hs
      cases hs
      have hlaid := ih _ (hn ▸ Cursor.length_lt word.later) _ rfl (word.place hc) operand
        (commit_ok.1 hoperand)
      exact prefixed_laid .not hc hlaid (skipSpace_le_lexeme hword)
    next =>
      obtain ⟨t, ht, rfl⟩ := map_ok.1 hs
      exact (comparison_lays hinner _ (Cursor.skipSpace_place hc) t ht).afterSpace

end

/-- Every expression is laid out where it is read. -/
theorem expression_lays (c : Cursor) : (expression c).LaysExpr text := by
  induction hn : c.rest.length using Nat.strong_induction_on generalizing c with
  | _ n ih =>
    rw [expression]
    have hinner : ∀ d (_ : c < d), (expression d).LaysExpr text := fun d h =>
      ih _ (hn ▸ Cursor.length_lt h) d rfl
    exact chain_lays (fun _ h => chain_lays (fun _ h => negation_lays hinner h) h) _

end Expression

/-! ### Statements -/

namespace Statement

open Token Expression Reading

theorem target_lays (c : Cursor) : (target c).Lays text fun t => [t.outline] := by
  intro hc s hs
  obtain ⟨word, hword, hs⟩ := bind_ok.1 hs
  cases hs
  obtain ⟨t, -, -, hnext⟩ := lexeme_ok hword
  have hspace := Cursor.skipSpace_place hc
  have hle : skipSpace c ≤ word.next := hnext ▸ t.le_next (Cursor.le_refl _)
  have hleaf := (Laid.leaf hspace hle).afterSpace
  simp only [Step.map]
  split <;> exact hleaf

/-- The parts of a statement, whose own span is not known yet, are laid out where they are read. -/
def LaysStmt (text : String) (r : Reading (Step c (Span → Stmt))) : Prop :=
  Cursor.ofString text ≤ c → ∀ s, r = .ok s → ∃ parts, Laid text c.offset s.next.offset parts ∧
    ∀ span, (s.value span).outline = .node span parts

/-- The targets of an assignment lie one behind the other, and the value behind them. -/
theorem assignment_lays (c : Cursor) : LaysStmt text (assignment c) := by
  intro hc s hs
  obtain ⟨first, hfirst, hs⟩ := bind_ok.1 hs
  obtain ⟨more, hmore, hs⟩ := bind_ok.1 hs
  obtain ⟨mark, -, hs⟩ := bind_ok.1 hs
  obtain ⟨value, hvalue, hs⟩ := bind_ok.1 hs
  cases hs
  have hmoreAt := more.place (first.place hc)
  have hf := target_lays _ hc first hfirst
  have hm := moreItems_laid (fun d _ => target_lays d) (first.place hc) hmore
  have hv := expression_lays _ (mark.place hmoreAt) value (commit_ok.1 hvalue)
  have htargets := hf.cons hm first.offset_le more.offset_le
  refine ⟨_, htargets.append (hv.widen mark.offset_le (Nat.le_refl _)) ?_ ?_, fun _ => rfl⟩
  · exact Nat.le_trans first.offset_le more.offset_le
  · exact Nat.le_trans mark.offset_le value.offset_le

/-- The value of an assignment to a component lies behind the mark, inside the statement. -/
theorem fieldAssignment_lays (c : Cursor) : LaysStmt text (fieldAssignment c) := by
  intro hc s hs
  obtain ⟨object, -, hs⟩ := bind_ok.1 hs
  obtain ⟨dot, -, hs⟩ := bind_ok.1 hs
  obtain ⟨field, -, hs⟩ := bind_ok.1 hs
  obtain ⟨mark, -, hs⟩ := bind_ok.1 hs
  obtain ⟨value, hvalue, hs⟩ := bind_ok.1 hs
  cases hs
  let head := object.andThen (dot.andThen (field.andThen mark))
  have hv := expression_lays _ (head.place hc) value (commit_ok.1 hvalue)
  exact ⟨_, hv.widen head.offset_le (Nat.le_refl _), fun _ => rfl⟩

/-- The parts of a simple statement lie before its semicolon, in each of its three forms. -/
theorem simple_lays (c : Cursor) : LaysStmt text (simple c) := by
  intro hc s hs
  obtain ⟨body, hbody, hs⟩ := bind_ok.1 hs
  obtain ⟨mark, -, hs⟩ := bind_ok.1 hs
  cases hs
  have hlaid : ∃ parts, Laid text c.offset body.next.offset parts ∧
      ∀ span, (body.value span).outline = .node span parts := by
    rcases orElse_ok (choice_ok.1 hbody) with hbody | hbody
    · exact assignment_lays _ hc body hbody
    rcases orElse_ok hbody with hbody | hbody
    · exact fieldAssignment_lays _ hc body hbody
    · obtain ⟨e, he, rfl⟩ := map_ok.1 hbody
      exact ⟨_, expression_lays _ hc e he, fun _ => rfl⟩
  obtain ⟨parts, hparts, houtline⟩ := hlaid
  exact ⟨parts, hparts.widen (Nat.le_refl _) mark.offset_le, houtline⟩

/-! ### Definitions -/

/-- The default of a parameter is laid out where it is read. -/
theorem preset_laid (hc : Cursor.ofString text ≤ c) {r : Reach c (Option Expr)}
    (hr : (defaultValue c).optional = .ok r) :
    Laid text c.offset r.next.offset (r.value.toList.map Expr.outline) := by
  rcases optional_cases hr with rfl | ⟨t, ht, rfl⟩
  · exact .nil
  · obtain ⟨mark, -, ht⟩ := bind_ok.1 ht
    obtain ⟨value, hvalue, ht⟩ := bind_ok.1 ht
    cases ht
    have hv := expression_lays _ (mark.place hc) value (commit_ok.1 hvalue)
    exact hv.widen mark.offset_le (Nat.le_refl _)

/-- The default of a parameter lies inside it, behind the type. A parameter without one has no part
that has a place. -/
theorem parameter_lays (c : Cursor) : (parameter c).Lays text fun p => [p.outline] := by
  intro hc s hs
  obtain ⟨t, ht, rfl⟩ := map_ok.1 hs
  obtain ⟨word, -, ht⟩ := bind_ok.1 ht
  obtain ⟨colon, -, ht⟩ := bind_ok.1 ht
  obtain ⟨type, -, ht⟩ := bind_ok.1 ht
  obtain ⟨preset, hpreset, ht⟩ := bind_ok.1 ht
  cases ht
  have hspace := Cursor.skipSpace_place hc
  let head := word.andThen (colon.andThen type)
  have hparts := preset_laid (head.place hspace) hpreset
  have hwhole : skipSpace c ≤ preset.next := (head.extend preset).le_next (Cursor.le_refl _)
  exact (Laid.node (s := (skipSpace c).spanTo preset.next)
    (hparts.widen head.offset_le (Nat.le_refl _)) (Cursor.within_spanTo hspace hwhole)).afterSpace

theorem outputs_lays (c : Cursor) : (outputs c).Lays text fun ps => ps.map Param.outline := by
  intro hc s hs
  obtain ⟨arrow, -, hs⟩ := bind_ok.1 hs
  obtain ⟨list, hlist, hs⟩ := bind_ok.1 hs
  cases hs
  have hitems := items_lays (fun d _ => parameter_lays d) _ (arrow.place hc) list
    (commit_ok.1 hlist)
  exact hitems.widen arrow.offset_le (Nat.le_refl _)

theorem results_laid (hc : Cursor.ofString text ≤ c) {r : Reach c (Option (List Param))}
    (hr : (outputs c).optional = .ok r) :
    Laid text c.offset r.next.offset ((r.value.getD []).map Param.outline) := by
  rcases optional_cases hr with rfl | ⟨t, ht, rfl⟩
  · exact .nil
  · exact outputs_lays _ hc t ht

/-! ### Blocks -/

section
variable {inner : StmtAfter base} (hinner : ∀ d h, (inner d h).Lays text fun st => [st.outline])
include hinner

/-- The statements of a block lie one behind the other, by induction on the rest of the source. -/
theorem statements_laid (hc : Cursor.ofString text ≤ c) {h : base < c} {r : Reach c (List Stmt)}
    (hr : statements inner c h = .ok r) :
    Laid text c.offset r.next.offset (Stmt.outlines r.value) := by
  induction hn : c.rest.length using Nat.strong_induction_on generalizing c with
  | _ n ih =>
    rw [statements] at hr
    split at hr
    next =>
      split at hr
      next => cases hr
      next => cases hr; exact .nil
    next first hfirst =>
      obtain ⟨more, hmore, hr⟩ := bind_ok.1 hr
      cases hr
      have hlt := hn ▸ Cursor.length_lt first.later
      have hrest := ih _ hlt (first.place hc) hmore rfl
      exact (hinner _ _ hc first hfirst).cons hrest first.offset_le more.offset_le

theorem block_lays (h : base ≤ c) : (block inner c h).Lays text Stmt.outlines := by
  intro hc s hs
  obtain ⟨opened, -, hs⟩ := bind_ok.1 hs
  obtain ⟨body, hbody, hs⟩ := bind_ok.1 hs
  obtain ⟨closed, -, hs⟩ := bind_ok.1 hs
  cases hs
  exact (statements_laid hinner (opened.place hc) hbody).widen opened.offset_le closed.offset_le

/-- The inputs of a definition, its outputs and the statements of its body lie one behind the other,
since each is read from the cursor that the one before has left. -/
theorem definition_lays (h : base ≤ c) : LaysStmt text (definition inner c h) := by
  intro hc s hs
  obtain ⟨kind, -, hs⟩ := bind_ok.1 hs
  obtain ⟨word, -, hs⟩ := bind_ok.1 hs
  obtain ⟨opened, -, hs⟩ := bind_ok.1 hs
  obtain ⟨params, hparams, hs⟩ := bind_ok.1 hs
  obtain ⟨closed, -, hs⟩ := bind_ok.1 hs
  obtain ⟨results, hresults, hs⟩ := bind_ok.1 hs
  obtain ⟨body, hbody, hs⟩ := bind_ok.1 hs
  cases hs
  let front := kind.andThen (word.andThen opened)
  have hparamsAt := front.place hc
  have hclosedAt := closed.place (params.place hparamsAt)
  have hresultsAt := results.place hclosedAt
  have hi := optionalItems_laid (fun d _ => parameter_lays d) hparamsAt hparams
  have ho := results_laid hclosedAt hresults
  have hb := block_lays hinner _ hresultsAt body (commit_ok.1 hbody)
  have h₁ : c.offset ≤ front.next.offset := front.offset_le
  have h₂ : front.next.offset ≤ params.next.offset := params.offset_le
  have h₃ := closed.offset_le
  have h₄ := results.offset_le
  have h₅ : results.next.offset ≤ body.next.offset := body.offset_le
  have hio := (hi.widen h₁ h₃).append ho (by omega) h₄
  exact ⟨_, hio.append hb (by omega) h₅, fun _ => rfl⟩

/-! ### Loops and repeat zones -/

/-- The statements of a loop lie behind its bounds, inside the loop, and one behind the other. -/
theorem loop_lays (h : base ≤ c) : LaysStmt text (loop inner c h) := by
  intro hc s hs
  obtain ⟨word, -, hs⟩ := bind_ok.1 hs
  obtain ⟨index, -, hs⟩ := bind_ok.1 hs
  obtain ⟨first, -, hs⟩ := bind_ok.1 hs
  obtain ⟨arrow, -, hs⟩ := bind_ok.1 hs
  obtain ⟨last, -, hs⟩ := bind_ok.1 hs
  obtain ⟨body, hbody, hs⟩ := bind_ok.1 hs
  cases hs
  let head := (word.extend index).andThen (first.andThen (arrow.andThen last))
  have hb := block_lays hinner _ (head.place hc) body (commit_ok.1 hbody)
  exact ⟨_, hb.widen head.offset_le (Nat.le_refl _), fun _ => rfl⟩

/-- The count of a repeat zone lies before its statements, and both lie inside the zone. -/
theorem zone_lays (h : base ≤ c) : LaysStmt text (zone inner c h) := by
  intro hc s hs
  obtain ⟨word, -, hs⟩ := bind_ok.1 hs
  obtain ⟨count, hcount, hs⟩ := bind_ok.1 hs
  obtain ⟨body, hbody, hs⟩ := bind_ok.1 hs
  cases hs
  let head := word.andThen count
  have hn := expression_lays _ (word.place hc) count (commit_ok.1 hcount)
  have hb := block_lays hinner _ (head.place hc) body (commit_ok.1 hbody)
  exact ⟨_, (hn.widen word.offset_le (Nat.le_refl _)).cons hb head.offset_le body.offset_le,
    fun _ => rfl⟩

/-! ### Programs -/

/-- The span of a statement goes from where it starts to where it ends, whichever kind of statement
it is, and its parts lie inside. -/
theorem statementHere_lays (h : base ≤ c) :
    (statementHere inner c h).Lays text fun st => [st.outline] := by
  intro hc s hs
  obtain ⟨body, hbody, hs⟩ := bind_ok.1 hs
  cases hs
  have hlaid : ∃ parts, Laid text c.offset body.next.offset parts ∧
      ∀ span, (body.value span).outline = .node span parts := by
    rcases orElse_ok (choice_ok.1 hbody) with hbody | hbody
    · exact definition_lays hinner _ hc body hbody
    rcases orElse_ok hbody with hbody | hbody
    · exact loop_lays hinner _ hc body hbody
    rcases orElse_ok hbody with hbody | hbody
    · exact zone_lays hinner _ hc body hbody
    · exact simple_lays _ hc body hbody
  obtain ⟨parts, hparts, houtline⟩ := hlaid
  have hwhole : c ≤ body.next := body.le_next (Cursor.le_refl c)
  have hnode := Laid.node (s := c.spanTo body.next) hparts (Cursor.within_spanTo hc hwhole)
  simp only [Step.map, houtline]
  exact hnode

end

/-- A statement is laid out from the cursor behind the space to its end, by induction on the rest of
the source. -/
theorem statement_lays (c : Cursor) : (statement c).Lays text fun st => [st.outline] := by
  induction hn : c.rest.length using Nat.strong_induction_on generalizing c with
  | _ n ih =>
    intro hc s hs
    rw [statement] at hs
    have hinner : ∀ d (_ : c < d), (statement d).Lays text fun st => [st.outline] :=
      fun d h => ih _ (hn ▸ Cursor.length_lt h) d rfl
    obtain ⟨t, ht, rfl⟩ := map_ok.1 hs
    exact (statementHere_lays hinner _ (Cursor.skipSpace_place hc) t ht).afterSpace

/-- All statements of a source lie one behind the other, by induction on the rest of the source. -/
theorem allStatements_laid (hc : Cursor.ofString text ≤ c) {r : Reach c (List Stmt)}
    (hr : allStatements c = .ok r) :
    Laid text c.offset r.next.offset (Stmt.outlines r.value) := by
  induction hn : c.rest.length using Nat.strong_induction_on generalizing c with
  | _ n ih =>
    rw [allStatements] at hr
    split at hr
    next =>
      split at hr
      next => cases hr
      next => cases hr; exact .nil
    next first hfirst =>
      obtain ⟨more, hmore, hr⟩ := bind_ok.1 hr
      cases hr
      have hlt := hn ▸ Cursor.length_lt first.later
      have hrest := ih _ hlt (first.place hc) hmore rfl
      exact (statement_lays _ hc first hfirst).cons hrest first.offset_le more.offset_le

end Statement

/-- The statements of a parsed program are laid out in its text, one behind the other from its start
to its end, each with its parts inside. -/
theorem Program.laid_of_parse {p : Program} (h : Program.parse text = .ok p) :
    Laid text 0 text.utf8ByteSize p.outlines := by
  unfold Program.parse at h
  cases hp : Statement.program (Cursor.ofString text) with
  | error f =>
    rw [hp] at h
    cases h
  | ok q =>
    rw [hp] at h
    cases h
    obtain ⟨body, hbody, hp⟩ := Reading.bind_ok.1 hp
    have hstart := Cursor.le_refl (Cursor.ofString text)
    split at hp
    next =>
      cases hp
      have hlaid := Statement.allStatements_laid hstart hbody
      exact hlaid.widen (Nat.le_refl 0) (Cursor.offset_le_size (body.place hstart))
    next => cases hp

end NodeFormula

import NodeFormula.Formula.Statement

/-!
# Outlines

An outline is what a syntax tree says about places: the span of each node and the outlines of its parts,
in source order. An outline fits a text (`Outline.Fits`) where its span is one of the text and the spans
of its parts lie inside it, one behind the other. `Laid` says this of outlines that are read one after
the other between two offsets.
-/

namespace NodeFormula

/-- A span of a text: its ends are in order and stand on character boundaries. -/
structure Span.Within (text : String) (s : Span) : Prop where
  ordered : s.start ≤ s.stop
  stop_le : s.stop ≤ text.utf8ByteSize
  startValid : String.Pos.Raw.IsValid text ⟨s.start⟩
  stopValid : String.Pos.Raw.IsValid text ⟨s.stop⟩

/-! ### Places of a text -/

theorem utf8Length_pos {cs : List Char} (h : cs ≠ []) : 0 < utf8Length cs := by
  obtain ⟨c, cs, rfl⟩ := List.exists_cons_of_ne_nil h
  exact Nat.add_pos_left c.utf8Size_pos _

namespace Cursor

variable {text : String} {c d : Cursor}

theorem offset_le (h : c ≤ d) : c.offset ≤ d.offset := by
  obtain ⟨s, -, ho⟩ := h
  omega

/-- Reading on from a cursor, an offset is reached at one cursor only, since every character has at
least one byte. So an offset tells where reading has come to. -/
theorem eq_of_offset_eq {a b : Cursor} (ha : c ≤ a) (hb : c ≤ b) (h : a.offset = b.offset) :
    a = b := by
  obtain ⟨s, hs, hsa⟩ := ha
  obtain ⟨t, ht, htb⟩ := hb
  have hnil : ∀ {u : List Char}, utf8Length u = 0 → u = [] := fun {u} hu =>
    Decidable.byContradiction fun hne => absurd hu (Nat.ne_of_gt (utf8Length_pos hne))
  have hrest : a.rest = b.rest := by
    rcases List.append_eq_append_iff.1 (hs.symm.trans ht) with ⟨u, rfl, hu⟩ | ⟨u, rfl, hu⟩
    · rw [utf8Length_append] at htb
      rw [hu, hnil (u := u) (by omega), List.nil_append]
    · rw [utf8Length_append] at hsa
      rw [hu, hnil (u := u) (by omega), List.nil_append]
  cases a
  cases b
  cases h
  cases hrest
  rfl

/-- A cursor that is reached from the start of a text stands between two of its characters. -/
theorem isValid_offset (h : ofString text ≤ c) : String.Pos.Raw.IsValid text ⟨c.offset⟩ := by
  obtain ⟨s, hs, ho⟩ := h
  refine String.Pos.Raw.isValid_iff_exists_append.2 ⟨String.ofList s, String.ofList c.rest, ?_, ?_⟩
  · rw [← String.ofList_append, ← hs]
    exact String.ofList_toList.symm
  · rw [String.Pos.Raw.ext_iff, ho, utf8Length_eq_utf8ByteSize_ofList]
    exact Nat.zero_add _

theorem offset_le_size (h : ofString text ≤ c) : c.offset ≤ text.utf8ByteSize := by
  obtain ⟨s, hs, ho⟩ := h
  have hsize : utf8Length text.toList = utf8Length (s ++ c.rest) := congrArg utf8Length hs
  rw [utf8Length_toList, utf8Length_append] at hsize
  have hstart : (ofString text).offset = 0 := rfl
  omega

theorem within_spanTo (hc : ofString text ≤ c) (h : c ≤ d) : (c.spanTo d).Within text :=
  ⟨offset_le h, offset_le_size (Cursor.le_trans hc h), isValid_offset hc,
    isValid_offset (Cursor.le_trans hc h)⟩

end Cursor

/-! ### Outlines of syntax trees -/

/-- The span of a syntax tree and the outlines of its parts. -/
inductive Outline where
  | node (span : Span) (parts : List Outline)

namespace Outline

/-- The span of the whole. -/
def span : Outline → Span
  | node s _ => s

/-- The outlines of the parts. -/
def parts : Outline → List Outline
  | node _ ps => ps

/-- Every outline in a whole, itself included, satisfies `P`. -/
inductive All (P : Outline → Prop) : Outline → Prop where
  | node {o : Outline} : P o → (∀ p ∈ o.parts, All P p) → All P o

/-- One part ends before another starts. -/
def Before (o o' : Outline) : Prop := o.span.stop ≤ o'.span.start

/-- An outline lies inside a span. -/
def Inside (s : Span) (o : Outline) : Prop := s.start ≤ o.span.start ∧ o.span.stop ≤ s.stop

/-- The span of an outline is one of a text, and its parts lie inside it, one behind the other. -/
structure Fits (text : String) (o : Outline) : Prop where
  within : o.span.Within text
  inside : ∀ p ∈ o.parts, p.Inside o.span
  ordered : o.parts.Pairwise Before

theorem All.imp {P Q : Outline → Prop} (hPQ : ∀ o, P o → Q o) {o : Outline} (h : o.All P) :
    o.All Q := by
  induction h with
  | node h _ ih => exact .node (hPQ _ h) ih

end Outline

mutual

/-- The outline of an expression. -/
def Expr.outline : Expr → Outline
  | .int _ s => .node s []
  | .float _ s => .node s []
  | .bool _ s => .node s []
  | .str _ s => .node s []
  | .name _ s => .node s []
  | .vector items s => .node s (outlines items)
  | .unary _ e s => .node s [e.outline]
  | .binary _ l r s => .node s [l.outline, r.outline]
  | .call _ args s => .node s (outlines args)
  | .member e _ s => .node s [e.outline]

/-- The outlines of expressions. -/
def Expr.outlines : List Expr → List Outline
  | [] => []
  | e :: es => e.outline :: outlines es

end

/-- The outline of a target. -/
def Target.outline (t : Target) : Outline := .node t.span []

/-- The outline of a parameter, with its default as its part. -/
def Param.outline (p : Param) : Outline := .node p.span (p.default.toList.map Expr.outline)

/-- The outlines of the parameters of a definition. -/
def Header.outlines (h : Header) : List Outline :=
  h.inputs.map Param.outline ++ h.outputs.map Param.outline

mutual

/-- The outline of a statement. -/
def Stmt.outline : Stmt → Outline
  | .expr e s => .node s [e.outline]
  | .assign targets e s => .node s (targets.map Target.outline ++ [e.outline])
  | .setField _ _ e s => .node s [e.outline]
  | .loop _ _ _ body s => .node s (outlines body)
  | .zone count body s => .node s (count.outline :: outlines body)
  | .define h body s => .node s (h.outlines ++ outlines body)

/-- The outlines of statements. -/
def Stmt.outlines : List Stmt → List Outline
  | [] => []
  | s :: ss => s.outline :: outlines ss

end

/-- The outlines of the statements of a program. -/
def Program.outlines (p : Program) : List Outline := Stmt.outlines p.items

@[simp] theorem Expr.span_outline (e : Expr) : e.outline.span = e.span := by
  cases e <;> rfl

@[simp] theorem Stmt.span_outline (s : Stmt) : s.outline.span = s.span := by
  cases s <;> rfl

theorem Expr.outlines_eq_map (es : List Expr) : outlines es = es.map outline := by
  induction es with
  | nil => rfl
  | cons e es ih => rw [outlines, ih, List.map_cons]

/-- An expression at another place has the same parts. -/
theorem Expr.outline_withSpan (e : Expr) (s : Span) :
    (e.withSpan s).outline = .node s e.outline.parts := by
  cases e <;> rfl

/-! ### Outlines one behind the other -/

/-- Outlines that fit a text and lie one behind the other between two offsets. -/
structure Laid (text : String) (a b : Nat) (parts : List Outline) : Prop where
  fits : ∀ o ∈ parts, o.All (Outline.Fits text)
  ordered : parts.Pairwise Outline.Before
  inside : ∀ o ∈ parts, o.Inside ⟨a, b⟩

namespace Laid

variable {text : String} {a a' b b' k : Nat} {parts more : List Outline} {o : Outline}

theorem nil : Laid text a b [] := ⟨List.forall_mem_nil _, .nil, List.forall_mem_nil _⟩

/-- What is laid out between two offsets is laid out between offsets further apart. -/
theorem widen (h : Laid text a b parts) (ha : a' ≤ a) (hb : b ≤ b') : Laid text a' b' parts :=
  ⟨h.fits, h.ordered, fun o ho =>
    ⟨Nat.le_trans ha (h.inside o ho).1, Nat.le_trans (h.inside o ho).2 hb⟩⟩

/-- Outlines that are laid out up to an offset and others from there on are laid out one behind the
other. -/
theorem append (h : Laid text a k parts) (h' : Laid text k b more) (ha : a ≤ k) (hb : k ≤ b) :
    Laid text a b (parts ++ more) where
  fits := List.forall_mem_append.2 ⟨h.fits, h'.fits⟩
  ordered := List.pairwise_append.2 ⟨h.ordered, h'.ordered, fun o ho o' ho' =>
    Nat.le_trans (h.inside o ho).2 (h'.inside o' ho').1⟩
  inside := List.forall_mem_append.2 ⟨(h.widen (Nat.le_refl a) hb).inside,
    (h'.widen ha (Nat.le_refl b)).inside⟩

/-- One outline in front of others that are laid out from its end on. -/
theorem cons (h : Laid text a k [o]) (h' : Laid text k b more) (ha : a ≤ k) (hb : k ≤ b) :
    Laid text a b (o :: more) :=
  h.append h' ha hb

/-- A whole around parts that lie one behind the other inside its span. -/
theorem node {s : Span} (h : Laid text s.start s.stop parts) (hs : s.Within text) :
    Laid text s.start s.stop [.node s parts] where
  fits := List.forall_mem_singleton.2 (.node ⟨hs, h.inside, h.ordered⟩ h.fits)
  ordered := List.pairwise_singleton ..
  inside := List.forall_mem_singleton.2 ⟨Nat.le_refl _, Nat.le_refl _⟩

/-- A single outline that is laid out fits the text throughout. -/
theorem all (h : Laid text a b [o]) : o.All (Outline.Fits text) := h.fits o (.head _)

theorem start_le (h : Laid text a b [o]) : a ≤ o.span.start := (h.inside o (.head _)).1

theorem stop_le (h : Laid text a b [o]) : o.span.stop ≤ b := (h.inside o (.head _)).2

/-- The outline of a whole fits the text. -/
theorem fitsWhole (h : Laid text a b [o]) : o.Fits text := by
  cases h.all with
  | node hfits _ => exact hfits

/-- The parts of a whole lie inside its span. -/
theorem parts_laid (h : Laid text a b [o]) : Laid text o.span.start o.span.stop o.parts := by
  cases h.all with
  | node hfits hparts => exact ⟨hparts, hfits.ordered, hfits.inside⟩

/-- The outline itself spans all that it needs. -/
theorem self (h : Laid text a b [o]) : Laid text o.span.start o.span.stop [o] :=
  ⟨h.fits, h.ordered, List.forall_mem_singleton.2 ⟨Nat.le_refl _, Nat.le_refl _⟩⟩

/-- Two operands joined by an operator are laid out as one expression, from where the left one starts
to where the right one ends. -/
theorem join {l r : Expr} (op : BinaryOp) (hl : Laid text a k [l.outline])
    (hr : Laid text k b [r.outline]) : Laid text a b [(Expr.join op l r).outline] := by
  have hls := hl.fitsWhole.within
  have hrs := hr.fitsWhole.within
  have h₁ := hl.start_le
  have h₂ := hl.stop_le
  have h₃ := hr.start_le
  have h₄ := hr.stop_le
  rw [Expr.span_outline] at hls hrs h₁ h₂ h₃ h₄
  have h₅ := hls.ordered
  have h₆ := hrs.ordered
  -- The left operand ends before the right one starts, so the span that covers both goes from the
  -- start of the left one to the end of the right one.
  have hspan : l.span.join r.span = ⟨l.span.start, r.span.stop⟩ := by
    rw [Span.join, Nat.min_eq_left (by omega), Nat.max_eq_right (by omega)]
  have hparts : Laid text l.span.start r.span.stop [l.outline, r.outline] := by
    have hl' := hl.self
    have hr' := hr.self
    rw [Expr.span_outline] at hl' hr'
    exact hl'.cons (hr'.widen (by omega) (Nat.le_refl _)) h₅ (by omega)
  have hwithin : (⟨l.span.start, r.span.stop⟩ : Span).Within text :=
    ⟨by change l.span.start ≤ r.span.stop; omega, hrs.stop_le, hls.startValid, hrs.stopValid⟩
  have hnode := hparts.node hwithin
  rw [Expr.join, hspan]
  exact hnode.widen h₁ h₄

end Laid

end NodeFormula

import NodeFormula.Compilation
import NodeFormula.Proofs.Spans.Failing
import NodeFormula.Proofs.Spans.Reading

/-!
# Where errors are found

Type checking notes errors at spans of the program it checks and nowhere else (`Check.Placed`). Together
with what the readers say about places, this makes the spans of all diagnostics spans of the file that
they name (`Compilation.spans_sound`).
-/

namespace NodeFormula

/-- All errors so far are at spans that satisfy `S`. -/
def Checker.ErrorsAt (S : Span → Prop) (s : Checker) : Prop := ∀ e ∈ s.errors, S e.span

/-- All spans of an outline satisfy `S`. -/
abbrev Outline.SpansIn (S : Span → Prop) (o : Outline) : Prop := o.All fun p => S p.span

theorem Outline.all_node {P : Outline → Prop} {s : Span} {parts : List Outline} :
    (Outline.node s parts).All P ↔ P (.node s parts) ∧ ∀ p ∈ parts, p.All P :=
  ⟨fun h => by cases h with | node h hparts => exact ⟨h, hparts⟩, fun h => .node h.1 h.2⟩

/-- What holds of every outline in a whole holds of the whole. -/
theorem Outline.All.whole {P : Outline → Prop} {o : Outline} (h : o.All P) : P o := by
  cases h with
  | node h _ => exact h

namespace Check

open Checker (ErrorsAt)

/-- A step notes errors and fails at spans that satisfy `S` only, and what it gives satisfies `Q`. -/
structure Placed {α : Type} (S : Span → Prop) (Q : α → Prop) (x : Check α) : Prop where
  ok : ∀ {s a s'}, ErrorsAt S s → x s = .ok a s' → Q a ∧ ErrorsAt S s'
  error : ∀ {s e s'}, ErrorsAt S s → x s = .error e s' → S e.span ∧ ErrorsAt S s'

/-- A step notes errors and fails at spans that satisfy `S` only. -/
abbrev PlacedAny {α : Type} (S : Span → Prop) (x : Check α) : Prop := Placed S (fun _ => True) x

variable {α β : Type} {S : Span → Prop} {Q : α → Prop} {R : β → Prop}

namespace Placed

theorem pure {a : α} (ha : Q a) : Placed S Q (pure a : Check α) :=
  ⟨fun hs h => by cases h; exact ⟨ha, hs⟩, fun _ h => by cases h⟩

/-- Reading the session notes no error. -/
theorem get : PlacedAny S (get : Check Checker) :=
  ⟨fun hs h => by cases h; exact ⟨trivial, hs⟩, fun _ h => by cases h⟩

/-- A step that fails does so at the span that it is given, so it is enough that this span is a good
one. -/
theorem fail {problem : Problem} {span : Span} (h : S span) :
    Placed S Q (fail problem span : Check α) := by
  refine ⟨fun _ h' => ?_, fun hs h' => ?_⟩
  · cases h'
  · cases h'
    exact ⟨h, hs⟩

theorem require {o : Option α} {problem : Problem} {span : Span} (h : S span) :
    PlacedAny S (require o problem span) := by
  cases o with
  | none => exact fail h
  | some a => exact pure trivial

/-- A change of the state that keeps the errors. -/
theorem modify {f : Checker → Checker} (he : ∀ s, (f s).errors = s.errors) :
    PlacedAny S (modify f : Check PUnit) := by
  refine ⟨fun {s} _ _ hs h => ?_, fun _ h => by cases h⟩
  cases h
  refine ⟨trivial, fun e he' => hs e ?_⟩
  rw [← he s]
  exact he'

/-- Noting an error at a good span leaves all errors at good spans. -/
theorem report {e : TypeError} (h : S e.span) : PlacedAny S (report e) := by
  refine ⟨fun hs h' => ?_, fun _ h' => by cases h'⟩
  cases h'
  exact ⟨trivial, List.forall_mem_append.2 ⟨hs, List.forall_mem_singleton.2 h⟩⟩

/-- Two steps in a row. The second may rely on what the first says about its value, which is how the
spans of typed expressions are passed on. -/
theorem bind {x : Check α} {f : α → Check β} (hx : Placed S Q x) (hf : ∀ a, Q a → Placed S R (f a)) :
    Placed S R (x >>= f) := by
  have hrun : ∀ s, (x >>= f) s = EStateM.bind x f s := fun _ => rfl
  constructor
  · intro s b s' hs h
    rw [hrun, EStateM.bind] at h
    cases hxs : x s with
    | ok a s₁ =>
      rw [hxs] at h
      obtain ⟨ha, hs₁⟩ := hx.ok hs hxs
      exact (hf a ha).ok hs₁ h
    | error e s₁ =>
      rw [hxs] at h
      cases h
  · intro s e s' hs h
    rw [hrun, EStateM.bind] at h
    cases hxs : x s with
    | ok a s₁ =>
      rw [hxs] at h
      obtain ⟨ha, hs₁⟩ := hx.ok hs hxs
      exact (hf a ha).error hs₁ h
    | error e' s₁ =>
      rw [hxs] at h
      cases h
      exact hx.error hs hxs

/-- A step whose value does not matter, and another. -/
theorem andThen {x : Check α} {f : α → Check β} (hx : PlacedAny S x) (hf : ∀ a, Placed S R (f a)) :
    Placed S R (x >>= f) :=
  hx.bind fun a _ => hf a

/-- What a step says about its value may be forgotten. -/
theorem any {x : Check α} (hx : Placed S Q x) : PlacedAny S x :=
  ⟨fun hs h => ⟨trivial, (hx.ok hs h).2⟩, hx.error⟩

/-- A choice between two steps, whatever decides it. -/
theorem ite {c : Prop} [Decidable c] {x y : Check α} (hx : Placed S Q x) (hy : Placed S Q y) :
    Placed S Q (if c then x else y) := by
  split
  · exact hx
  · exact hy

/-- A check that may fail before the rest of a step. -/
theorem guarded {c : Prop} [Decidable c] {problem : Problem} {span : Span} {x : Check α}
    (h : S span) (hx : Placed S Q x) :
    Placed S Q (if c then (Check.fail problem span : Check PUnit) >>= fun _ => x else x) :=
  .ite (.bind (.fail (Q := fun _ => True) h) fun _ _ => hx) hx

/-- A statement that fails has its error noted at the span where it failed. -/
theorem recover {x : Check (List TypedStmt)} (hx : PlacedAny S x) : PlacedAny S (recover x) := by
  constructor
  · intro s a s' hs h
    unfold Check.recover at h
    cases hxs : x s with
    | ok b s₁ =>
      rw [hxs] at h
      cases h
      exact ⟨trivial, (hx.ok hs hxs).2⟩
    | error e s₁ =>
      rw [hxs] at h
      cases h
      obtain ⟨he, hs₁⟩ := hx.error hs hxs
      exact ⟨trivial, List.forall_mem_append.2 ⟨hs₁, List.forall_mem_singleton.2 he⟩⟩
  · intro s e s' hs h
    unfold Check.recover at h
    cases hxs : x s with
    | ok b s₁ => rw [hxs] at h; cases h
    | error e s₁ => rw [hxs] at h; cases h

/-- A step that starts by changing the state, where the change keeps the errors. -/
theorem getSet {g : Checker → Checker} {x : Checker → Check α}
    (he : ∀ s, (g s).errors = s.errors) (hx : ∀ s, Placed S Q (x s)) :
    Placed S Q (MonadState.get >>= fun s => set (g s) >>= fun (_ : PUnit) => x s) := by
  have hg : ∀ {s}, ErrorsAt S s → ErrorsAt S (g s) := by
    intro s hs e he'
    rw [he s] at he'
    exact hs e he'
  exact ⟨fun hs h => (hx _).ok (hg hs) h, fun hs h => (hx _).error (hg hs) h⟩

end Placed

/-! ### Expressions -/

/-- What is given is at a span that satisfies `S`. -/
abbrev PlacedExpr (S : Span → Prop) (x : Check TypedExpr) : Prop := Placed S (fun e => S e.span) x

variable {ctx : Context} {span : Span}

theorem valueType_placed {e : TypedExpr} (he : S e.span) : PlacedAny S (valueType e) := .require he

theorem valueTypes_placed {es : List TypedExpr} (hes : ∀ e ∈ es, S e.span) :
    PlacedAny S (valueTypes es) := by
  induction es with
  | nil => exact .pure trivial
  | cons e es ih =>
    exact .andThen (valueType_placed (hes e (.head _))) fun _ =>
      .andThen (ih fun e' he' => hes e' (.tail _ he')) fun _ => .pure trivial

theorem operator_placed {builtin symbol : String} {args : List TypedExpr}
    (hargs : ∀ e ∈ args, S e.span) (hs : S span) :
    PlacedExpr S (operator ctx builtin symbol args span) :=
  .andThen (valueTypes_placed hargs) fun _ => .andThen (.require hs) fun _ => .pure hs

theorem unary_placed (op : UnaryOp) {e : TypedExpr} (he : S e.span) (hs : S span) :
    PlacedExpr S (unary ctx op e span) := by
  unfold unary
  cases e.constant?.bind (Constant.foldUnary op) with
  | some v => exact .pure hs
  | none =>
    cases op with
    | neg => exact operator_placed (List.forall_mem_cons.2 ⟨he, List.forall_mem_singleton.2 hs⟩) hs
    | not => exact operator_placed (List.forall_mem_singleton.2 he) hs

theorem binary_placed (op : BinaryOp) {l r : TypedExpr} (hl : S l.span) (hr : S r.span)
    (hs : S span) : PlacedExpr S (binary ctx op l r span) := by
  unfold binary
  simp only
  split
  · exact .pure hs
  · exact operator_placed (List.forall_mem_cons.2 ⟨hl, List.forall_mem_singleton.2 hr⟩) hs

theorem checkArgs_placed (function : String) {args : List TypedExpr} (hargs : ∀ e ∈ args, S e.span)
    (params : List TypedParam) : PlacedAny S (checkArgs function args params) := by
  induction args generalizing params with
  | nil => exact .pure trivial
  | cons a args ih =>
    cases params with
    | nil => exact .pure trivial
    | cons p params =>
      obtain ⟨ha, hrest⟩ := List.forall_mem_cons.1 hargs
      exact .andThen (valueType_placed ha) fun _ => .guarded ha (ih hrest params)

theorem functionCall_placed (f : TypedFunction) {args : List TypedExpr}
    (hargs : ∀ e ∈ args, S e.span) (hs : S span) : PlacedExpr S (functionCall f args span) := by
  refine .guarded hs ?_
  split
  · exact .fail hs
  · exact .andThen (checkArgs_placed _ hargs _) fun _ => .pure hs

theorem call_placed (name : String) {args : List TypedExpr} (hargs : ∀ e ∈ args, S e.span)
    (hs : S span) : PlacedExpr S (call ctx name args span) := by
  refine .andThen .get fun s => ?_
  cases s.functions.get? name with
  | some f => exact functionCall_placed f hargs hs
  | none =>
    exact .guarded hs <| .andThen (valueTypes_placed hargs) fun _ => .andThen (.require hs) fun _ =>
      .pure hs

theorem bind_placed (n : String) (b : Binding) : PlacedAny S (Check.bind n b) :=
  .modify fun _ => rfl

theorem name_placed (n : String) (hs : S span) : PlacedExpr S (name ctx n span) := by
  refine .andThen .get fun s => ?_
  cases s.scope.get? n with
  | some b =>
    cases hv : b.constant with
    | some v => simp only [hv]; exact .pure hs
    | none => simp only [hv]; exact .pure hs
  | none => exact .ite (.fail hs) (.andThen (bind_placed ..) fun _ => .pure hs)

theorem checkComponents_placed {items : List TypedExpr} (hitems : ∀ e ∈ items, S e.span) :
    PlacedAny S (checkComponents items) := by
  induction items with
  | nil => exact .pure trivial
  | cons e items ih =>
    obtain ⟨he, hrest⟩ := List.forall_mem_cons.1 hitems
    exact .andThen (valueType_placed he) fun _ => .guarded he (ih hrest)

theorem vector_placed (type : SocketType) {items : List TypedExpr} (hitems : ∀ e ∈ items, S e.span)
    (hs : S span) : PlacedExpr S (vector ctx type items span) := by
  unfold vector
  cases constantVector? items with
  | some v => exact .pure hs
  | none =>
    exact .andThen (checkComponents_placed hitems) fun _ => .andThen (.require hs) fun _ =>
      .guarded hs (.pure hs)

theorem member_placed (n : String) {e : TypedExpr} (he : S e.span) (hs : S span) :
    PlacedExpr S (member ctx e n span) := by
  unfold member
  cases e.shape with
  | bundle => exact .andThen (.require hs) fun _ => .andThen (.require hs) fun _ => .pure hs
  | single =>
    refine .andThen (valueType_placed he) fun _ => .andThen (.require hs) fun part => ?_
    cases e.constant?.bind part.fold? with
    | some v => exact .pure hs
    | none => exact .pure hs

mutual

/-- An expression fails at its span or at that of a part, and what comes of it stands at its own
span. The induction is on the expression, the spans of which are in its outline. -/
theorem expr_placed : (e : Expr) → e.outline.SpansIn S → PlacedExpr S (expr ctx e)
  | .int .., h | .float .., h | .bool .., h | .str .., h => .pure h.whole
  | .name n _, h => name_placed n h.whole
  | .vector items _, h => by
    obtain ⟨hs, hparts⟩ := Outline.all_node.1 h
    exact .andThen (.require hs) fun _ => .bind (exprs_placed items hparts) fun _ hitems =>
      vector_placed _ hitems hs
  | .unary op e _, h => by
    obtain ⟨hs, hparts⟩ := Outline.all_node.1 h
    exact .bind (expr_placed e (List.forall_mem_singleton.1 hparts)) fun _ he =>
      unary_placed op he hs
  | .binary op l r _, h => by
    obtain ⟨hs, hparts⟩ := Outline.all_node.1 h
    obtain ⟨hl, hr⟩ := List.forall_mem_cons.1 hparts
    exact .bind (expr_placed l hl) fun _ hl' =>
      .bind (expr_placed r (List.forall_mem_singleton.1 hr)) fun _ hr' => binary_placed op hl' hr' hs
  | .call f args _, h => by
    obtain ⟨hs, hparts⟩ := Outline.all_node.1 h
    exact .bind (exprs_placed args hparts) fun _ hargs => call_placed f hargs hs
  | .member e n _, h => by
    obtain ⟨hs, hparts⟩ := Outline.all_node.1 h
    exact .bind (expr_placed e (List.forall_mem_singleton.1 hparts)) fun _ he =>
      member_placed n he hs

theorem exprs_placed : (es : List Expr) → (∀ o ∈ Expr.outlines es, o.SpansIn S) →
    Placed S (fun es' => ∀ e ∈ es', S e.span) (exprs ctx es)
  | [], _ => .pure (List.forall_mem_nil _)
  | e :: es, h => by
    obtain ⟨he, hes⟩ := List.forall_mem_cons.1 h
    exact .bind (expr_placed e he) fun _ he' => .bind (exprs_placed es hes) fun _ hes' =>
      .pure (List.forall_mem_cons.2 ⟨he', hes'⟩)

end

/-! ### Assignments -/

/-- An assignment that is refused is an error at its target: an output is not assigned in a zone or
by a value that does not convert, and a variable not by one that a zone around it cannot carry. -/
theorem assignTarget_placed {target : Target} (ht : S target.span) (b : Binding) :
    PlacedAny S (assignTarget ctx target b) := by
  cases target with
  | ignore => exact .pure trivial
  | name n span =>
    unfold assignTarget
    simp only
    cases ctx.output? n with
    | some o =>
      exact .guarded ht <| .andThen (.require ht) fun _ => .guarded ht <|
        .andThen (.modify fun _ => rfl) fun _ => .pure trivial
    | none =>
      cases zoneProblem? ctx n b with
      | some problem => exact .fail ht
      | none => exact .andThen (bind_placed ..) fun _ => .pure trivial

theorem checkConstant_placed (target : TypedTarget) {e : TypedExpr} (he : S e.span) :
    PlacedAny S (checkConstant ctx target e) := by
  unfold checkConstant
  split
  · exact .pure trivial
  · exact .pure trivial
  · exact .ite (.pure trivial) (.fail he)

theorem span_convertTo (e : TypedExpr) (type : SocketType) : (e.convertTo type).span = e.span := by
  unfold TypedExpr.convertTo
  split <;> rfl

theorem assignOne_placed {target : Target} (ht : S target.span) {e : TypedExpr} (he : S e.span) :
    PlacedAny S (assignOne ctx target e) := by
  refine .andThen (assignTarget_placed ht _) fun t => ?_
  refine .andThen (checkConstant_placed t ?_) fun _ => .pure trivial
  split
  · split
    · rw [span_convertTo]
      exact he
    · exact he
  · exact he

theorem assignComponents_placed (type : SocketType) (v : Constant) (hs : S span) (index : Nat)
    {targets : List Target} (hts : ∀ t ∈ targets, S t.span) :
    PlacedAny S (assignComponents ctx type v span index targets) := by
  induction targets generalizing index with
  | nil => exact .pure trivial
  | cons target targets ih =>
    obtain ⟨ht, hrest⟩ := List.forall_mem_cons.1 hts
    exact .andThen (.require hs) fun _ => .andThen (assignTarget_placed ht _) fun t =>
      .andThen (checkConstant_placed t hs) fun _ => .andThen (ih _ hrest) fun _ => .pure trivial

/-- Parts fail at the targets that they are bound to, by induction on the targets. -/
theorem assignParts_placed {targets : List Target} (hts : ∀ t ∈ targets, S t.span)
    (types : List SocketType) : PlacedAny S (assignParts ctx targets types) := by
  induction targets generalizing types with
  | nil => exact .pure trivial
  | cons target targets ih =>
    obtain ⟨ht, hrest⟩ := List.forall_mem_cons.1 hts
    cases types with
    | nil => exact .pure trivial
    | cons type types =>
      exact .andThen (assignTarget_placed ht _) fun _ => .andThen (ih hrest types) fun _ =>
        .pure trivial

theorem assignMany_placed {targets : List Target} (hts : ∀ t ∈ targets, S t.span) {e : TypedExpr}
    (he : S e.span) (type : SocketType) : PlacedAny S (assignMany ctx targets e type) := by
  refine .andThen (.require he) fun parts => .guarded he ?_
  cases e.constant? with
  | some v => exact assignComponents_placed _ _ he _ hts
  | none => exact .andThen (assignParts_placed hts _) fun _ => .pure trivial

theorem assign_placed {targets : List Target} (hts : ∀ t ∈ targets, S t.span) {e : Expr}
    (he : e.outline.SpansIn S) : PlacedAny S (assign ctx targets e) := by
  refine .bind (expr_placed e he) fun value hv => .andThen (valueType_placed hv) fun type => ?_
  split
  · exact assignOne_placed (hts _ (.head _)) hv
  · exact assignMany_placed hts hv type

theorem setField_placed (target field : String) {e : Expr} (he : e.outline.SpansIn S)
    (hs : S span) : PlacedAny S (setField ctx target field e span) :=
  .andThen .get fun _ => .guarded hs <| .bind (name_placed target hs) fun _ hobject =>
    .andThen (valueType_placed hobject) fun _ => .andThen (.require hs) fun _ =>
      .bind (expr_placed e he) fun _ hv => .andThen (valueType_placed hv) fun _ =>
        .guarded hv (.pure trivial)

/-! ### Loops, zones and definitions -/

/-- Each round of a loop fails where its body does, so no round adds a span that is not the
body's. -/
theorem unroll_placed (counter : Option String) {body : Check (List TypedStmt)}
    (hb : PlacedAny S body) (values : List Int64) : PlacedAny S (unroll counter body values) := by
  induction values with
  | nil => exact .pure trivial
  | cons i values ih =>
    have rest : PlacedAny S (do
        let before := (← get).errors.length
        let stmts ← body
        if before < (← get).errors.length then
          return stmts
        else
          let more ← unroll counter body values
          return stmts ++ more) :=
      .andThen .get fun _ => .andThen hb fun _ => .andThen .get fun _ =>
        .ite (.pure trivial) (.andThen ih fun _ => .pure trivial)
    cases counter with
    | none => exact rest
    | some n => exact .andThen (bind_placed ..) fun _ => rest

theorem inZone_placed {body : Context → Check (List TypedStmt)}
    (hb : ∀ scope, PlacedAny S (body (ctx.inZone scope))) : PlacedAny S (inZone ctx body) :=
  .andThen .get fun _ => .andThen (hb _) fun _ => .andThen (.modify fun _ => rfl) fun _ =>
    .pure trivial

/-- A default that is no constant, or not of the right type, is an error at the default. -/
theorem defaultValue_placed {p : Param} (hp : p.outline.SpansIn S) :
    PlacedAny S (defaultValue ctx p) := by
  unfold defaultValue
  cases hd : p.default with
  | none => exact .pure trivial
  | some e =>
    obtain ⟨-, hparts⟩ := Outline.all_node.1 hp
    rw [hd] at hparts
    have he : e.outline.SpansIn S := hparts _ (.head _)
    have hs : S e.span := e.span_outline ▸ he.whole
    exact .andThen (expr_placed e he).any fun _ => .andThen (.require hs) fun _ =>
      .andThen (.require hs) fun _ => .pure trivial

theorem parameters_placed {ps : List Param} (hps : ∀ p ∈ ps, p.outline.SpansIn S) :
    PlacedAny S (parameters ctx ps) := by
  induction ps with
  | nil => exact .pure trivial
  | cons p ps ih =>
    obtain ⟨hp, hrest⟩ := List.forall_mem_cons.1 hps
    exact .andThen (defaultValue_placed hp) fun _ => .andThen (ih hrest) fun _ => .pure trivial

theorem reportUnassigned_placed (function : String) (hs : S span) (assigned : List Nat) (i : Nat)
    (ps : List TypedParam) : PlacedAny S (reportUnassigned function span assigned i ps) := by
  induction ps generalizing i with
  | nil => exact .pure trivial
  | cons p ps ih => exact .ite (.andThen (.report hs) fun _ => ih _) (ih _)

theorem inDefinition_placed (d : Enclosing) (inputs : List TypedParam)
    {body : Context → Check (List TypedStmt)} (hb : PlacedAny S (body (ctx.inDefinition d))) :
    PlacedAny S (inDefinition ctx d inputs body) :=
  .getSet (fun _ => rfl) fun _ => .andThen hb fun _ => .andThen .get fun _ =>
    .andThen (.modify fun _ => rfl) fun _ => .pure trivial

theorem define_placed {h : Header} (hps : ∀ p ∈ h.inputs, p.outline.SpansIn S) (hs : S span)
    {body : Context → Check (List TypedStmt)}
    (hb : ∀ d, PlacedAny S (body (ctx.inDefinition d))) : PlacedAny S (define ctx h span body) :=
  .guarded hs <| .andThen .get fun _ => .guarded hs <| .andThen (parameters_placed hps) fun inputs =>
    .andThen (inDefinition_placed _ inputs (hb _)) fun _ =>
      .andThen (reportUnassigned_placed _ hs _ _ _) fun _ => .modify fun _ => rfl

/-! ### Blocks -/

mutual

/-- A statement fails at its span or at that of a part, for the error that stops it and for each that
is noted on the way. The induction is on the statement, in any context. -/
theorem stmt_placed : (st : Stmt) → st.outline.SpansIn S → ∀ ctx : Context,
    PlacedAny S (stmt ctx st)
  | .expr e _, h, _ => by
    obtain ⟨-, hparts⟩ := Outline.all_node.1 h
    exact .bind (expr_placed e (List.forall_mem_singleton.1 hparts)) fun _ _ => .pure trivial
  | .assign targets e _, h, _ => by
    obtain ⟨-, hparts⟩ := Outline.all_node.1 h
    obtain ⟨htargets, he⟩ := List.forall_mem_append.1 hparts
    refine assign_placed (fun t ht => ?_) (List.forall_mem_singleton.1 he)
    exact (htargets t.outline (List.mem_map_of_mem ht)).whole
  | .setField target field e _, h, _ => by
    obtain ⟨hs, hparts⟩ := Outline.all_node.1 h
    exact setField_placed target field (List.forall_mem_singleton.1 hparts) hs
  | .loop counter first last body _, h, ctx => by
    obtain ⟨hs, hparts⟩ := Outline.all_node.1 h
    exact .guarded hs (unroll_placed counter (block_placed body hparts ctx.inLoop) _)
  | .zone count body _, h, ctx => by
    obtain ⟨-, hparts⟩ := Outline.all_node.1 h
    obtain ⟨hcount, hbody⟩ := List.forall_mem_cons.1 hparts
    have hs : S count.span := count.span_outline ▸ hcount.whole
    have hzone : PlacedAny S (inZone ctx fun inner => block inner body) :=
      inZone_placed fun scope => block_placed body hbody (ctx.inZone scope)
    exact .guarded hs <| .bind (expr_placed count hcount) fun _ hv =>
      .andThen (valueType_placed hv) fun _ => .guarded hv <| .andThen hzone fun _ => .pure trivial
  | .define h body _, hd, ctx => by
    obtain ⟨hs, hparts⟩ := Outline.all_node.1 hd
    obtain ⟨hheader, hbody⟩ := List.forall_mem_append.1 hparts
    obtain ⟨hinputs, -⟩ := List.forall_mem_append.1 hheader
    have hps : ∀ p ∈ h.inputs, p.outline.SpansIn S := fun p hp =>
      hinputs p.outline (List.mem_map_of_mem hp)
    exact .andThen (define_placed hps hs fun d => block_placed body hbody (ctx.inDefinition d))
      fun _ => .pure trivial

theorem block_placed : (ss : List Stmt) → (∀ o ∈ Stmt.outlines ss, o.SpansIn S) → ∀ ctx : Context,
    PlacedAny S (block ctx ss)
  | [], _, _ => .pure trivial
  | st :: rest, h, ctx => by
    obtain ⟨hst, hrest⟩ := List.forall_mem_cons.1 h
    exact .andThen (.recover (stmt_placed st hst ctx)) fun _ =>
      .andThen (block_placed rest hrest ctx) fun _ => .pure trivial

end

theorem library_placed {ss : List Stmt} (h : ∀ o ∈ Stmt.outlines ss, o.SpansIn S) (ctx : Context) :
    PlacedAny S (library ctx ss) := by
  induction ss with
  | nil => exact .pure trivial
  | cons st rest ih =>
    obtain ⟨hst, hrest⟩ := List.forall_mem_cons.1 h
    have hs : S st.span := st.span_outline ▸ hst.whole
    cases st with
    | define h body s => exact .andThen (.recover (stmt_placed _ hst ctx)) fun _ => ih hrest
    | _ => exact .andThen (.report hs) fun _ => ih hrest

end Check

/-! ### Sessions -/

namespace Checker

variable {α : Type} {S : Span → Prop} {s : Checker}

/-- Errors of a step that starts without errors are at the spans where the step notes them. -/
theorem placed_of_finish {x : Check α} (hx : Check.PlacedAny S x) (hs : s.errors = [])
    {errors : List TypeError} (h : (finish x s).1 = .error errors) : ∀ e ∈ errors, S e.span := by
  have hstart : s.ErrorsAt S := by
    intro e he
    rw [hs] at he
    cases he
  unfold finish at h
  cases hrun : x s with
  | ok a s' =>
    rw [hrun] at h
    simp only at h
    split at h
    · cases h
    · cases h
      exact (hx.ok hstart hrun).2
  | error e s' =>
    rw [hrun] at h
    cases h
    obtain ⟨he, hs'⟩ := hx.error hstart hrun
    exact List.forall_mem_append.2 ⟨hs', List.forall_mem_singleton.2 he⟩

end Checker

/-! ### Diagnostics -/

namespace Compilation

/-- An error of a source: one of reading it, or one of checking what was read by `run`. -/
inductive FoundBy {α : Type} (run : Program → Except (List TypeError) α) (source : Source) :
    SourceError → Prop where
  | reading {e : SourceError} : Program.parse source.text = .error e → FoundBy run source e
  | checking {p : Program} {errors : List TypeError} {e : TypeError} :
      Program.parse source.text = .ok p → run p = .error errors → e ∈ errors →
      FoundBy run source e.toError

/-- The source in which an error of a formula and its libraries is found. A library is checked in the
session that the libraries before it have left, from the empty one on, and the formula in the one that
all of them have left, if none of them has an error. -/
inductive FoundIn (formula : Source) (options : CompileOptions) : Source → SourceError → Prop where
  | library {before after : List Source} {source : Source} {e : SourceError} :
      options.libraries = before ++ source :: after →
      FoundBy (fun p => ((addLibraries options.tree before {}).2.addLibrary options.tree p).1) source e →
      FoundIn formula options source e
  | formula {s : Checker} {e : SourceError} :
      addLibraries options.tree options.libraries {} = ([], s) →
      FoundBy (fun p => (s.check options.tree p).1) formula e → FoundIn formula options formula e

/-- An error is found in the formula or in one of its libraries. -/
theorem FoundIn.mem {formula source : Source} {options : CompileOptions} {e : SourceError}
    (h : FoundIn formula options source e) : source ∈ formula :: options.libraries := by
  cases h with
  | library hsplit => exact .tail _ (hsplit ▸ List.mem_append_right _ (.head _))
  | formula => exact .head _

/-- A diagnostic shows an error of the source it names, at a span of that source. -/
structure Shows {α : Type} (run : Program → Except (List TypeError) α) (source : Source)
    (d : Diagnostic) : Prop where
  shown : d = .ofError source d.error
  found : FoundBy run source d.error
  within : d.error.span.Within source.text

section Diagnostics

variable {α : Type} {run : Program → Except (List TypeError) α}
variable {tree : TreeKind} {source : Source} {s : Checker}

theorem Shows.file {d : Diagnostic} (h : Shows run source d) : d.file = source.name := by
  rw [h.shown]
  rfl

theorem shows_parse_error {e : SourceError} (h : Program.parse source.text = .error e) :
    Shows run source (.ofError source e) :=
  ⟨rfl, .reading h, Program.within_of_parse_error h⟩

/-- The diagnostics of a source that is read, if the check places its errors in the text. -/
theorem shows_typeDiagnostics {p : Program} {errors : List TypeError}
    (hp : Program.parse source.text = .ok p) (hrun : run p = .error errors)
    (hplaced : ∀ e ∈ errors, e.span.Within source.text) :
    ∀ d ∈ typeDiagnostics source errors, Shows run source d := by
  intro d hd
  obtain ⟨e, he, rfl⟩ := List.mem_map.1 hd
  exact ⟨rfl, .checking hp hrun he, hplaced e he⟩

/-- The spans of a parsed program are spans of its text. -/
theorem spansIn_of_parse {p : Program} {text : String} (h : Program.parse text = .ok p) :
    ∀ o ∈ Stmt.outlines p.items, o.SpansIn (Span.Within text) :=
  fun o ho => ((Program.laid_of_parse h).fits o ho).imp fun _ hfits => hfits.within

/-- The diagnostics of a library, and that no error is left over for the next one. -/
theorem shows_addLibrary (tree : TreeKind) (source : Source) (hs : s.errors = []) :
    (∀ d ∈ (addLibrary tree source s).1, Shows (fun p => (s.addLibrary tree p).1) source d) ∧
      (addLibrary tree source s).2.errors = [] := by
  unfold addLibrary
  cases hp : Program.parse source.text with
  | error e => exact ⟨List.forall_mem_singleton.2 (shows_parse_error hp), hs⟩
  | ok p =>
    have hleft : (s.addLibrary tree p).2.errors = [] := Checker.errors_finish ..
    simp only
    split
    next s' h =>
      rw [h] at hleft
      exact ⟨List.forall_mem_nil _, hleft⟩
    next errors s' h =>
      rw [h] at hleft
      have hfst : (s.addLibrary tree p).1 = .error errors := congrArg Prod.fst h
      have hplaced := Checker.placed_of_finish
        (Check.library_placed (spansIn_of_parse hp) { tree }) hs hfst
      exact ⟨shows_typeDiagnostics hp hfst hplaced, hleft⟩

/-- Every diagnostic of libraries that are added to a session is one of a library, checked in the session
that the libraries before it have left. -/
theorem shows_addLibraries (tree : TreeKind) (libraries : List Source) (hs : s.errors = []) :
    (∀ d ∈ (addLibraries tree libraries s).1, ∃ before source after,
      libraries = before ++ source :: after ∧
        Shows (fun p => ((addLibraries tree before s).2.addLibrary tree p).1) source d) ∧
      (addLibraries tree libraries s).2.errors = [] := by
  induction libraries generalizing s with
  | nil => exact ⟨List.forall_mem_nil _, hs⟩
  | cons source rest ih =>
    obtain ⟨hfound, hleft⟩ := shows_addLibrary tree source hs
    obtain ⟨hmore, hleft'⟩ := ih hleft
    refine ⟨fun d hd => ?_, hleft'⟩
    rcases List.mem_append.1 hd with hd | hd
    · exact ⟨[], source, rest, rfl, hfound d hd⟩
    · -- the session before a later library is the one this library left, and then the others
      obtain ⟨before, source', after, rfl, hshows⟩ := hmore d hd
      exact ⟨source :: before, source', after, rfl, hshows⟩

end Diagnostics

/-- Every diagnostic of a check is of the source its error is found in and lies in that source's
text. Libraries are gone through in order, and the formula only if all of them are without errors. -/
theorem foundIn_of_check {formula : Source} {options : CompileOptions} {found : List Diagnostic}
    (h : check formula options = .error found) :
    ∀ d ∈ found, ∃ source, FoundIn formula options source d.error ∧ d.file = source.name ∧
      d.error.span.Within source.text := by
  obtain ⟨hlibraries, hleft⟩ :=
    shows_addLibraries options.tree options.libraries (s := {}) rfl
  intro d hd
  unfold check at h
  split at h
  next s hs =>
    rw [hs] at hleft
    suffices hshows : Shows (fun p => (s.check options.tree p).1) formula d from
      ⟨formula, .formula hs hshows.found, hshows.file, hshows.within⟩
    split at h
    next e hp =>
      cases h
      cases List.mem_singleton.1 hd
      exact shows_parse_error hp
    next p hp =>
      cases hcheck : (s.check options.tree p).1 with
      | ok formula =>
        rw [hcheck] at h
        cases h
      | error errors =>
        rw [hcheck] at h
        cases h
        have hplaced := Checker.placed_of_finish (s := { s with scope := ∅, zoneLocals := [] })
          (Check.block_placed p.items (spansIn_of_parse hp) { tree := options.tree }) hleft hcheck
        exact shows_typeDiagnostics hp hcheck hplaced d hd
  next found' s _ hfound =>
    cases h
    rw [hfound] at hlibraries
    obtain ⟨before, source, after, hsplit, hshows⟩ := hlibraries d hd
    exact ⟨source, .library hsplit hshows.found, hshows.file, hshows.within⟩

/-- Spans from the parser to the diagnostics. In a program that is read, every span is one of the text,
the spans of the parts of a statement, expression or parameter lie inside its own, one behind the other,
and so do the statements themselves. Every diagnostic of a formula and its libraries has the name of the
source in which the error is found and a span of that source's text. -/
theorem spans_sound (source : Source) (options : CompileOptions) :
    (∀ p, Program.parse source.text = .ok p →
      (∀ o ∈ p.outlines, o.All (Outline.Fits source.text)) ∧ p.outlines.Pairwise Outline.Before) ∧
    ∀ found, check source options = .error found → ∀ d ∈ found,
      ∃ s ∈ source :: options.libraries, FoundIn source options s d.error ∧ d.file = s.name ∧
        d.error.span.Within s.text := by
  refine ⟨fun p hp => ?_, fun found h d hd => ?_⟩
  · have hlaid := Program.laid_of_parse hp
    exact ⟨hlaid.fits, hlaid.ordered⟩
  · obtain ⟨s, hfound, hfile, hwithin⟩ := foundIn_of_check h d hd
    exact ⟨s, hfound.mem, hfound, hfile, hwithin⟩

/-- A formula with characters of several bytes, in a string and in a comment. -/
def accented : Source where
  name := "formula"
  text := "# ─── ñ\na, _ = wave((x + 1) * 2, \"é\"); loop 1 -> 2 \x7b a.x = -a.y ** 2; \x7d"

/-- A library that defines `wave`, one that stops at a character of three bytes, and one that passes
`wave` an argument too many. -/
def threeLibraries : List Source :=
  [⟨"waves", "fn wave(a: float) -> b: float \x7b b = sin(a); \x7d"⟩,
    ⟨"broken", "fn wave(a: float) -> b: vec3 \x7b b = € \x7d"⟩,
    ⟨"tints", "# é\nfn tint(a: vec3) -> b: float \x7b b = wave(a, 1); \x7d"⟩]

/-- A formula with characters of several bytes, and three libraries. The second library cannot be
read, and the third is checked in the session with the definition of the first, as the message about
the number of arguments shows. -/
theorem spans_sound_accented :
    (∃ p, Program.parse accented.text = .ok p ∧
      (∀ o ∈ p.outlines, o.All (Outline.Fits accented.text)) ∧ p.outlines.Pairwise Outline.Before) ∧
    ∃ found, check accented { libraries := threeLibraries } = .error found ∧
      found.map (fun d => (d.file, d.error.message, d.error.span)) =
        [("broken", "expected an expression, found '€'", ⟨35, 38⟩),
          ("tints", "`wave` takes 1 arguments but 2 were given", ⟨40, 50⟩),
          ("tints", "output `b` of `tint` is never assigned", ⟨5, 53⟩)] ∧
      ∀ d ∈ found, ∃ s ∈ accented :: threeLibraries,
        FoundIn accented { libraries := threeLibraries } s d.error ∧ d.file = s.name ∧
          d.error.span.Within s.text := by
  obtain ⟨hprogram, hfound⟩ := spans_sound accented { libraries := threeLibraries }
  have hparse : (Program.parse accented.text).toBool = true := by decide +kernel
  have hcheck : (match check accented { libraries := threeLibraries } with
      | .ok _ => false
      | .error found => decide (found.map (fun d => (d.file, d.error.message, d.error.span)) =
        [("broken", "expected an expression, found '€'", ⟨35, 38⟩),
          ("tints", "`wave` takes 1 arguments but 2 were given", ⟨40, 50⟩),
          ("tints", "output `b` of `tint` is never assigned", ⟨5, 53⟩)])) = true := by decide +kernel
  constructor
  · cases hp : Program.parse accented.text with
    | error e =>
      rw [hp] at hparse
      cases hparse
    | ok p => exact ⟨p, rfl, hprogram p hp⟩
  · split at hcheck
    next => cases hcheck
    next found h => exact ⟨found, h, of_decide_eq_true hcheck, hfound found h⟩

end Compilation

end NodeFormula

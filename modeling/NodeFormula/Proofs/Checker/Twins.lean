import NodeFormula.Proofs.Checker.Growth

/-!
# What checking depends on

The same statements are checked from two states. The states are `Twins` for a vocabulary if they have
the same variables in scope and the same errors, and agree on the functions and the variables of the
vocabulary: on what the functions are, and on whether a zone left the variables behind. Statements that
keep to the vocabulary are then checked alike (`block_steady`): they give the same result, and leave
twins.

The outputs that are assigned so far matter in a definition only. Where a definition starts, they are
none in both states.
-/

namespace NodeFormula

/-! ### Vocabularies -/

/-- The functions that a formula may call or define, and the variables that it may read. -/
structure Vocabulary where
  calls : String → Prop
  reads : String → Prop

mutual

/-- An expression keeps to a vocabulary. -/
def Expr.KeepsTo (V : Vocabulary) : Expr → Prop
  | .int .. => True
  | .float .. => True
  | .bool .. => True
  | .str .. => True
  | .name n _ => V.reads n
  | .vector items _ => Expr.AllKeepTo V items
  | .unary _ e _ => e.KeepsTo V
  | .binary _ l r _ => l.KeepsTo V ∧ r.KeepsTo V
  | .call f args _ => V.calls f ∧ Expr.AllKeepTo V args
  | .member e _ _ => e.KeepsTo V

/-- Expressions keep to a vocabulary. -/
def Expr.AllKeepTo (V : Vocabulary) : List Expr → Prop
  | [] => True
  | e :: es => e.KeepsTo V ∧ Expr.AllKeepTo V es

end

/-- The default of a parameter keeps to a vocabulary. -/
def Param.KeepsTo (V : Vocabulary) (p : Param) : Prop := ∀ e, p.default = some e → e.KeepsTo V

mutual

/-- A statement keeps to a vocabulary. Variables that are only assigned need not be in it, while a
component that is assigned is one of a variable that is read. -/
def Stmt.KeepsTo (V : Vocabulary) : Stmt → Prop
  | .expr e _ => e.KeepsTo V
  | .assign _ e _ => e.KeepsTo V
  | .setField target _ e _ => V.reads target ∧ e.KeepsTo V
  | .loop _ _ _ body _ => Stmt.AllKeepTo V body
  | .zone count body _ => count.KeepsTo V ∧ Stmt.AllKeepTo V body
  | .define h body _ => V.calls h.name ∧ (∀ p ∈ h.inputs, p.KeepsTo V) ∧ Stmt.AllKeepTo V body

/-- Statements keep to a vocabulary. -/
def Stmt.AllKeepTo (V : Vocabulary) : List Stmt → Prop
  | [] => True
  | s :: ss => s.KeepsTo V ∧ Stmt.AllKeepTo V ss

end

/-- States that statements in a vocabulary cannot tell apart. -/
structure Twins (V : Vocabulary) (enclosed : Bool) (s t : Checker) : Prop where
  scope : s.scope = t.scope
  errors : s.errors = t.errors
  functions : ∀ n, V.calls n → s.functions.get? n = t.functions.get? n
  zoneLocals : ∀ n, V.reads n → s.zoneLocals.contains n = t.zoneLocals.contains n
  assigned : enclosed = true → s.assigned = t.assigned

namespace Check

variable {α β : Type}

/-! ### Steps that answer alike -/

/-- The same value or the same error, and states that satisfy `R`. -/
inductive Alike (R : Checker → Checker → Prop) :
    EStateM.Result TypeError Checker α → EStateM.Result TypeError Checker α → Prop where
  | ok (a : α) {s t : Checker} : R s t → Alike R (.ok a s) (.ok a t)
  | error (e : TypeError) {s t : Checker} : R s t → Alike R (.error e s) (.error e t)

/-- A step answers alike in states that satisfy `R`, and leaves states that do. -/
structure Steady (R : Checker → Checker → Prop) (x : Check α) : Prop where
  alike : ∀ s t, R s t → Alike R (x s) (x t)

section
variable {R : Checker → Checker → Prop}

namespace Steady

theorem pure (a : α) : Steady R (pure a : Check α) := ⟨fun _ _ h => .ok a h⟩

/-- A step that fails fails alike in both states, with the same problem at the same span. -/
theorem fail (problem : Problem) (span : Span) : Steady R (fail problem span : Check α) :=
  ⟨fun _ _ h => .error _ h⟩

theorem require (o : Option α) (problem : Problem) (span : Span) :
    Steady R (require o problem span) := by
  cases o with
  | none => exact fail problem span
  | some a => exact pure a

theorem modify {f : Checker → Checker} (hf : ∀ s t, R s t → R (f s) (f t)) :
    Steady R (modify f : Check PUnit) := ⟨fun s t h => .ok _ (hf s t h)⟩

/-- Two steps in a row answer alike if each does: after the first the states are related again, and
the value is the same. -/
theorem bind {x : Check α} {f : α → Check β} (hx : Steady R x) (hf : ∀ a, Steady R (f a)) :
    Steady R (x >>= f) := by
  refine ⟨fun s t h => ?_⟩
  change Alike R (EStateM.bind x f s) (EStateM.bind x f t)
  unfold EStateM.bind
  have hst := hx.alike s t h
  revert hst
  generalize x s = r
  generalize x t = r'
  rintro (⟨a, h₁⟩ | ⟨e, h₁⟩)
  · exact (hf _).alike _ _ h₁
  · exact .error _ h₁

/-- A choice that the states do not decide. -/
theorem ite {c : Prop} [Decidable c] {x y : Check α} (hx : Steady R x) (hy : Steady R y) :
    Steady R (if c then x else y) := by
  split
  · exact hx
  · exact hy

/-- A step that looks at the state first. -/
theorem look {f : Checker → Check α} (hf : ∀ s t, R s t → Alike R (f s s) (f t t)) :
    Steady R (MonadState.get >>= f) := ⟨hf⟩

/-- What would follow a failure does not matter. -/
theorem failed (problem : Problem) (span : Span) (f : α → Check β) :
    Steady R (Check.fail problem span >>= f) := ⟨fun _ _ h => .error _ h⟩

/-- A test that may fail, before a step. -/
theorem guard {c : Prop} [Decidable c] {problem : Problem} {span : Span} {f : Unit → Check α}
    {x : Check α} (hx : Steady R x) : Steady R (if c then Check.fail problem span >>= f else x) :=
  .ite (.failed _ _ _) hx

end Steady

/-- A failure is noted alike: related states stay related if both note the same error, and both go on
with no statements. -/
theorem recover_steady {x : Check (List TypedStmt)} (hx : Steady R x)
    (hR : ∀ s t e, R s t → R { s with errors := s.errors ++ [e] } { t with errors := t.errors ++ [e] }) :
    Steady R (recover x) := by
  refine ⟨fun s t h => ?_⟩
  unfold recover
  have hst := hx.alike s t h
  revert hst
  generalize x s = r
  generalize x t = r'
  rintro (⟨a, h₁⟩ | ⟨e, h₁⟩)
  · exact .ok _ h₁
  · exact .ok _ (hR _ _ _ h₁)

/-! ### Steps that do not look at the state -/

variable {ctx : Context}

theorem valueType_steady (e : TypedExpr) : Steady R (valueType e) := .require _ _ _

theorem valueTypes_steady (es : List TypedExpr) : Steady R (valueTypes es) := by
  induction es with
  | nil => exact .pure _
  | cons e es ih => exact .bind (valueType_steady e) fun _ => .bind ih fun _ => .pure _

theorem operator_steady (builtin symbol : String) (args : List TypedExpr) (span : Span) :
    Steady R (operator ctx builtin symbol args span) :=
  .bind (valueTypes_steady args) fun _ => .bind (.require _ _ _) fun _ => .pure _

theorem unary_steady (op : UnaryOp) (e : TypedExpr) (span : Span) :
    Steady R (unary ctx op e span) := by
  unfold unary
  cases e.constant?.bind (Constant.foldUnary op) with
  | some v => exact .pure _
  | none =>
    cases op with
    | neg => exact operator_steady ..
    | not => exact operator_steady ..

theorem binary_steady (op : BinaryOp) (l r : TypedExpr) (span : Span) :
    Steady R (binary ctx op l r span) := by
  unfold binary
  simp only
  split
  · exact .pure _
  · exact operator_steady ..

theorem checkArgs_steady (function : String) (args : List TypedExpr) (params : List TypedParam) :
    Steady R (checkArgs function args params) := by
  induction args generalizing params with
  | nil => exact .pure _
  | cons a args ih =>
    cases params with
    | nil => exact .pure _
    | cons p params => exact .bind (valueType_steady a) fun _ => .guard (ih params)

theorem functionCall_steady (f : TypedFunction) (args : List TypedExpr) (span : Span) :
    Steady R (functionCall f args span) := by
  refine .guard ?_
  split
  · exact .fail _ _
  · exact .bind (checkArgs_steady ..) fun _ => .pure _

theorem checkComponents_steady (items : List TypedExpr) : Steady R (checkComponents items) := by
  induction items with
  | nil => exact .pure _
  | cons e items ih => exact .bind (valueType_steady e) fun _ => .guard ih

theorem vector_steady (type : SocketType) (items : List TypedExpr) (span : Span) :
    Steady R (vector ctx type items span) := by
  unfold vector
  cases constantVector? items with
  | some v => exact .pure _
  | none =>
    exact .bind (checkComponents_steady items) fun _ => .bind (.require _ _ _) fun _ =>
      .guard (.pure _)

theorem member_steady (e : TypedExpr) (n : String) (span : Span) :
    Steady R (member ctx e n span) := by
  unfold member
  cases e.shape with
  | bundle => exact .bind (.require _ _ _) fun _ => .bind (.require _ _ _) fun _ => .pure _
  | single =>
    refine .bind (valueType_steady e) fun _ => .bind (.require _ _ _) fun part => ?_
    cases e.constant?.bind part.fold? with
    | some v => exact .pure _
    | none => exact .pure _

/-- A step that answers alike whatever the states are does not change the state. -/
theorem Steady.state_eq {x : Check α} (hx : ∀ R, Steady R x) {s s' : Checker} {a : α}
    (h : x s = .ok a s') : s' = s := by
  have hs := (hx fun t u => t = s ∧ u = s).alike s s ⟨rfl, rfl⟩
  rw [h] at hs
  cases hs with
  | ok _ hr => exact hr.1

/-! ### Expressions -/

/-- A relation between states that agree on a vocabulary, which stays when a free variable is bound
where there can be one. -/
structure Agreement (R : Checker → Checker → Prop) (V : Vocabulary) (ctx : Context) : Prop where
  twins : ∀ s t, R s t → Twins V false s t
  free : (ctx.enclosing.isSome || !ctx.zones.isEmpty) = false →
    ∀ n, Steady R (Check.bind n (.value .float))

variable {V : Vocabulary}

/-- What is wrong with a name of the vocabulary. -/
theorem unknownName_eq {s t : Checker} (h : Twins V false s t) {n : String} (hn : V.reads n) :
    unknownName ctx s n = unknownName ctx t n := by
  unfold unknownName
  rw [h.zoneLocals n hn]

/-- A variable of the vocabulary is read alike: the scopes are the same, and so is the message if a
zone has left the variable behind. -/
theorem name_steady (hR : Agreement R V ctx) {n : String} (hn : V.reads n) (span : Span) :
    Steady R (name ctx n span) := by
  refine .look fun s t h => ?_
  have ht := hR.twins s t h
  rw [ht.scope, ht.zoneLocals n hn, unknownName_eq ht hn]
  cases t.scope.get? n with
  | some b =>
    obtain ⟨_, _, _, constant⟩ := b
    cases constant with
    | some v => exact .ok _ h
    | none => exact .ok _ h
  | none =>
    simp only
    split
    next => exact .error _ h
    next hfree =>
      have hctx : (ctx.enclosing.isSome || !ctx.zones.isEmpty) = false := by
        rw [Bool.not_eq_true, Bool.or_eq_false_iff] at hfree
        exact hfree.1
      exact (Steady.bind (hR.free hctx n) fun _ => .pure _).alike s t h

/-- A function of the vocabulary is called alike, as the definitions of its name are the same in both
states. -/
theorem call_steady (hR : Agreement R V ctx) {f : String} (hf : V.calls f) (args : List TypedExpr)
    (span : Span) : Steady R (call ctx f args span) := by
  refine .look fun s t h => ?_
  rw [(hR.twins s t h).functions f hf]
  cases t.functions.get? f with
  | some function => exact (functionCall_steady function args span).alike s t h
  | none =>
    refine (Steady.guard ?_).alike s t h
    exact .bind (valueTypes_steady args) fun _ => .bind (.require _ _ _) fun _ => .pure _

mutual

/-- An expression that keeps to the vocabulary is checked alike, by induction on the expression. Only
names and calls look at the state. -/
theorem expr_steady (hR : Agreement R V ctx) : (e : Expr) → e.KeepsTo V → Steady R (expr ctx e)
  | .int .., _ | .float .., _ | .bool .., _ | .str .., _ => .pure _
  | .name _ s, h => name_steady hR h s
  | .vector items s, h =>
    .bind (.require _ _ _) fun _ => .bind (exprs_steady hR items h) fun _ => vector_steady _ _ s
  | .unary op e s, h => .bind (expr_steady hR e h) fun _ => unary_steady op _ s
  | .binary op l r s, h =>
    .bind (expr_steady hR l h.1) fun _ => .bind (expr_steady hR r h.2) fun _ => binary_steady op _ _ s
  | .call _ args s, h => .bind (exprs_steady hR args h.2) fun _ => call_steady hR h.1 _ s
  | .member e n s, h => .bind (expr_steady hR e h) fun _ => member_steady _ n s

theorem exprs_steady (hR : Agreement R V ctx) : (es : List Expr) → Expr.AllKeepTo V es →
    Steady R (exprs ctx es)
  | [], _ => .pure _
  | e :: es, h =>
    .bind (expr_steady hR e h.1) fun _ => .bind (exprs_steady hR es h.2) fun _ => .pure _

end

/-! ### Assignments -/

theorem checkConstant_steady (target : TypedTarget) (e : TypedExpr) :
    Steady R (checkConstant ctx target e) := by
  unfold checkConstant
  split
  · exact .pure _
  · exact .pure _
  · exact .ite (.pure _) (.fail _ _)

theorem assignOne_steady {target : Target} (ht : ∀ b, Steady R (assignTarget ctx target b))
    (e : TypedExpr) : Steady R (assignOne ctx target e) :=
  .bind (ht _) fun _ => .bind (checkConstant_steady ..) fun _ => .pure _

theorem assignComponents_steady (type : SocketType) (v : Constant) (span : Span) (index : Nat)
    {targets : List Target} (ht : ∀ t ∈ targets, ∀ b, Steady R (assignTarget ctx t b)) :
    Steady R (assignComponents ctx type v span index targets) := by
  induction targets generalizing index with
  | nil => exact .pure _
  | cons target targets ih =>
    exact .bind (.require _ _ _) fun _ => .bind (ht _ (.head _) _) fun _ =>
      .bind (checkConstant_steady ..) fun _ =>
        .bind (ih _ fun t h => ht t (.tail _ h)) fun _ => .pure _

/-- Parts are bound alike if assigning each target answers alike, by induction on the targets. -/
theorem assignParts_steady {targets : List Target}
    (ht : ∀ t ∈ targets, ∀ b, Steady R (assignTarget ctx t b)) (types : List SocketType) :
    Steady R (assignParts ctx targets types) := by
  induction targets generalizing types with
  | nil => exact .pure _
  | cons target targets ih =>
    cases types with
    | nil => exact .pure _
    | cons type types =>
      exact .bind (ht _ (.head _) _) fun _ =>
        .bind (ih (fun t h => ht t (.tail _ h)) types) fun _ => .pure _

theorem assignMany_steady {targets : List Target}
    (ht : ∀ t ∈ targets, ∀ b, Steady R (assignTarget ctx t b)) (e : TypedExpr) (type : SocketType) :
    Steady R (assignMany ctx targets e type) := by
  refine .bind (.require _ _ _) fun parts => .guard ?_
  cases e.constant? with
  | some v => exact assignComponents_steady _ _ _ _ ht
  | none => exact .bind (assignParts_steady ht _) fun _ => .pure _

theorem assign_steady {targets : List Target}
    (ht : ∀ t ∈ targets, ∀ b, Steady R (assignTarget ctx t b)) {e : Expr}
    (he : Steady R (expr ctx e)) : Steady R (assign ctx targets e) := by
  refine .bind he fun value => .bind (valueType_steady value) fun type => ?_
  split
  · exact assignOne_steady (ht _ (.head _)) _
  · exact assignMany_steady ht _ _

theorem setField_steady (hR : Agreement R V ctx) {target : String} (ht : V.reads target)
    (field : String) {e : Expr} (he : e.KeepsTo V) (span : Span) :
    Steady R (setField ctx target field e span) := by
  refine .look fun s t h => ?_
  rw [(hR.twins s t h).scope, unknownName_eq (hR.twins s t h) ht]
  refine (Steady.guard ?_).alike s t h
  exact .bind (name_steady hR ht _) fun _ => .bind (valueType_steady _) fun _ =>
    .bind (.require _ _ _) fun _ => .bind (expr_steady hR e he) fun _ =>
      .bind (valueType_steady _) fun _ => .guard (.pure _)

/-! ### Loops -/

/-- A loop is unrolled alike: related states have the same errors, so both stop after the same round.
The induction is on the values of the counter. -/
theorem unroll_steady (hR : ∀ s t, R s t → s.errors = t.errors) {counter : Option String}
    (hc : ∀ n, counter = some n → ∀ b, Steady R (Check.bind n b)) {body : Check (List TypedStmt)}
    (hb : Steady R body) (values : List Int64) : Steady R (unroll counter body values) := by
  induction values with
  | nil => exact .pure _
  | cons i values ih =>
    have rest : Steady R (do
        let before := (← get).errors.length
        let stmts ← body
        if before < (← get).errors.length then
          return stmts
        else
          let more ← unroll counter body values
          return stmts ++ more) := by
      refine .look fun s t h => ?_
      rw [hR s t h]
      refine (Steady.bind hb fun stmts => .look fun s₁ t₁ h₁ => ?_).alike s t h
      rw [hR s₁ t₁ h₁]
      exact (Steady.ite (.pure _) (.bind ih fun _ => .pure _)).alike s₁ t₁ h₁
    cases counter with
    | none => exact rest
    | some n => exact .bind (hc n rfl _) fun _ => rest

end

/-! ### Twins -/

section
variable {V : Vocabulary} {enclosed : Bool} {ctx : Context}

theorem bind_steady (n : String) (b : Binding) : Steady (Twins V enclosed) (Check.bind n b) :=
  .modify fun _ _ h => { h with scope := congrArg (·.insert n b) h.scope }

theorem agreement_twins : Agreement (Twins V enclosed) V ctx :=
  ⟨fun _ _ h => { h with assigned := fun he => absurd he Bool.false_ne_true }, fun _ n => bind_steady n _⟩

/-- Assigning a target answers alike in twins. The outputs that are assigned so far need to be the
same only in a definition. -/
theorem assignTarget_steady (target : Target) (b : Binding) :
    Steady (Twins V ctx.enclosing.isSome) (assignTarget ctx target b) := by
  cases target with
  | ignore => exact .pure _
  | name n span =>
    unfold assignTarget
    simp only
    cases ctx.output? n with
    | some o =>
      refine .guard (.bind (.require _ _ _) fun _ => .guard (.bind (.modify fun s t h => ?_)
        fun _ => .pure _))
      exact { h with assigned := fun he => congrArg (o.2.1 :: ·) (h.assigned he) }
    | none =>
      cases zoneProblem? ctx n b with
      | some problem => exact .fail _ _
      | none => exact .bind (bind_steady ..) fun _ => .pure _

/-- Leaving a zone adds the same names to those that zones left behind, as far as names are looked
at. Both scopes go back to the one from before the zone. -/
theorem twins_leave {outer : Scope} {s t : Checker} (h : Twins V enclosed s t) :
    Twins V enclosed
      { s with
        scope := outer
        zoneLocals := (s.scope.keys.filter fun n => !outer.contains n && !s.zoneLocals.contains n) ++
          s.zoneLocals }
      { t with
        scope := outer
        zoneLocals := (t.scope.keys.filter fun n => !outer.contains n && !t.zoneLocals.contains n) ++
          t.zoneLocals } := by
  refine { h with scope := rfl, zoneLocals := fun n hn => ?_ }
  have hz := h.zoneLocals n hn
  rw [Bool.eq_iff_iff, List.contains_iff_mem, List.contains_iff_mem] at hz ⊢
  simp only [List.mem_append, List.mem_filter, Bool.and_eq_true, Bool.not_eq_true', h.scope,
    h.zoneLocals n hn, hz]

theorem inZone_steady {body : Context → Check (List TypedStmt)}
    (hb : ∀ scope, Steady (Twins V enclosed) (body (ctx.inZone scope))) :
    Steady (Twins V enclosed) (inZone ctx body) := by
  refine .look fun s t h => ?_
  rw [h.scope]
  exact (Steady.bind (hb _) fun _ => .bind (.modify fun _ _ h => twins_leave h) fun _ =>
    .pure _).alike s t h

theorem defaultValue_steady {p : Param} (hp : p.KeepsTo V) :
    Steady (Twins V enclosed) (defaultValue ctx p) := by
  unfold defaultValue
  cases hd : p.default with
  | none => exact .pure _
  | some e =>
    exact .bind (expr_steady agreement_twins e (hp e hd)) fun _ => .bind (.require _ _ _) fun _ =>
      .bind (.require _ _ _) fun _ => .pure _

theorem parameters_steady {ps : List Param} (hps : ∀ p ∈ ps, p.KeepsTo V) :
    Steady (Twins V enclosed) (parameters ctx ps) := by
  induction ps with
  | nil => exact .pure _
  | cons p ps ih =>
    exact .bind (defaultValue_steady (hps p (.head _))) fun _ =>
      .bind (ih fun q hq => hps q (.tail _ hq)) fun _ => .pure _

theorem report_steady (e : TypeError) : Steady (Twins V enclosed) (report e) :=
  .modify fun _ _ h => { h with errors := congrArg (· ++ [e]) h.errors }

theorem reportUnassigned_steady (function : String) (span : Span) (assigned : List Nat) (i : Nat)
    (ps : List TypedParam) :
    Steady (Twins V enclosed) (reportUnassigned function span assigned i ps) := by
  induction ps generalizing i with
  | nil => exact .pure _
  | cons p ps ih => exact .ite (.bind (report_steady _) fun _ => ih _) (ih _)

/-- The body of a definition starts with no output assigned, and afterwards the outputs that were
assigned before are back. So states that differ in these outputs alone stay related. -/
theorem inDefinition_steady (d : Enclosing) (inputs : List TypedParam)
    {body : Context → Check (List TypedStmt)} (hb : Steady (Twins V true) (body (ctx.inDefinition d))) :
    Steady (Twins V enclosed) (inDefinition ctx d inputs body) := by
  refine ⟨fun s t h => ?_⟩
  let scope : Scope := Table.ofList (inputs.map fun p => (p.name, .value p.type))
  have hstart : Twins V true { s with scope, assigned := [] } { t with scope, assigned := [] } :=
    { h with scope := rfl, assigned := fun _ => rfl }
  have hst := hb.alike _ _ hstart
  change Alike _ (EStateM.bind (body (ctx.inDefinition d)) _ { s with scope, assigned := [] })
    (EStateM.bind (body (ctx.inDefinition d)) _ { t with scope, assigned := [] })
  unfold EStateM.bind
  revert hst
  generalize body (ctx.inDefinition d) { s with scope, assigned := [] } = r
  generalize body (ctx.inDefinition d) { t with scope, assigned := [] } = r'
  rintro (⟨stmts, h₁⟩ | ⟨e, h₁⟩)
  · rename_i s₁ t₁
    have hend : Twins V enclosed { s₁ with scope := s.scope, assigned := s.assigned }
        { t₁ with scope := t.scope, assigned := t.assigned } :=
      { h₁ with scope := h.scope, assigned := h.assigned }
    have hr : Alike (Twins V enclosed)
        (.ok (stmts, s₁.assigned) { s₁ with scope := s.scope, assigned := s.assigned })
        (.ok (stmts, t₁.assigned) { t₁ with scope := t.scope, assigned := t.assigned }) := by
      rw [h₁.assigned rfl]
      exact .ok _ hend
    exact hr
  · exact .error _ { h₁ with assigned := fun _ => h₁.assigned rfl }

/-- A definition is checked alike if its body is checked alike in a definition, its defaults keep to
the vocabulary, and the vocabulary has its name. -/
theorem define_steady {h : Header} (hn : V.calls h.name) (hps : ∀ p ∈ h.inputs, p.KeepsTo V)
    (span : Span) {body : Context → Check (List TypedStmt)}
    (hb : ∀ d, Steady (Twins V true) (body (ctx.inDefinition d))) :
    Steady (Twins V enclosed) (define ctx h span body) := by
  refine .guard (.look fun s t hst => ?_)
  simp only [Table.contains, hst.functions _ hn]
  refine (Steady.guard ?_).alike s t hst
  refine .bind (parameters_steady hps) fun inputs =>
    .bind (inDefinition_steady _ inputs (hb _)) fun _ =>
      .bind (reportUnassigned_steady ..) fun _ => .modify fun s₁ t₁ h₁ => ?_
  refine { h₁ with functions := fun n hc => ?_ }
  simp only [Table.get?_insert, h₁.functions n hc]

end

/-! ### Statements -/

section
variable {V : Vocabulary}

theorem recover_twins {enclosed : Bool} {x : Check (List TypedStmt)}
    (hx : Steady (Twins V enclosed) x) : Steady (Twins V enclosed) (recover x) :=
  recover_steady hx fun _ _ e h => { h with errors := congrArg (· ++ [e]) h.errors }

mutual

/-- A statement that keeps to the vocabulary is checked alike, in any context, by induction on the
statement. -/
theorem stmt_steady : (ctx : Context) → (st : Stmt) → st.KeepsTo V →
    Steady (Twins V ctx.enclosing.isSome) (stmt ctx st)
  | _, .expr e _, h => .bind (expr_steady agreement_twins e h) fun _ => .pure _
  | _, .assign _ e _, h =>
    assign_steady (fun t _ => assignTarget_steady t) (expr_steady agreement_twins e h)
  | _, .setField _ field _ s, h => setField_steady agreement_twins h.1 field h.2 s
  | ctx, .loop _ _ _ body _, h =>
    .guard (unroll_steady (fun _ _ h => h.errors) (fun n _ => bind_steady n)
      (block_steady ctx.inLoop body h) _)
  | ctx, .zone count body _, h =>
    .guard (.bind (expr_steady agreement_twins count h.1) fun _ => .bind (valueType_steady _) fun _ =>
      .guard (.bind (inZone_steady fun scope => block_steady (ctx.inZone scope) body h.2) fun _ =>
        .pure _))
  | ctx, .define _ body s, h =>
    .bind (define_steady h.1 h.2.1 s fun d => block_steady (ctx.inDefinition d) body h.2.2) fun _ =>
      .pure _

/-- Statements that keep to a vocabulary are checked alike from states which agree on it. -/
theorem block_steady : (ctx : Context) → (stmts : List Stmt) → Stmt.AllKeepTo V stmts →
    Steady (Twins V ctx.enclosing.isSome) (block ctx stmts)
  | _, [], _ => .pure _
  | ctx, s :: rest, h =>
    .bind (recover_twins (stmt_steady ctx s h.1)) fun _ =>
      .bind (block_steady ctx rest h.2) fun _ => .pure _

end

end

end Check

/-! ### Whole formulas -/

/-- A step that answers alike ends with the same value or the same errors. -/
theorem Checker.finish_twins {α : Type} {V : Vocabulary} {enclosed : Bool} {x : Check α}
    {s t : Checker} (hx : Check.Steady (Twins V enclosed) x) (h : Twins V enclosed s t) :
    (finish x s).1 = (finish x t).1 := by
  unfold finish
  have hst := hx.alike s t h
  revert hst
  generalize x s = r
  generalize x t = r'
  rintro (⟨a, h₁⟩ | ⟨e, h₁⟩)
  · simp only [h₁.errors]
  · simp only [h₁.errors]

/-- All functions and variables. -/
def Vocabulary.full : Vocabulary := ⟨fun _ => True, fun _ => True⟩

mutual

theorem Expr.keepsTo_full : (e : Expr) → e.KeepsTo .full
  | .int .. | .float .. | .bool .. | .str .. | .name .. => trivial
  | .vector items _ => Expr.allKeepTo_full items
  | .unary _ e _ => Expr.keepsTo_full e
  | .binary _ l r _ => ⟨Expr.keepsTo_full l, Expr.keepsTo_full r⟩
  | .call _ args _ => ⟨trivial, Expr.allKeepTo_full args⟩
  | .member e _ _ => Expr.keepsTo_full e

theorem Expr.allKeepTo_full : (es : List Expr) → Expr.AllKeepTo .full es
  | [] => trivial
  | e :: es => ⟨Expr.keepsTo_full e, Expr.allKeepTo_full es⟩

end

mutual

theorem Stmt.keepsTo_full : (st : Stmt) → st.KeepsTo .full
  | .expr e _ => Expr.keepsTo_full e
  | .assign _ e _ => Expr.keepsTo_full e
  | .setField _ _ e _ => ⟨trivial, Expr.keepsTo_full e⟩
  | .loop _ _ _ body _ => Stmt.allKeepTo_full body
  | .zone count body _ => ⟨Expr.keepsTo_full count, Stmt.allKeepTo_full body⟩
  | .define _ body _ => ⟨trivial, fun _ _ e _ => Expr.keepsTo_full e, Stmt.allKeepTo_full body⟩

theorem Stmt.allKeepTo_full : (ss : List Stmt) → Stmt.AllKeepTo .full ss
  | [] => trivial
  | st :: ss => ⟨Stmt.keepsTo_full st, Stmt.allKeepTo_full ss⟩

end

end NodeFormula

import NodeFormula.Proofs.Checker.Session
import NodeFormula.Proofs.Checker.Twins

/-!
# What a definition leaves behind

A definition is checked by the checker of the formula around it. Checked without errors, it leaves the
scope as it was and adds one function (`define_leaves`). But the names that its zones leave behind stay,
and after it such a name is no free variable. They are names that its zones bind (`block_keeping`).

So statements after a definition that do not call it are checked as if the definition were not there,
with these names in the way (`Checker.check_define_twins`).
-/

namespace NodeFormula

mutual

/-- The variables that the zones of a statement bind satisfy `Z`, as far as the tree has zones. With
`inside` the statement itself is in a zone. -/
def Stmt.ZonesBind (tree : TreeKind) (Z : String → Prop) (inside : Bool) : Stmt → Prop
  | .expr .. => True
  | .assign targets _ _ => inside = true → ∀ t ∈ targets, t.Spelled Z
  | .setField .. => True
  | .loop counter _ _ body _ =>
    (inside = true → ∀ n, counter = some n → Z n) ∧ Stmt.AllZonesBind tree Z inside body
  | .zone _ body _ => tree.supportsRepeat = true → Stmt.AllZonesBind tree Z true body
  | .define _ body _ => Stmt.AllZonesBind tree Z false body

/-- The variables that the zones of statements bind satisfy `Z`. -/
def Stmt.AllZonesBind (tree : TreeKind) (Z : String → Prop) (inside : Bool) : List Stmt → Prop
  | [] => True
  | s :: ss => s.ZonesBind tree Z inside ∧ Stmt.AllZonesBind tree Z inside ss

end

mutual

/-- In a tree without repeat zones, zones bind nothing, since they are refused before their body is
checked. -/
theorem Stmt.zonesBind_of_noRepeat {tree : TreeKind} (htree : tree.supportsRepeat = false)
    (Z : String → Prop) : (st : Stmt) → st.ZonesBind tree Z false
  | .expr .. => trivial
  | .assign .. => fun h => absurd h Bool.false_ne_true
  | .setField .. => trivial
  | .loop _ _ _ body _ =>
    ⟨fun h => absurd h Bool.false_ne_true, Stmt.allZonesBind_of_noRepeat htree Z body⟩
  | .zone .. => fun h => absurd (htree.symm.trans h) Bool.false_ne_true
  | .define _ body _ => Stmt.allZonesBind_of_noRepeat htree Z body

/-- Where the tree has no zones, no variable is bound in one. -/
theorem Stmt.allZonesBind_of_noRepeat {tree : TreeKind} (htree : tree.supportsRepeat = false)
    (Z : String → Prop) : (ss : List Stmt) → Stmt.AllZonesBind tree Z false ss
  | [] => trivial
  | st :: ss => ⟨Stmt.zonesBind_of_noRepeat htree Z st, Stmt.allZonesBind_of_noRepeat htree Z ss⟩

end

namespace Check

variable {ctx : Context} {s s' : Checker}

/-! ### Constants -/

theorem constant_of_scalar {e : TypedExpr} {c : Constant} {x : Float}
    (h : e.constant? = some c ∧ c.scalar? = some x) : e.constant?.isSome := by
  rw [h.1]
  rfl

/-- If the components of a vector give a constant vector, all of them are constants. -/
theorem constant_of_constantVector {items : List TypedExpr} {v : Constant}
    (h : constantVector? items = some v) : ∀ e ∈ items, e.constant?.isSome := by
  unfold constantVector? at h
  split at h
  · simp only [Option.bind_eq_bind, Option.bind_eq_some_iff] at h
    obtain ⟨_, ⟨_, h₁⟩, _, ⟨_, h₂⟩, _, ⟨_, h₃⟩, -⟩ := h
    simp only [List.forall_mem_cons]
    exact ⟨constant_of_scalar h₁, constant_of_scalar h₂, constant_of_scalar h₃, List.forall_mem_nil _⟩
  · simp only [Option.bind_eq_bind, Option.bind_eq_some_iff] at h
    obtain ⟨_, ⟨_, h₁⟩, _, ⟨_, h₂⟩, _, ⟨_, h₃⟩, _, ⟨_, h₄⟩, -⟩ := h
    simp only [List.forall_mem_cons]
    exact ⟨constant_of_scalar h₁, constant_of_scalar h₂, constant_of_scalar h₃,
      constant_of_scalar h₄, List.forall_mem_nil _⟩
  · cases h

section
variable {v : TypedExpr} {span : Span}

theorem operator_not_constant {builtin symbol : String} {args : List TypedExpr}
    (h : operator ctx builtin symbol args span s = .ok v s') : ¬ v.constant?.isSome := by
  simp only [operator, bind_ok, require_ok, pure_ok] at h
  obtain ⟨_, _, -, _, _, -, rfl, -⟩ := h
  exact Bool.false_ne_true

theorem constant_of_unary {op : UnaryOp} {e : TypedExpr} (h : unary ctx op e span s = .ok v s')
    (hv : v.constant?.isSome) : e.constant?.isSome := by
  unfold unary at h
  cases he : e.constant? with
  | some c => rfl
  | none =>
    rw [he] at h
    cases op with
    | neg => exact absurd hv (operator_not_constant h)
    | not => exact absurd hv (operator_not_constant h)

/-- An operator that is folded had constants for both operands. Folding looks at both before anything
else is tried. -/
theorem constant_of_binary {op : BinaryOp} {l r : TypedExpr} (h : binary ctx op l r span s = .ok v s')
    (hv : v.constant?.isSome) : l.constant?.isSome ∧ r.constant?.isSome := by
  unfold binary at h
  cases hl : l.constant? with
  | none =>
    simp only [hl] at h
    exact absurd hv (operator_not_constant h)
  | some a =>
    cases hr : r.constant? with
    | none =>
      simp only [hl, hr] at h
      exact absurd hv (operator_not_constant h)
    | some b => exact ⟨rfl, rfl⟩

/-- A call is no constant, whatever is called: builtins are not folded, and the call of a definition
is one in the typed formula too. -/
theorem call_not_constant {f : String} {args : List TypedExpr}
    (h : call ctx f args span s = .ok v s') : ¬ v.constant?.isSome := by
  simp only [call, bind_ok, get_ok] at h
  obtain ⟨_, _, ⟨rfl, rfl⟩, h⟩ := h
  cases hf : s.functions.get? f with
  | some function =>
    simp only [hf, functionCall, guard_ok] at h
    obtain ⟨-, h⟩ := h
    cases hm : (function.inputs.drop args.length).find? (·.default.isNone) with
    | some p =>
      simp only [hm] at h
      exact (fail_ok.1 h).elim
    | none =>
      simp only [hm, bind_ok, pure_ok] at h
      obtain ⟨_, _, -, rfl, -⟩ := h
      exact Bool.false_ne_true
  | none =>
    simp only [hf, guard_ok, bind_ok, require_ok, pure_ok] at h
    obtain ⟨-, _, _, -, _, _, -, rfl, -⟩ := h
    exact Bool.false_ne_true

theorem constant_of_vector {type : SocketType} {items : List TypedExpr}
    (h : vector ctx type items span s = .ok v s') (hv : v.constant?.isSome) :
    ∀ e ∈ items, e.constant?.isSome := by
  unfold vector at h
  cases hc : constantVector? items with
  | some c => exact constant_of_constantVector hc
  | none =>
    simp only [hc, bind_ok, require_ok, guard_ok, pure_ok] at h
    obtain ⟨_, _, -, _, _, -, -, rfl, -⟩ := h
    cases hv

/-- A member that is folded was taken of a constant. An output of a bundle is never folded, and a
component only if the vector is a constant. -/
theorem constant_of_member {e : TypedExpr} {n : String} (h : member ctx e n span s = .ok v s')
    (hv : v.constant?.isSome) : e.constant?.isSome := by
  unfold member at h
  cases hs : e.shape with
  | bundle =>
    simp only [hs, bind_ok, require_ok, pure_ok] at h
    obtain ⟨_, _, -, _, _, -, rfl, -⟩ := h
    cases hv
  | single =>
    simp only [hs, bind_ok, require_ok] at h
    obtain ⟨_, _, -, part, _, -, h⟩ := h
    cases he : e.constant? with
    | some c => rfl
    | none =>
      rw [he] at h
      obtain ⟨rfl, -⟩ := pure_ok.1 h
      cases hv

/-- Reading a name that is a constant binds nothing. A free name would be bound, but it is no
constant, and a name in scope leaves the checker as it is. -/
theorem state_of_name {n : String} (h : name ctx n span s = .ok v s') (hv : v.constant?.isSome) :
    s' = s := by
  simp only [name, bind_ok, get_ok] at h
  obtain ⟨_, _, ⟨rfl, rfl⟩, h⟩ := h
  cases hb : s.scope.get? n with
  | some b =>
    simp only [hb] at h
    cases hc : b.constant with
    | some c =>
      rw [hc] at h
      exact (pure_ok.1 h).2.symm
    | none =>
      rw [hc] at h
      exact (pure_ok.1 h).2.symm
  | none =>
    simp only [hb] at h
    split at h
    · exact (fail_ok.1 h).elim
    · simp only [bind_ok, pure_ok] at h
      obtain ⟨_, _, -, rfl, -⟩ := h
      cases hv

end

mutual

/-- An expression that turns out to be a constant binds no free variable, by induction on the
expression. Its operands are constants as well, and nothing is folded that has another value in
it. -/
theorem expr_constant : (e : Expr) → ∀ {s s' : Checker} {v : TypedExpr}, expr ctx e s = .ok v s' →
    v.constant?.isSome → s' = s
  | .int .., _, _, _, h, _ | .float .., _, _, _, h, _ | .bool .., _, _, _, h, _
  | .str .., _, _, _, h, _ => (pure_ok.1 h).2.symm
  | .name .., _, _, _, h, hv => state_of_name h hv
  | .vector items _, s, s', v, h, hv => by
    simp only [expr, bind_ok, require_ok] at h
    obtain ⟨_, _, ⟨-, rfl⟩, checked, s₁, hitems, h⟩ := h
    rw [Steady.state_eq (fun _ => vector_steady ..) h]
    exact exprs_constant items hitems (constant_of_vector h hv)
  | .unary _ e _, s, s', v, h, hv => by
    simp only [expr, bind_ok] at h
    obtain ⟨_, _, he, h⟩ := h
    rw [Steady.state_eq (fun _ => unary_steady ..) h]
    exact expr_constant e he (constant_of_unary h hv)
  | .binary _ l r _, s, s', v, h, hv => by
    simp only [expr, bind_ok] at h
    obtain ⟨_, _, hl, _, _, hr, h⟩ := h
    obtain ⟨hcl, hcr⟩ := constant_of_binary h hv
    rw [Steady.state_eq (fun _ => binary_steady ..) h, expr_constant r hr hcr]
    exact expr_constant l hl hcl
  | .call _ _ _, s, s', v, h, hv => by
    simp only [expr, bind_ok] at h
    obtain ⟨_, _, -, h⟩ := h
    exact absurd hv (call_not_constant h)
  | .member e _ _, s, s', v, h, hv => by
    simp only [expr, bind_ok] at h
    obtain ⟨_, _, he, h⟩ := h
    rw [Steady.state_eq (fun _ => member_steady ..) h]
    exact expr_constant e he (constant_of_member h hv)

theorem exprs_constant : (es : List Expr) → ∀ {s s' : Checker} {vs : List TypedExpr},
    exprs ctx es s = .ok vs s' → (∀ v ∈ vs, v.constant?.isSome) → s' = s
  | [], _, _, _, h, _ => (pure_ok.1 h).2.symm
  | e :: es, s, s', vs, h, hv => by
    simp only [exprs, bind_ok, pure_ok] at h
    obtain ⟨_, _, he, _, _, hes, rfl, rfl⟩ := h
    rw [exprs_constant es hes fun v hm => hv v (.tail _ hm)]
    exact expr_constant e he (hv _ (.head _))

end

/-- Parameters leave the state as it was, because their defaults are constants. -/
theorem parameters_state {ps : List Param} {qs : List TypedParam}
    (h : parameters ctx ps s = .ok qs s') : s' = s := by
  induction ps generalizing s qs with
  | nil => exact (pure_ok.1 h).2.symm
  | cons p ps ih =>
    simp only [parameters, bind_ok, pure_ok] at h
    obtain ⟨_, s₁, hp, _, _, hps, rfl, rfl⟩ := h
    rw [ih hps]
    unfold defaultValue at hp
    cases hd : p.default with
    | none =>
      rw [hd] at hp
      exact (pure_ok.1 hp).2.symm
    | some e =>
      simp only [hd, bind_ok, require_ok, pure_ok] at hp
      obtain ⟨_, _, he, _, _, ⟨hv, rfl⟩, _, _, ⟨-, rfl⟩, -, rfl⟩ := hp
      exact expr_constant _ he (by rw [hv]; rfl)

/-! ### Zones in definitions -/

/-- The same state, which satisfies `P`. -/
def Keeping (P : Checker → Prop) (s t : Checker) : Prop := s = t ∧ P s

/-- The names that zones left behind satisfy `Z`, and so does every variable in scope that was not in
the scope `outer`. -/
structure Contained (Z : String → Prop) (outer : Option Scope) (s : Checker) : Prop where
  zoneLocals : ∀ n ∈ s.zoneLocals, Z n
  scope : ∀ o, outer = some o → ∀ n, s.scope.contains n = true → o.contains n = true ∨ Z n

section
variable {P : Checker → Prop} {Z : String → Prop} {outer : Option Scope}

/-- In a definition a name is no free variable, so an expression leaves the state as it is. -/
theorem agreement_keeping (hctx : ctx.enclosing.isSome = true) :
    Agreement (Keeping P) .full ctx where
  twins s t h := by
    obtain ⟨rfl, -⟩ := h
    exact ⟨rfl, rfl, fun _ _ => rfl, fun _ _ => rfl, fun _ => rfl⟩
  free hfree := by
    rw [hctx, Bool.true_or] at hfree
    cases hfree

theorem bind_keeping {n : String} (hn : outer.isSome = true → Z n) (b : Binding) :
    Steady (Keeping (Contained Z outer)) (Check.bind n b) := by
  refine .modify fun s t h => ?_
  obtain ⟨rfl, h⟩ := h
  refine ⟨rfl, h.zoneLocals, fun o ho m hm => ?_⟩
  simp only [Table.contains, Table.get?_insert] at hm
  split at hm
  next heq => exact .inr (heq ▸ hn (by rw [ho]; rfl))
  next => exact h.scope o ho m hm

/-- Assigning a target keeps the names that are left behind among the given ones, if in a zone the
target is one of them. -/
theorem assignTarget_keeping {target : Target} (ht : outer.isSome = true → target.Spelled Z)
    (b : Binding) : Steady (Keeping (Contained Z outer)) (assignTarget ctx target b) := by
  cases target with
  | ignore => exact .pure _
  | name n span =>
    unfold assignTarget
    simp only
    cases ctx.output? n with
    | some o =>
      refine .guard (.bind (.require _ _ _) fun _ => .guard (.bind (.modify fun s t h => ?_)
        fun _ => .pure _))
      obtain ⟨rfl, h⟩ := h
      exact ⟨rfl, h.zoneLocals, h.scope⟩
    | none =>
      cases zoneProblem? ctx n b with
      | some problem => exact .fail _ _
      | none => exact .bind (bind_keeping ht b) fun _ => .pure _

/-- A zone whose body, from the scope in which the zone starts, binds names of `Z` only leaves behind
names of `Z` only. What it leaves are the names of its scope that the outer one does not have. -/
theorem inZone_keeping {body : Context → Check (List TypedStmt)}
    (hb : ∀ scope, Steady (Keeping (Contained Z (some scope))) (body (ctx.inZone scope))) :
    Steady (Keeping (Contained Z outer)) (inZone ctx body) := by
  refine .look fun s t h => ?_
  obtain ⟨rfl, h⟩ := h
  have hstart : Keeping (Contained Z (some s.scope)) s s :=
    ⟨rfl, h.zoneLocals, fun o ho n hn => .inl (by cases ho; exact hn)⟩
  have hst := (hb s.scope).alike s s hstart
  change Alike _ (EStateM.bind (body (ctx.inZone s.scope)) _ s)
    (EStateM.bind (body (ctx.inZone s.scope)) _ s)
  unfold EStateM.bind
  revert hst
  generalize body (ctx.inZone s.scope) s = r
  rintro (⟨stmts, -, h₁⟩ | ⟨e, -, h₁⟩)
  · refine .ok stmts ⟨rfl, fun n hn => ?_, h.scope⟩
    rcases List.mem_append.1 hn with hn | hn
    · -- A name that the zone bound first is not in the scope in which the zone started.
      simp only [List.mem_filter, Bool.and_eq_true, Bool.not_eq_true'] at hn
      obtain ⟨hkeys, hnew, -⟩ := hn
      rcases h₁.scope _ rfl n (Table.mem_keys_iff.1 hkeys) with hold | hz
      · rw [hold] at hnew
        cases hnew
      · exact hz
    · exact h₁.zoneLocals n hn
  · refine .error e ⟨rfl, h₁.zoneLocals, fun o ho n hn => ?_⟩
    rcases h₁.scope _ rfl n hn with hold | hz
    · exact h.scope o ho n hold
    · exact .inr hz

theorem recover_keeping {x : Check (List TypedStmt)} (hx : Steady (Keeping (Contained Z outer)) x) :
    Steady (Keeping (Contained Z outer)) (recover x) := by
  refine recover_steady hx fun s t e h => ?_
  obtain ⟨rfl, h⟩ := h
  exact ⟨rfl, h.zoneLocals, h.scope⟩

end

section
variable {Z : String → Prop}

mutual

/-- In a definition every statement keeps the names that are left behind among those that its zones
bind, by induction on the statement. Outside zones nothing is left behind. -/
theorem stmt_keeping : (ctx : Context) → ctx.enclosing.isSome = true → (outer : Option Scope) →
    (st : Stmt) → st.ZonesBind ctx.tree Z outer.isSome →
    Steady (Keeping (Contained Z outer)) (stmt ctx st)
  | _, hctx, _, .expr e _, _ =>
    .bind (expr_steady (agreement_keeping hctx) e e.keepsTo_full) fun _ => .pure _
  | _, hctx, _, .assign _ e _, h =>
    assign_steady (fun t ht => assignTarget_keeping fun ho => h ho t ht)
      (expr_steady (agreement_keeping hctx) e e.keepsTo_full)
  | _, hctx, _, .setField _ field e s, _ =>
    setField_steady (agreement_keeping hctx) trivial field e.keepsTo_full s
  | ctx, hctx, outer, .loop _ _ _ body _, h =>
    .guard (unroll_steady (fun _ _ hst => congrArg Checker.errors hst.1)
      (fun n hn => bind_keeping fun ho => h.1 ho n hn)
      (block_keeping ctx.inLoop hctx outer body h.2) _)
  | ctx, hctx, outer, .zone count body _, h => by
    unfold stmt
    cases hr : ctx.tree.supportsRepeat with
    | false => exact .failed _ _ _
    | true =>
      refine .bind (expr_steady (agreement_keeping hctx) count count.keepsTo_full) fun _ =>
        .bind (valueType_steady _) fun _ => .guard (.bind (inZone_keeping fun scope => ?_) fun _ =>
          .pure _)
      exact block_keeping (ctx.inZone scope) hctx (some scope) body (h hr)
  | ctx, hctx, _, .define header body s, _ => by
    have htop : ctx.topLevel = false := by simp [Context.topLevel, Option.isSome_iff_ne_none.1 hctx]
    unfold stmt define
    rw [htop]
    exact .bind (.failed _ _ _) fun _ => .pure _

/-- In a definition the names that zones leave behind, and in a zone the variables that come into
scope, satisfy `Z`. -/
theorem block_keeping : (ctx : Context) → ctx.enclosing.isSome = true → (outer : Option Scope) →
    (ss : List Stmt) → Stmt.AllZonesBind ctx.tree Z outer.isSome ss →
    Steady (Keeping (Contained Z outer)) (block ctx ss)
  | _, _, _, [], _ => .pure _
  | ctx, hctx, outer, st :: ss, h =>
    .bind (recover_keeping (stmt_keeping ctx hctx outer st h.1)) fun _ =>
      .bind (block_keeping ctx hctx outer ss h.2) fun _ => .pure _

end

end

/-! ### Definitions without errors -/

/-- A definition without errors adds a function, and leaves the names that the zones of its body left
behind. -/
theorem define_leaves {h : Header} {span : Span} {body : Context → Check (List TypedStmt)} {u : Unit}
    (hb : ∀ d, Monotone false (body (ctx.inDefinition d)))
    (hd : define ctx h span body s = .ok u s') (hc : s'.errors = []) :
    ∃ f d start stmts s₁, body (ctx.inDefinition d) start = .ok stmts s₁ ∧ s₁.errors = [] ∧
      start.zoneLocals = s.zoneLocals ∧
      s' = { s with functions := s.functions.insert h.name f, zoneLocals := s₁.zoneLocals } := by
  simp only [define, inDefinition, guard_ok, bind_ok, get_ok, set_ok, modify_ok, pure_ok] at hd
  obtain ⟨-, _, _, ⟨rfl, rfl⟩, -, inputs, s₁, hinputs, _, s₂, ⟨_, _, ⟨rfl, rfl⟩, _, _, rfl,
    stmts, s₃, hbody, _, _, ⟨rfl, rfl⟩, _, _, rfl, rfl, rfl⟩, _, s₄, hreport, rfl⟩ := hd
  obtain ⟨-, rfl⟩ := reportUnassigned_clean hreport hc
  cases parameters_state hinputs
  let outputs := h.outputs.map fun p => (⟨p.name, p.type, none⟩ : TypedParam)
  have hgrows := (hb _).grows hbody
  have herrors : s.errors = [] := hgrows.errors_eq_nil hc
  have hfunctions : s₃.functions = s.functions := hgrows.fixed rfl
  have hc' : s₃.errors = [] := hc
  refine ⟨⟨h.name, h.kind, inputs, outputs, stmts⟩, ⟨h.name, outputs⟩, _, stmts, s₃, hbody, hc', rfl, ?_⟩
  simp only [hfunctions, hc', herrors, outputs]

/-- Statements after one that gives none are checked as if they came first, from the state that this
one leaves. A definition is such a statement. -/
theorem block_cons {st : Stmt} (h : stmt ctx st s = .ok [] s') (rest : List Stmt) :
    block ctx (st :: rest) s = block ctx rest s' := by
  have hrecover : recover (stmt ctx st) s = .ok [] s' := by
    unfold recover
    rw [h]
  rw [block]
  change EStateM.bind (recover (stmt ctx st)) _ s = _
  unfold EStateM.bind
  rw [hrecover]
  change EStateM.bind (block ctx rest) _ s' = _
  unfold EStateM.bind
  cases block ctx rest s' with
  | ok others s₁ => rfl
  | error e s₁ => rfl

end Check

namespace Checker

variable {tree : TreeKind} {s s' : Checker} {h : Header} {body : List Stmt} {span : Span}
  {stmts : List TypedStmt} {rest : List Stmt}

/-- An accepted definition adds a function and leaves names behind, all of which are bound by zones
in its body. Nothing else of the checker differs from one that has met no statement yet. -/
theorem check_define (hd : s.check tree ⟨[.define h body span]⟩ = (.ok stmts, s')) :
    Check.stmt { tree } (.define h body span) { s with scope := ∅, zoneLocals := [] } = .ok [] s' ∧
    (∃ f, s' = { s with
      functions := s.functions.insert h.name f, scope := ∅, zoneLocals := s'.zoneLocals }) ∧
    ∀ Z : String → Prop, Stmt.AllZonesBind tree Z false body → ∀ n ∈ s'.zoneLocals, Z n := by
  obtain ⟨hd, hc⟩ := finish_ok hd
  simp only [Check.block, Check.bind_ok, Check.pure_ok] at hd
  obtain ⟨first, _, hfirst, _, _, ⟨rfl, rfl⟩, -, rfl⟩ := hd
  have hst := Check.recover_ok hc hfirst
  simp only [Check.stmt, Check.bind_ok, Check.pure_ok] at hst
  obtain ⟨_, _, hdefine, rfl, rfl⟩ := hst
  have hbody : ∀ d, Check.Monotone false (Check.block (Context.inDefinition { tree } d) body) :=
    fun d => Check.block_monotone body (Context.inDefinition { tree } d)
  obtain ⟨f, d, start, typed, s₁, hrun, -, hstart, heq⟩ := Check.define_leaves hbody hdefine hc
  refine ⟨Check.recover_ok hc hfirst, ⟨f, ?_⟩, fun Z hZ => ?_⟩
  · rw [heq]
  · have hkeeping := (Check.block_keeping (Context.inDefinition { tree } d) rfl none body hZ).alike
      start start ⟨rfl, by rw [hstart]; exact List.forall_mem_nil _, fun o ho => by cases ho⟩
    rw [hrun] at hkeeping
    cases hkeeping with
    | ok _ hend =>
      rw [heq]
      exact hend.2.zoneLocals

/-- After an accepted definition, statements that do not call it are checked as before it, if they
cannot tell the names that its zones left behind from the names `left`. -/
theorem check_define_twins (hd : s.check tree ⟨[.define h body span]⟩ = (.ok stmts, s'))
    {reads : String → Prop} (hrest : Stmt.AllKeepTo ⟨(· ≠ h.name), reads⟩ rest) {left : List String}
    (hleft : ∀ n, reads n → s'.zoneLocals.contains n = left.contains n) :
    (s.check tree ⟨.define h body span :: rest⟩).1 =
      (finish (Check.block { tree } rest) { s with scope := ∅, zoneLocals := left }).1 := by
  obtain ⟨hstmt, ⟨f, hf⟩, -⟩ := check_define hd
  have hcons : s.check tree ⟨.define h body span :: rest⟩ = finish (Check.block { tree } rest) s' := by
    unfold check finish
    rw [Check.block_cons hstmt]
  rw [hcons]
  refine finish_twins (Check.block_steady { tree } rest hrest) ⟨?_, ?_, fun n hn => ?_, hleft, ?_⟩
  · rw [hf]
  · rw [hf]
  · rw [hf, Table.get?_insert, if_neg hn]
  · exact fun he => absurd he Bool.false_ne_true

/-- Statements that do not call an accepted definition are checked after it as without it, but for the
names that its zones leave behind, which are names that its zones bind. Statements that read none of
them are checked as if the definition were not there, and in a tree without zones all are. -/
theorem check_define_cons (hd : s.check tree ⟨[.define h body span]⟩ = (.ok stmts, s'))
    (hrest : Stmt.AllKeepTo ⟨(· ≠ h.name), fun _ => True⟩ rest) :
    (s.check tree ⟨.define h body span :: rest⟩).1 =
      (finish (Check.block { tree } rest) { s with scope := ∅, zoneLocals := s'.zoneLocals }).1 ∧
    (∀ Z : String → Prop, Stmt.AllZonesBind tree Z false body → ∀ n ∈ s'.zoneLocals, Z n) ∧
    (Stmt.AllKeepTo ⟨(· ≠ h.name), (· ∉ s'.zoneLocals)⟩ rest →
      (s.check tree ⟨.define h body span :: rest⟩).1 = (s.check tree ⟨rest⟩).1) ∧
    (tree.supportsRepeat = false →
      (s.check tree ⟨.define h body span :: rest⟩).1 = (s.check tree ⟨rest⟩).1) := by
  have hzones := (check_define hd).2.2
  refine ⟨check_define_twins hd hrest fun _ _ => rfl, hzones, fun hreads => ?_, fun htree => ?_⟩
  · exact check_define_twins hd hreads fun n hn => by simpa using hn
  · have hnone : s'.zoneLocals = [] := List.eq_nil_iff_forall_not_mem.2
      (hzones (fun _ => False) (Stmt.allZonesBind_of_noRepeat htree _ body))
    exact check_define_twins hd hrest fun n _ => by rw [hnone]

/-- A function with a zone that binds `t`. -/
def zonedFunction : Stmt :=
  .define ⟨.function, "f", [⟨"a", .float, none, ⟨0, 0⟩⟩], [⟨"b", .float, none, ⟨0, 0⟩⟩]⟩
    [.zone (.int 2 ⟨0, 0⟩) [.assign [.name "t" ⟨0, 0⟩] (.name "a" ⟨0, 0⟩) ⟨0, 0⟩] ⟨0, 0⟩,
      .assign [.name "b" ⟨0, 0⟩] (.name "a" ⟨0, 0⟩) ⟨0, 0⟩] ⟨0, 0⟩

/-- A statement that binds `t` too, but does not read it. -/
def rebinding : Stmt := .assign [.name "t" ⟨0, 0⟩] (.name "x" ⟨0, 0⟩) ⟨0, 0⟩

/-- A function whose zone binds `t` leaves that name behind. A statement that binds `t` again is
checked as it would be without the function. -/
theorem check_zonedFunction_cons : ∃ stmts s',
    check .geometry ⟨[zonedFunction]⟩ {} = (.ok stmts, s') ∧ s'.zoneLocals = ["t"] ∧
    (check .geometry ⟨[zonedFunction, rebinding]⟩ {}).1 = (check .geometry ⟨[rebinding]⟩ {}).1 := by
  have hleft : (check .geometry ⟨[zonedFunction]⟩ {}).2.zoneLocals = ["t"] := by decide +kernel
  have hok : (check .geometry ⟨[zonedFunction]⟩ {}).1.toBool = true := by decide +kernel
  rcases hd : check .geometry ⟨[zonedFunction]⟩ {} with ⟨_ | stmts, s'⟩
  · rw [hd] at hok
    cases hok
  · rw [hd] at hleft
    have hrest : Stmt.AllKeepTo ⟨(· ≠ "f"), fun _ => True⟩ [rebinding] := ⟨trivial, trivial⟩
    have hreads : Stmt.AllKeepTo ⟨(· ≠ "f"), (· ∉ s'.zoneLocals)⟩ [rebinding] := by
      have hx : "x" ∉ ["t"] := by decide
      rw [hleft]
      exact ⟨hx, trivial⟩
    exact ⟨stmts, s', rfl, hleft, (check_define_cons hd hrest).2.2.1 hreads⟩

/-- A statement in which `t` is a free variable. -/
def freeReading : Stmt := .assign [.name "x" ⟨0, 0⟩] (.name "t" ⟨0, 0⟩) ⟨0, 0⟩

/-- A formula that is accepted, and is not after an accepted definition that it does not call: the name
of the free variable was left behind by a zone of the definition. -/
theorem check_zonedFunction_freeReading : ∃ errors,
    (check .geometry ⟨[zonedFunction]⟩ {}).1.toBool = true ∧
    (check .geometry ⟨[freeReading]⟩ {}).1.toBool = true ∧
    (check .geometry ⟨[zonedFunction, freeReading]⟩ {}).1 = .error errors ∧
    errors.map (·.problem) = [.zoneLocal "t"] := by
  have hdefinition : (check .geometry ⟨[zonedFunction]⟩ {}).1.toBool = true := by decide +kernel
  have hformula : (check .geometry ⟨[freeReading]⟩ {}).1.toBool = true := by decide +kernel
  have hboth : (match (check .geometry ⟨[zonedFunction, freeReading]⟩ {}).1 with
      | .ok _ => []
      | .error errors => errors.map (·.problem)) = [.zoneLocal "t"] := by decide +kernel
  split at hboth
  next => cases hboth
  next errors herrors => exact ⟨errors, hdefinition, hformula, herrors, hboth⟩

end Checker

end NodeFormula

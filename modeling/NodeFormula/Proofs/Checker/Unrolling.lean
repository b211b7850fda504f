import Mathlib.Data.Int.Range
import NodeFormula.Proofs.Checker.Hygiene

/-!
# Unrolled loops

A loop with a counter that is checked without errors gives the statements of the copies of its body, one
for each value of the counter, in which the counter is replaced by the value (`loop_unrolls`).

The body and a copy of it are checked from two states. In the first the counter is in scope with its
value, and in the second whatever had its name before the loop still has it (`Counting`). Expressions are
checked alike, failures included (`expr_mirrors`). Statements need not be: where `i` is the counter,
`i.x = e` fails in the body and may succeed in a copy. But what the body gives without errors the copy
gives too (`block_replays`).
-/

namespace NodeFormula

/-! ### Copies of a loop's body -/

mutual

/-- An expression with a whole number in place of a variable. -/
def Expr.subst (i : String) (k : Int64) : Expr → Expr
  | .int v s => .int v s
  | .float v s => .float v s
  | .bool v s => .bool v s
  | .str v s => .str v s
  | .name n s => if n = i then .int k s else .name n s
  | .vector items s => .vector (Expr.substAll i k items) s
  | .unary op e s => .unary op (e.subst i k) s
  | .binary op l r s => .binary op (l.subst i k) (r.subst i k) s
  | .call f args s => .call f (Expr.substAll i k args) s
  | .member e n s => .member (e.subst i k) n s

/-- Expressions with a whole number in place of a variable. -/
def Expr.substAll (i : String) (k : Int64) : List Expr → List Expr
  | [] => []
  | e :: es => e.subst i k :: Expr.substAll i k es

end

/-- A parameter with a whole number in place of a variable in its default. -/
def Param.subst (i : String) (k : Int64) (p : Param) : Param :=
  { p with default := p.default.map (Expr.subst i k) }

mutual

/-- A statement with a whole number in place of a variable in its expressions. -/
def Stmt.subst (i : String) (k : Int64) : Stmt → Stmt
  | .expr e s => .expr (e.subst i k) s
  | .assign targets e s => .assign targets (e.subst i k) s
  | .setField target field e s => .setField target field (e.subst i k) s
  | .loop counter first last body s => .loop counter first last (Stmt.substAll i k body) s
  | .zone count body s => .zone (count.subst i k) (Stmt.substAll i k body) s
  | .define h body s =>
    .define { h with inputs := h.inputs.map (Param.subst i k) } (Stmt.substAll i k body) s

/-- Statements with a whole number in place of a variable in their expressions. -/
def Stmt.substAll (i : String) (k : Int64) : List Stmt → List Stmt
  | [] => []
  | s :: ss => s.subst i k :: Stmt.substAll i k ss

end

mutual

/-- A statement does not assign to a variable and has no loop of its own that counts by it. Nothing is
asked of definitions, which may not stand in a loop. -/
def Stmt.Spares (i : String) : Stmt → Prop
  | .expr .. => True
  | .assign targets _ _ => ∀ span, .name i span ∉ targets
  | .setField .. => True
  | .loop counter _ _ body _ => counter ≠ some i ∧ Stmt.AllSpare i body
  | .zone _ body _ => Stmt.AllSpare i body
  | .define .. => True

/-- Statements do not assign to a variable and have no loop that counts by it. -/
def Stmt.AllSpare (i : String) : List Stmt → Prop
  | [] => True
  | s :: ss => s.Spares i ∧ Stmt.AllSpare i ss

end

/-! ### States and contexts of the body and of a copy -/

/-- Scopes with the same variables, but for one name. -/
def Scope.AgreeBeside (i : String) (a b : Scope) : Prop := ∀ n, n ≠ i → a.get? n = b.get? n

/-- States that agree on all but one name, which stands for `c` in the second. -/
structure Checker.AgreeBeside (i : String) (c : Option Binding) (s t : Checker) : Prop where
  scope : Scope.AgreeBeside i s.scope t.scope
  outer : t.scope.get? i = c
  functions : s.functions = t.functions
  zoneLocals : ∀ n, s.zoneLocals.contains n = t.zoneLocals.contains n
  assigned : s.assigned = t.assigned
  errors : s.errors = t.errors

/-- The state in which the body of a loop is checked for a value of its counter, and the state in which
the copy for this value is. -/
structure Checker.Counting (i : String) (k : Int64) (c : Option Binding) (s t : Checker) : Prop
    extends Checker.AgreeBeside i c s t where
  counter : s.scope.get? i = some (.counter k)

/-- A context in a loop, and the context of the same place in a copy. -/
structure Context.AgreeBeside (i : String) (ctx ctx' : Context) : Prop where
  eq : ctx' = { ctx with zones := ctx'.zones, nested := ctx'.nested }
  zones : List.Forall₂ (Scope.AgreeBeside i) ctx.zones ctx'.zones
  nested : ctx.topLevel = false

namespace Context.AgreeBeside

variable {i : String} {ctx ctx' : Context}

theorem of_loop (i : String) (ctx : Context) : ctx.inLoop.AgreeBeside i ctx :=
  ⟨rfl, List.forall₂_same.2 fun _ _ _ _ => rfl, Check.topLevel_inLoop ctx⟩

theorem inLoop (h : ctx.AgreeBeside i ctx') : ctx.inLoop.AgreeBeside i ctx'.inLoop :=
  ⟨by rw [h.eq]; rfl, h.zones, Check.topLevel_inLoop ctx⟩

theorem inZone (h : ctx.AgreeBeside i ctx') {a b : Scope} (hab : a.AgreeBeside i b) :
    (ctx.inZone a).AgreeBeside i (ctx'.inZone b) :=
  ⟨by rw [h.eq]; rfl, List.rel_append h.zones (.cons hab .nil), Check.topLevel_inZone ctx a⟩

/-- The definition around the body and around a copy is the same. -/
theorem enclosing (h : ctx.AgreeBeside i ctx') : ctx'.enclosing = ctx.enclosing := by rw [h.eq]

theorem output? (h : ctx.AgreeBeside i ctx') (n : String) : ctx'.output? n = ctx.output? n := by
  rw [Context.output?, Context.output?, h.enclosing]

theorem isEmpty_zones (h : ctx.AgreeBeside i ctx') : ctx'.zones.isEmpty = ctx.zones.isEmpty := by
  rw [Bool.eq_iff_iff, List.isEmpty_iff_length_eq_zero, List.isEmpty_iff_length_eq_zero,
    h.zones.length_eq]

end Context.AgreeBeside

theorem Table.contains_congr {κ ν : Type} [Ord κ] {t u : Table κ ν} {k : κ}
    (h : t.get? k = u.get? k) : t.contains k = u.contains k := by
  rw [Table.contains, Table.contains, h]

namespace Checker

variable {i : String} {k : Int64} {c : Option Binding} {s t : Checker}

/-- A state agrees with itself beside any name, with what it has for that name. -/
theorem AgreeBeside.refl (i : String) (s : Checker) : s.AgreeBeside i (s.scope.get? i) s :=
  ⟨fun _ _ => rfl, rfl, rfl, fun _ => rfl, rfl, rfl⟩

/-- Another variable is bound. -/
theorem Counting.bind (h : Counting i k c s t) {n : String} (hn : n ≠ i) (b : Binding) :
    Counting i k c { s with scope := s.scope.insert n b } { t with scope := t.scope.insert n b } := by
  refine ⟨{ h with scope := fun x hx => ?_, outer := ?_ }, ?_⟩
  · simp only [Table.get?_insert, h.scope x hx]
  · rw [Table.get?_insert, if_neg (Ne.symm hn)]
    exact h.outer
  · rw [Table.get?_insert, if_neg (Ne.symm hn)]
    exact h.counter

/-- A state with the next value of a loop's counter. -/
def atValue (counter : Option String) (v : Int64) (s : Checker) : Checker :=
  match counter with
  | some n => { s with scope := s.scope.insert n (.counter v) }
  | none => s

@[simp] theorem errors_atValue (counter : Option String) (v : Int64) (s : Checker) :
    (s.atValue counter v).errors = s.errors := by
  cases counter <;> rfl

/-- The counter gets its next value. -/
theorem AgreeBeside.count (h : s.AgreeBeside i c t) (k : Int64) :
    Counting i k c (s.atValue (some i) k) t := by
  refine ⟨{ h with scope := fun n hn => ?_ }, ?_⟩
  · rw [Checker.atValue, Table.get?_insert, if_neg hn]
    exact h.scope n hn
  · rw [Checker.atValue, Table.get?_insert, if_pos rfl]

/-- The counter of a loop in the body gets its next value. -/
theorem Counting.atValue (h : Counting i k c s t) {counter : Option String} (hc : counter ≠ some i)
    (v : Int64) : Counting i k c (s.atValue counter v) (t.atValue counter v) := by
  cases counter with
  | none => exact h
  | some n => exact h.bind (fun hn => hc (congrArg some hn)) _

/-- Leaving a zone. The counter was in scope before the zone, so its name is not one that the zone leaves
behind, and in the copy the name has not come into scope. -/
theorem Counting.leave {s₁ t₁ : Checker} (h : Counting i k c s t) (h₁ : Counting i k c s₁ t₁) :
    Counting i k c
      { s₁ with
        scope := s.scope
        zoneLocals :=
          (s₁.scope.keys.filter fun n => !s.scope.contains n && !s₁.zoneLocals.contains n) ++
            s₁.zoneLocals }
      { t₁ with
        scope := t.scope
        zoneLocals :=
          (t₁.scope.keys.filter fun n => !t.scope.contains n && !t₁.zoneLocals.contains n) ++
            t₁.zoneLocals } := by
  have hsame : ∀ n, (s₁.scope.contains n && !s.scope.contains n) =
      (t₁.scope.contains n && !t.scope.contains n) := by
    intro n
    by_cases hn : n = i
    · subst hn
      simp [Table.contains, h.counter, h.outer, h₁.outer]
    · rw [Table.contains_congr (h.scope n hn), Table.contains_congr (h₁.scope n hn)]
  refine ⟨{ h₁ with scope := h.scope, outer := h.outer, zoneLocals := fun n => ?_ }, h.counter⟩
  have hz := h₁.zoneLocals n
  have hn := hsame n
  rw [Bool.eq_iff_iff] at hz hn ⊢
  simp only [List.contains_iff_mem, List.mem_append, List.mem_filter, Table.mem_keys_iff,
    Bool.and_eq_true, ← and_assoc] at hz hn ⊢
  rw [hn, h₁.zoneLocals n, hz]

end Checker

namespace Check

open Checker (Counting)

/-! ### Steps that mirror each other -/

section
variable {α β : Type} {R : Checker → Checker → Prop}

/-- Two steps answer alike in states that satisfy `R`, and leave states that do. -/
structure Mirrors (R : Checker → Checker → Prop) (x y : Check α) : Prop where
  alike : ∀ s t, R s t → Alike R (x s) (y t)

namespace Mirrors

theorem of_steady {x y : Check α} (hx : Steady R x) (h : y = x) : Mirrors R x y :=
  ⟨fun s t hst => h ▸ hx.alike s t hst⟩

/-- Two steps in a row mirror two others if each mirrors its counterpart for every value. -/
theorem bind {x y : Check α} {f g : α → Check β} (hx : Mirrors R x y)
    (hf : ∀ a, Mirrors R (f a) (g a)) : Mirrors R (x >>= f) (y >>= g) := by
  refine ⟨fun s t h => ?_⟩
  change Alike R (EStateM.bind x f s) (EStateM.bind y g t)
  unfold EStateM.bind
  have hst := hx.alike s t h
  revert hst
  generalize x s = r
  generalize y t = r'
  rintro (⟨a, h₁⟩ | ⟨e, h₁⟩)
  · exact (hf _).alike _ _ h₁
  · exact .error _ h₁

/-- Steps that look at the state first. -/
theorem look {f g : Checker → Check α} (hf : ∀ s t, R s t → Alike R (f s s) (g t t)) :
    Mirrors R (get >>= f) (get >>= g) := ⟨hf⟩

/-- A test that may fail, before a step. -/
theorem guard {c : Prop} [Decidable c] {problem : Problem} {span : Span} {f g : Unit → Check α}
    {x y : Check α} (hx : Mirrors R x y) :
    Mirrors R (if c then fail problem span >>= f else x) (if c then fail problem span >>= g else y) := by
  split
  · exact ⟨fun _ _ h => .error _ h⟩
  · exact hx

end Mirrors

end

section
variable {i : String} {k : Int64} {c : Option Binding} {ctx ctx' : Context}

theorem unknownName_beside (hctx : ctx.AgreeBeside i ctx') {s t : Checker} (h : Counting i k c s t)
    (n : String) : unknownName ctx' t n = unknownName ctx s n := by
  unfold unknownName
  rw [hctx.output?, hctx.isEmpty_zones, hctx.enclosing, h.zoneLocals n]

theorem bind_counting {n : String} (hn : n ≠ i) (b : Binding) :
    Steady (Counting i k c) (Check.bind n b) :=
  .modify fun _ _ h => h.bind hn b

/-- Another name than the counter is read alike in the body and in a copy. -/
theorem name_mirrors (hctx : ctx.AgreeBeside i ctx') {n : String} (hn : n ≠ i) (span : Span) :
    Mirrors (Counting i k c) (name ctx n span) (name ctx' n span) := by
  refine .look fun s t h => ?_
  rw [h.scope n hn, h.zoneLocals n, unknownName_beside hctx h, hctx.enclosing, hctx.isEmpty_zones]
  cases t.scope.get? n with
  | some b =>
    obtain ⟨_, _, _, constant⟩ := b
    cases constant with
    | some v => exact .ok _ h
    | none => exact .ok _ h
  | none =>
    simp only
    split
    next => exact .error _ h
    next => exact (Steady.bind (bind_counting hn _) fun _ => .pure _).alike s t h

theorem name_counter {s : Checker} (h : s.scope.get? i = some (.counter k)) (span : Span) :
    name ctx i span s = .ok (.ofConstant (.int k) span) s := by
  refine bind_ok.2 ⟨s, s, rfl, ?_⟩
  rw [h]
  rfl

/-- The counter in the body, and its value in a copy. -/
theorem counter_mirrors (span : Span) :
    Mirrors (Counting i k c) (name ctx i span) (expr ctx' (.int k span)) := by
  refine ⟨fun s t h => ?_⟩
  rw [name_counter h.counter]
  exact .ok _ h

/-- A call is checked alike, since a counter is no function. The arguments have been checked before,
and a constant in place of the counter has the same type. -/
theorem call_mirrors (hctx : ctx.AgreeBeside i ctx') (f : String) (args : List TypedExpr)
    (span : Span) : Mirrors (Counting i k c) (call ctx f args span) (call ctx' f args span) := by
  have heq : call ctx' f args span = call ctx f args span := by
    rw [hctx.eq]
    rfl
  refine .of_steady (.look fun s t h => ?_) heq
  rw [h.functions]
  cases t.functions.get? f with
  | some function => exact (functionCall_steady function args span).alike s t h
  | none =>
    refine (Steady.guard ?_).alike s t h
    exact .bind (valueTypes_steady args) fun _ => .bind (.require _ _ _) fun _ => .pure _

theorem length_substAll (i : String) (k : Int64) (es : List Expr) :
    (Expr.substAll i k es).length = es.length := by
  induction es with
  | nil => rfl
  | cons e es ih => exact congrArg (· + 1) ih

mutual

/-- An expression and its copy are checked alike, failures included. The induction is on the
expression, and the counter is where the two differ. -/
theorem expr_mirrors (hctx : ctx.AgreeBeside i ctx') : (e : Expr) →
    Mirrors (Counting i k c) (expr ctx e) (expr ctx' (e.subst i k))
  | .int .. | .float .. | .bool .. | .str .. => .of_steady (.pure _) rfl
  | .name n s => by
    rw [Expr.subst]
    split
    next h =>
      subst h
      exact counter_mirrors s
    next h => exact name_mirrors hctx h s
  | .vector items s => by
    rw [Expr.subst, expr, expr, length_substAll]
    exact .bind (.of_steady (.require _ _ _) rfl) fun type => .bind (exprs_mirrors hctx items)
      fun checked => .of_steady (vector_steady type checked s) (by rw [hctx.eq]; rfl)
  | .unary op e s =>
    .bind (expr_mirrors hctx e) fun operand =>
      .of_steady (unary_steady op operand s) (by rw [hctx.eq]; rfl)
  | .binary op l r s =>
    .bind (expr_mirrors hctx l) fun left => .bind (expr_mirrors hctx r) fun right =>
      .of_steady (binary_steady op left right s) (by rw [hctx.eq]; rfl)
  | .call f args s => .bind (exprs_mirrors hctx args) fun checked => call_mirrors hctx f checked s
  | .member e n s =>
    .bind (expr_mirrors hctx e) fun value =>
      .of_steady (member_steady value n s) (by rw [hctx.eq]; rfl)

theorem exprs_mirrors (hctx : ctx.AgreeBeside i ctx') : (es : List Expr) →
    Mirrors (Counting i k c) (exprs ctx es) (exprs ctx' (Expr.substAll i k es))
  | [] => .of_steady (.pure _) rfl
  | e :: es =>
    .bind (expr_mirrors hctx e) fun _ => .bind (exprs_mirrors hctx es) fun _ => .of_steady (.pure _) rfl

end

/-! ### Assignments -/

theorem zoneProblem?_beside (hctx : ctx.AgreeBeside i ctx') {n : String} (hn : n ≠ i) (b : Binding) :
    zoneProblem? ctx' n b = zoneProblem? ctx n b := by
  unfold zoneProblem?
  have hzones := hctx.zones
  generalize ctx.zones = zones at hzones
  generalize ctx'.zones = zones' at hzones
  induction hzones with
  | nil => rfl
  | cons hscope _ ih => rw [List.findSome?_cons, List.findSome?_cons, hscope n hn, ih]

/-- Assigning another target than the counter does not depend on which of the two contexts it is
in. -/
theorem assignTarget_beside (hctx : ctx.AgreeBeside i ctx') {target : Target}
    (ht : ∀ span, target ≠ .name i span) (b : Binding) :
    assignTarget ctx' target b = assignTarget ctx target b := by
  cases target with
  | ignore => rfl
  | name n span =>
    have hn : n ≠ i := by
      rintro rfl
      exact ht span rfl
    simp only [assignTarget, hctx.output?, hctx.isEmpty_zones, zoneProblem?_beside hctx hn]

/-- Assigning another target than the counter keeps the states related: both bind the same name, or
set the same output, and the counter is left as it is. -/
theorem assignTarget_counting {target : Target} (ht : ∀ span, target ≠ .name i span) (b : Binding) :
    Steady (Counting i k c) (assignTarget ctx target b) := by
  cases target with
  | ignore => exact .pure _
  | name n span =>
    have hn : n ≠ i := by
      rintro rfl
      exact ht span rfl
    unfold assignTarget
    simp only
    cases ctx.output? n with
    | some o =>
      refine .guard (.bind (.require _ _ _) fun _ => .guard (.bind (.modify fun s t h => ?_)
        fun _ => .pure _))
      exact { h with assigned := congrArg (o.2.1 :: ·) h.assigned }
    | none =>
      cases zoneProblem? ctx n b with
      | some problem => exact .fail _ _
      | none => exact .bind (bind_counting hn _) fun _ => .pure _

theorem assignOne_mirrors (hctx : ctx.AgreeBeside i ctx') {target : Target}
    (ht : ∀ span, target ≠ .name i span) (e : TypedExpr) :
    Mirrors (Counting i k c) (assignOne ctx target e) (assignOne ctx' target e) := by
  refine .of_steady (assignOne_steady (assignTarget_counting ht) e) ?_
  simp only [assignOne, assignTarget_beside hctx ht, hctx.enclosing]
  rw [hctx.eq]
  rfl

/-- The components of a constant are assigned alike in both contexts, none of them to the counter. -/
theorem assignComponents_beside (hctx : ctx.AgreeBeside i ctx') {targets : List Target}
    (ht : ∀ t ∈ targets, ∀ span, t ≠ .name i span) (type : SocketType) (v : Constant) (span : Span)
    (index : Nat) :
    assignComponents ctx' type v span index targets = assignComponents ctx type v span index targets := by
  induction targets generalizing index with
  | nil => rfl
  | cons target targets ih =>
    have hconstant : ∀ t e, checkConstant ctx' t e = checkConstant ctx t e := by
      intro t e
      rw [hctx.eq]
      rfl
    simp only [assignComponents, assignTarget_beside hctx (ht _ (.head _)), hconstant,
      ih fun t h => ht t (.tail _ h)]

/-- Parts are bound alike in both contexts, none of them to the counter. The contexts differ in the
counter alone, by which a zone might be kept from binding it. -/
theorem assignParts_beside (hctx : ctx.AgreeBeside i ctx') {targets : List Target}
    (ht : ∀ t ∈ targets, ∀ span, t ≠ .name i span) (types : List SocketType) :
    assignParts ctx' targets types = assignParts ctx targets types := by
  induction targets generalizing types with
  | nil => rfl
  | cons target targets ih =>
    cases types with
    | nil => rfl
    | cons type types =>
      simp only [assignParts, assignTarget_beside hctx (ht _ (.head _)),
        ih fun t h => ht t (.tail _ h)]

theorem assignMany_mirrors (hctx : ctx.AgreeBeside i ctx') {targets : List Target}
    (ht : ∀ t ∈ targets, ∀ span, t ≠ .name i span) (e : TypedExpr) (type : SocketType) :
    Mirrors (Counting i k c) (assignMany ctx targets e type) (assignMany ctx' targets e type) := by
  refine .of_steady (assignMany_steady (fun t h => assignTarget_counting (ht t h)) e type) ?_
  have htree : ctx'.tree = ctx.tree := by rw [hctx.eq]
  simp only [assignMany, assignComponents_beside hctx ht, assignParts_beside hctx ht, htree]

/-- An assignment is mirrored by its copy, if the counter is none of the targets: the values mirror
each other, and then the targets do. -/
theorem assign_mirrors (hctx : ctx.AgreeBeside i ctx') {targets : List Target}
    (ht : ∀ span, .name i span ∉ targets) (e : Expr) :
    Mirrors (Counting i k c) (assign ctx targets e) (assign ctx' targets (e.subst i k)) := by
  have htargets : ∀ t ∈ targets, ∀ span, t ≠ .name i span := by
    rintro _ h span rfl
    exact ht span h
  refine .bind (expr_mirrors hctx e) fun value => .bind (.of_steady (valueType_steady value) rfl)
    fun type => ?_
  split
  · exact assignOne_mirrors hctx (htargets _ (.head _)) value
  · exact assignMany_mirrors hctx htargets value type

/-- An assignment to a component of another variable than the counter is mirrored by its copy. -/
theorem setField_mirrors (hctx : ctx.AgreeBeside i ctx') {target : String} (ht : target ≠ i)
    (field : String) (e : Expr) (span : Span) :
    Mirrors (Counting i k c) (setField ctx target field e span)
      (setField ctx' target field (e.subst i k) span) := by
  have htree : ctx'.tree = ctx.tree := by rw [hctx.eq]
  refine .look fun s t h => ?_
  rw [Table.contains_congr (h.scope target ht), unknownName_beside hctx h, htree]
  refine (Mirrors.guard ?_).alike s t h
  exact .bind (name_mirrors hctx ht _) fun object =>
    .bind (.of_steady (valueType_steady object) rfl) fun _ =>
      .bind (.of_steady (.require _ _ _) rfl) fun _ => .bind (expr_mirrors hctx e) fun value =>
        .bind (.of_steady (valueType_steady value) rfl) fun _ =>
          .guard (.of_steady (.pure _) rfl)

/-- A counter is a whole number and has no components, so an assignment to one of its components is
an error. -/
theorem setField_counter {field : String} {e : Expr} {span : Span} {s s' : Checker}
    {out : List TypedStmt} (hs : s.scope.get? i = some (.counter k)) :
    setField ctx i field e span s ≠ .ok out s' := by
  intro h
  obtain ⟨_, _, hget, h⟩ := bind_ok.1 h
  obtain ⟨rfl, rfl⟩ := get_ok.1 hget
  obtain ⟨-, h⟩ := guard_ok.1 h
  obtain ⟨object, _, hname, h⟩ := bind_ok.1 h
  rw [name_counter hs] at hname
  cases hname
  obtain ⟨type, _, htype, h⟩ := bind_ok.1 h
  obtain ⟨htype, rfl⟩ := valueType_ok.1 htype
  cases htype
  obtain ⟨part, _, hpart, -⟩ := bind_ok.1 h
  obtain ⟨hpart, -⟩ := require_ok.1 hpart
  have hnone : Component.lookup? ctx.tree .int field = none := by
    cases ctx.tree with
    | _ => rfl
  cases hnone.symm.trans hpart

end

/-! ### Steps that are replayed without errors -/

/-- A step that has noted no errors has noted none on the way. -/
theorem errors_between {s s₁ s' : Checker} (h₁ : s.errors <+: s₁.errors) (h₂ : s₁.errors <+: s'.errors)
    (h : s'.errors = s.errors) : s₁.errors = s.errors := by
  rw [h] at h₂
  exact (h₁.sublist.antisymm h₂.sublist).symm

section
variable {α β : Type} {R : Checker → Checker → Prop}

/-- What the first step gives without noting an error the second gives too, from states that satisfy `R`,
and they leave states that do. -/
structure Replays (R : Checker → Checker → Prop) (x y : Check α) : Prop where
  monotone : Monotone false x
  run : ∀ s t a s', R s t → x s = .ok a s' → s'.errors = s.errors → ∃ t', y t = .ok a t' ∧ R s' t'

theorem Mirrors.replays {x y : Check α} (h : Mirrors R x y) (hx : Monotone false x) :
    Replays R x y := by
  refine ⟨hx, fun s t a s' hst hs _ => ?_⟩
  have hr := h.alike s t hst
  rw [hs] at hr
  generalize hy : y t = r at hr
  cases hr with
  | ok _ ht => exact ⟨_, rfl, ht⟩

namespace Replays

theorem pure (a : α) : Replays R (pure a) (pure a) := by
  refine ⟨.pure a, fun s t b s' hst hs _ => ?_⟩
  obtain ⟨rfl, rfl⟩ := pure_ok.1 hs
  exact ⟨t, rfl, hst⟩

/-- Two steps in a row are replayed if each is. If the whole notes no error then neither part
does. -/
theorem bind {x y : Check α} {f g : α → Check β} (hx : Replays R x y)
    (hf : ∀ a, Replays R (f a) (g a)) : Replays R (x >>= f) (y >>= g) := by
  refine ⟨.bind hx.monotone fun a => (hf a).monotone, fun s t b s' hst hs hclean => ?_⟩
  obtain ⟨a, s₁, hs₁, hs⟩ := bind_ok.1 hs
  have hfirst := (hx.monotone.grows hs₁).errors
  have hsecond := ((hf a).monotone.grows hs).errors
  have hclean₁ := errors_between hfirst hsecond hclean
  obtain ⟨t₁, ht₁, hst₁⟩ := hx.run s t a s₁ hst hs₁ hclean₁
  obtain ⟨t', ht', hst'⟩ := (hf a).run s₁ t₁ b s' hst₁ hs (hclean.trans hclean₁.symm)
  exact ⟨t', bind_ok.2 ⟨a, t₁, ht₁, ht'⟩, hst'⟩

/-- A test that may fail, before a step. The first step has not failed there. -/
theorem guard {c : Prop} [Decidable c] {p q : Problem} {span span' : Span} {f g : Unit → Check α}
    {x y : Check α} (hx : Replays R x y) :
    Replays R (if c then fail p span >>= f else x) (if c then fail q span' >>= g else y) := by
  split
  · refine ⟨⟨fun s => .refl s⟩, fun s t a s' _ hs _ => ?_⟩
    cases hs
  · exact hx

/-- A failure would have been noted. A run without errors has therefore not failed, and is replayed
as it is. -/
theorem recover {x y : Check (List TypedStmt)} (hx : Replays R x y) :
    Replays R (recover x) (recover y) := by
  refine ⟨.recover hx.monotone, fun s t a s' hst hs hclean => ?_⟩
  have hafter := (hx.monotone.grows_after s).errors
  unfold Check.recover at hs ⊢
  cases hxs : x s with
  | ok b s₁ =>
    rw [hxs] at hs
    cases hs
    obtain ⟨t', ht, hst'⟩ := hx.run s t a s' hst hxs hclean
    exact ⟨t', by rw [ht], hst'⟩
  | error e s₁ =>
    rw [hxs] at hs
    cases hs
    rw [after, hxs] at hafter
    change s.errors <+: s₁.errors at hafter
    have hlength := congrArg List.length hclean
    rw [List.length_append, List.length_singleton] at hlength
    have hle := hafter.length_le
    omega

end Replays

end

/-! ### Loops -/

section
variable {body : Check (List TypedStmt)} {counter : Option String} {values : List Int64} {v : Int64}
  {s s' s₁ : Checker} {out first more : List TypedStmt}

theorem unroll_cons (counter : Option String) (body : Check (List TypedStmt)) (v : Int64)
    (values : List Int64) (s : Checker) :
    unroll counter body (v :: values) s = (do
      let first ← body
      if s.errors.length < (← get).errors.length then
        return first
      else
        let more ← unroll counter body values
        return first ++ more : Check (List TypedStmt)) (s.atValue counter v) := by
  cases counter <;> rfl

/-- Without errors a loop goes on to its last value: it is a first round, which adds no errors, and
then the loop over the other values. Errors are never taken back, so none in the end is none in
between. -/
theorem unroll_clean (hb : Monotone false body)
    (h : unroll counter body (v :: values) s = .ok out s') (hclean : s'.errors = s.errors) :
    ∃ first more s₁, body (s.atValue counter v) = .ok first s₁ ∧ s₁.errors = s.errors ∧
      unroll counter body values s₁ = .ok more s' ∧ out = first ++ more := by
  rw [unroll_cons] at h
  obtain ⟨first, s₁, hfirst, h⟩ := bind_ok.1 h
  obtain ⟨_, _, hget, h⟩ := bind_ok.1 h
  obtain ⟨rfl, rfl⟩ := get_ok.1 hget
  have herrors : s.errors <+: s₁.errors := by
    rw [← Checker.errors_atValue counter v s]
    exact (hb.grows hfirst).errors
  split at h
  next hlt =>
    obtain ⟨-, rfl⟩ := pure_ok.1 h
    rw [hclean] at hlt
    exact absurd hlt (Nat.lt_irrefl _)
  next =>
    obtain ⟨more, _, hmore, h⟩ := bind_ok.1 h
    obtain ⟨rfl, rfl⟩ := pure_ok.1 h
    have hlater := ((unroll_monotone counter hb values).grows hmore).errors
    exact ⟨first, more, s₁, hfirst, errors_between herrors hlater hclean, hmore, rfl⟩

theorem unroll_of_clean (hfirst : body (s.atValue counter v) = .ok first s₁)
    (hclean : s₁.errors = s.errors) (hmore : unroll counter body values s₁ = .ok more s') :
    unroll counter body (v :: values) s = .ok (first ++ more) s' := by
  rw [unroll_cons]
  refine bind_ok.2 ⟨first, s₁, hfirst, bind_ok.2 ⟨s₁, s₁, rfl, ?_⟩⟩
  rw [hclean, if_neg (Nat.lt_irrefl _)]
  exact bind_ok.2 ⟨more, s', hmore, rfl⟩

end

section
variable {i : String} {k : Int64} {c : Option Binding} {ctx ctx' : Context}

/-- A loop in the body, which counts by another variable, is replayed round by round. The induction
is on its values. -/
theorem unroll_replays {counter : Option String} (hc : counter ≠ some i)
    {body body' : Check (List TypedStmt)} (hb : Replays (Counting i k c) body body')
    (values : List Int64) :
    Replays (Counting i k c) (unroll counter body values) (unroll counter body' values) := by
  refine ⟨unroll_monotone counter hb.monotone values, ?_⟩
  induction values with
  | nil => exact (Replays.pure []).run
  | cons v values ih =>
    intro s t out s' hst hs hclean
    obtain ⟨first, more, s₁, hfirst, hclean₁, hmore, rfl⟩ := unroll_clean hb.monotone hs hclean
    obtain ⟨t₁, ht₁, hst₁⟩ := hb.run _ _ first s₁ (hst.atValue hc v) hfirst
      (by rw [Checker.errors_atValue]; exact hclean₁)
    obtain ⟨t', ht', hst'⟩ := ih s₁ t₁ more s' hst₁ hmore (hclean.trans hclean₁.symm)
    have hclean' : t₁.errors = t.errors := by
      rw [← hst₁.errors, hclean₁, hst.errors]
    exact ⟨t', unroll_of_clean ht₁ hclean' ht', hst'⟩

/-- A zone in the body is replayed by the zone in the copy, if its body is for any two scopes that
agree beside the counter. -/
theorem inZone_replays {body body' : Context → Check (List TypedStmt)}
    (hb : ∀ a b : Scope, a.AgreeBeside i b →
      Replays (Counting i k c) (body (ctx.inZone a)) (body' (ctx'.inZone b))) :
    Replays (Counting i k c) (inZone ctx body) (inZone ctx' body') := by
  refine ⟨inZone_monotone fun scope => (hb scope scope fun _ _ => rfl).monotone,
    fun s t out s' hst hs hclean => ?_⟩
  obtain ⟨_, _, hget, hs⟩ := bind_ok.1 hs
  obtain ⟨rfl, rfl⟩ := get_ok.1 hget
  obtain ⟨stmts, s₁, hbody, hs⟩ := bind_ok.1 hs
  obtain ⟨_, _, hmodify, hs⟩ := bind_ok.1 hs
  obtain rfl := modify_ok.1 hmodify
  obtain ⟨rfl, rfl⟩ := pure_ok.1 hs
  obtain ⟨t₁, ht₁, hst₁⟩ := (hb s.scope t.scope hst.scope).run s t stmts s₁ hst hbody hclean
  refine ⟨_, ?_, hst.leave hst₁⟩
  exact bind_ok.2 ⟨t, t, rfl, bind_ok.2 ⟨stmts, t₁, ht₁, rfl⟩⟩

/-! ### Statements -/

mutual

/-- What a statement of the body gives without errors its copy gives too, by induction on the
statement. The statement may not rebind the counter or define anything. -/
theorem stmt_replays : (st : Stmt) → ∀ {ctx ctx' : Context}, ctx.AgreeBeside i ctx' → st.Spares i →
    Replays (Counting i k c) (stmt ctx st) (stmt ctx' (st.subst i k))
  | .expr e _, _, _, hctx, _ =>
    .bind ((expr_mirrors hctx e).replays (expr_monotone e)) fun _ => .pure _
  | .assign targets e _, _, _, hctx, h =>
    (assign_mirrors hctx h e).replays (assign_monotone targets e)
  | .setField target field e s, _, _, hctx, _ => by
    by_cases ht : target = i
    · subst ht
      exact ⟨setField_monotone .., fun _ _ _ _ hst hs _ => absurd hs (setField_counter hst.counter)⟩
    · exact (setField_mirrors hctx ht field e s).replays (setField_monotone ..)
  | .loop _ _ _ body _, _, _, hctx, h =>
    .guard (unroll_replays h.1 (block_replays body hctx.inLoop h.2) _)
  | .zone count body _, ctx, ctx', hctx, h => by
    have htree : ctx'.tree = ctx.tree := by rw [hctx.eq]
    have hzone : Replays (Counting i k c) (inZone ctx fun inner => block inner body)
        (inZone ctx' fun inner => block inner (Stmt.substAll i k body)) :=
      inZone_replays fun a b hab => block_replays body (hctx.inZone hab) h
    rw [Stmt.subst, stmt, stmt, htree]
    exact .guard (.bind ((expr_mirrors hctx count).replays (expr_monotone count)) fun value =>
      .bind ((Mirrors.of_steady (valueType_steady value) rfl).replays (valueType_monotone value))
        fun _ => .guard (.bind hzone fun _ => .pure _))
  | .define h body s, ctx, _, hctx, _ => by
    refine ⟨hctx.nested ▸ stmt_monotone (.define h body s) ctx, fun s t a s' _ hs _ => ?_⟩
    obtain ⟨_, _, hdefine, -⟩ := bind_ok.1 hs
    obtain ⟨htop, -⟩ := guard_ok.1 hdefine
    rw [hctx.nested] at htop
    exact absurd rfl htop

/-- What the body of a loop gives without errors, a copy of it gives too. -/
theorem block_replays : (ss : List Stmt) → ∀ {ctx ctx' : Context}, ctx.AgreeBeside i ctx' →
    Stmt.AllSpare i ss →
    Replays (Counting i k c) (block ctx ss) (block ctx' (Stmt.substAll i k ss))
  | [], _, _, _, _ => .pure _
  | st :: ss, _, _, hctx, h =>
    .bind (.recover (stmt_replays st hctx h.1)) fun _ =>
      .bind (block_replays ss hctx h.2) fun _ => .pure _

end

/-! ### Loops and copies -/

/-- Checking the copies of a loop's body one after the other gives what the loop gives. -/
theorem unroll_copies {body : Check (List TypedStmt)} {copy : Int64 → Check (List TypedStmt)}
    (hb : ∀ v, Replays (Counting i v c) body (copy v)) {values : List Int64} {s t s' : Checker}
    {out : List TypedStmt} (hst : s.AgreeBeside i c t) (hs : unroll (some i) body values s = .ok out s')
    (hclean : s'.errors = s.errors) :
    ∃ copies t', values.mapM copy t = .ok copies t' ∧ out = copies.flatten ∧ s'.AgreeBeside i c t' := by
  induction values generalizing s t out with
  | nil =>
    obtain ⟨rfl, rfl⟩ := pure_ok.1 hs
    exact ⟨[], t, rfl, rfl, hst⟩
  | cons v values ih =>
    obtain ⟨first, more, s₁, hfirst, hclean₁, hmore, rfl⟩ := unroll_clean (hb v).monotone hs hclean
    obtain ⟨t₁, ht₁, hst₁⟩ := (hb v).run _ _ first s₁ (hst.count v) hfirst
      (by rw [Checker.errors_atValue]; exact hclean₁)
    obtain ⟨copies, t', ht', rfl, hst'⟩ := ih hst₁.toAgreeBeside hmore (hclean.trans hclean₁.symm)
    refine ⟨first :: copies, t', ?_, rfl, hst'⟩
    rw [List.mapM_cons]
    exact bind_ok.2 ⟨first, t₁, ht₁, bind_ok.2 ⟨copies, t', ht', rfl⟩⟩

/-- The values of a counter are the numbers from the first bound to the last, also where the last is the
largest number. -/
theorem toInt_counterValues (first last : Int64) :
    (counterValues first last).map Int64.toInt = Int.range first.toInt (last.toInt + 1) := by
  have hcount : last.toInt + 1 - first.toInt = last.toInt - first.toInt + 1 := by omega
  rw [counterValues, Int.range, List.map_map, hcount]
  refine List.map_congr_left fun j hj => ?_
  have hlt := List.mem_range.1 hj
  have hfirst := first.le_toInt
  have hlast := last.toInt_lt
  exact Int64.toInt_ofInt_of_le (by omega) (by omega)

/-- A loop is its copies. If checking a loop notes no error and the body neither assigns to the counter nor
counts by it again, then the loop gives the statements of the copies of its body, with the values of the
counter in its place, when these are checked one after the other from the state before the loop. The
states afterwards agree on all but the name of the counter, which stands for what it did before. -/
theorem loop_unrolls {ctx : Context} {i : String} {first last : Int64} {body : List Stmt} {span : Span}
    {s s' : Checker} {out : List TypedStmt}
    (h : stmt ctx (.loop (some i) first last body span) s = .ok out s')
    (hclean : s'.errors = s.errors) (hbody : Stmt.AllSpare i body) :
    ∃ (values : List Int64) (copies : List (List TypedStmt)) (t' : Checker),
      values.map Int64.toInt = Int.range first.toInt (last.toInt + 1) ∧
      values.mapM (fun k => block ctx (Stmt.substAll i k body)) s = .ok copies t' ∧
      out = copies.flatten ∧ s'.AgreeBeside i (s.scope.get? i) t' := by
  obtain ⟨-, h⟩ := guard_ok.1 h
  obtain ⟨copies, t', hcopies, hout, hst⟩ := unroll_copies
    (fun v => block_replays body (.of_loop i ctx) hbody) (.refl i s) h hclean
  exact ⟨counterValues first last, copies, t', toInt_counterValues first last, hcopies, hout, hst⟩

end

/-- A body that reads the counter `i` and a free variable, with a loop and a zone of its own. -/
def countingBody : List Stmt :=
  [.assign [.name "a" ⟨0, 0⟩] (.binary .add (.name "b" ⟨0, 0⟩) (.name "i" ⟨0, 0⟩) ⟨0, 0⟩) ⟨0, 0⟩,
    .loop (some "j") 0 1
      [.assign [.name "a" ⟨0, 0⟩] (.binary .mul (.name "a" ⟨0, 0⟩) (.name "j" ⟨0, 0⟩) ⟨0, 0⟩) ⟨0, 0⟩]
      ⟨0, 0⟩,
    .zone (.name "i" ⟨0, 0⟩)
      [.assign [.name "a" ⟨0, 0⟩] (.binary .sub (.name "a" ⟨0, 0⟩) (.name "i" ⟨0, 0⟩) ⟨0, 0⟩) ⟨0, 0⟩]
      ⟨0, 0⟩]

/-- The loop over the two largest numbers, where the name of its counter stands for a vector before.
The counter does not overflow behind its last value, and the copies leave the vector as it is. -/
theorem loop_unrolls_countingBody : ∃ (out : List TypedStmt) (s' : Checker),
    stmt { tree := .geometry } (.loop (some "i") (Int64.maxValue - 1) Int64.maxValue countingBody ⟨0, 0⟩)
      { scope := Table.ofList [("i", .value .vec3)] } = .ok out s' ∧
    s'.errors = [] ∧ Stmt.AllSpare "i" countingBody ∧
    ∃ (values : List Int64) (copies : List (List TypedStmt)) (t' : Checker),
      values.map Int64.toInt = [9223372036854775806, 9223372036854775807] ∧
      values.mapM (fun k => block { tree := .geometry } (Stmt.substAll "i" k countingBody))
        { scope := Table.ofList [("i", .value .vec3)] } = .ok copies t' ∧
      out = copies.flatten ∧ t'.scope.get? "i" = some (.value .vec3) := by
  let loop : Check (List TypedStmt) := stmt { tree := .geometry }
    (.loop (some "i") (Int64.maxValue - 1) Int64.maxValue countingBody ⟨0, 0⟩)
  have hok : (Checker.finish loop { scope := Table.ofList [("i", .value .vec3)] }).1.toBool = true := by
    decide +kernel
  have hspares : Stmt.AllSpare "i" countingBody := by
    simp [countingBody, Stmt.AllSpare, Stmt.Spares]
  cases hrun : Checker.finish loop { scope := Table.ofList [("i", .value .vec3)] } with
  | mk result s' =>
    rw [hrun] at hok
    cases result with
    | error errors => cases hok
    | ok out =>
      obtain ⟨hstmt, hclean⟩ := Checker.finish_ok hrun
      obtain ⟨values, copies, t', hvalues, hcopies, hout, hst⟩ := loop_unrolls hstmt hclean hspares
      exact ⟨out, s', hstmt, hclean, hspares, values, copies, t', hvalues.trans (by decide), hcopies,
        hout, hst.outer⟩

end Check

end NodeFormula

import NodeFormula.Proofs.Checker.Unrolling

/-!
# Free variables in checked formulas

The variables of a formula are accessed in an order: a free variable is created where it is read first,
and all variables are read and bound. `TypedStmt.accesses` lists what a statement does to the variables
of its own scope, in the order in which its ops will do it. In the statements of a formula that is
checked without errors, no variable is created after another access to it (`check_accesses`). So each
is created once at most, and first.

The checker has met every name that was accessed so far: it is in scope, or a zone has left it behind
(`Checker.Met`). It creates variables that it has not met, and forgets no name that it has.
-/

namespace NodeFormula

/-! ### Accesses -/

/-- What is done to a variable. -/
inductive Access where
  /-- A free variable gets its node. -/
  | create (name : String)
  /-- A variable is read or bound. -/
  | use (name : String)
deriving DecidableEq

namespace Access

/-- The variable that is accessed. -/
def name : Access → String
  | create n => n
  | use n => n

/-- An access may come after another one, unless it creates the same variable. -/
def MayPrecede (a b : Access) : Prop := b ≠ .create a.name

end Access

mutual

/-- The accesses of an expression in its own scope, which the body of a definition is not part of. -/
def TypedExpr.accesses : TypedExpr → List Access
  | .constant .. => []
  | .var x fresh _ => if fresh then [.create x, .use x] else [.use x]
  | .node _ args _ => TypedExpr.allAccesses args
  | .call _ args _ => TypedExpr.allAccesses args
  | .output e _ _ => e.accesses
  | .component e _ _ => e.accesses

/-- The accesses of expressions. -/
def TypedExpr.allAccesses : List TypedExpr → List Access
  | [] => []
  | e :: es => e.accesses ++ TypedExpr.allAccesses es

end

/-- The access of an assignment to a target. -/
def TypedTarget.accesses : TypedTarget → List Access
  | .var x => [.use x]
  | .output _ => []
  | .ignore => []

mutual

/-- The accesses of a statement. Targets are bound from the last to the first, and where a component is
assigned the value comes before the object. -/
def TypedStmt.accesses : TypedStmt → List Access
  | .expr e => e.accesses
  | .assign targets e => e.accesses ++ targets.reverse.flatMap TypedTarget.accesses
  | .setField target object _ value => value.accesses ++ object.accesses ++ [.use target]
  | .zone count body => count.accesses ++ TypedStmt.allAccesses body

/-- The accesses of statements. -/
def TypedStmt.allAccesses : List TypedStmt → List Access
  | [] => []
  | s :: ss => s.accesses ++ TypedStmt.allAccesses ss

end

theorem TypedStmt.allAccesses_append (a b : List TypedStmt) :
    TypedStmt.allAccesses (a ++ b) = TypedStmt.allAccesses a ++ TypedStmt.allAccesses b := by
  induction a with
  | nil => rfl
  | cons s ss ih => rw [List.cons_append, allAccesses, allAccesses, ih, List.append_assoc]

/-- An assignment to one target. -/
theorem TypedStmt.allAccesses_assign (t : TypedTarget) (e : TypedExpr) :
    TypedStmt.allAccesses [.assign [t] e] = e.accesses ++ t.accesses := by
  simp [allAccesses, accesses]

theorem TypedExpr.accesses_of_constant {e : TypedExpr} (h : e.constant?.isSome) : e.accesses = [] := by
  cases e with
  | constant => rfl
  | _ => cases h

/-- A conversion changes constants only. -/
@[simp] theorem TypedExpr.accesses_convertTo (e : TypedExpr) (type : SocketType) :
    (e.convertTo type).accesses = e.accesses := by
  unfold convertTo
  cases h : e.constant?.bind (·.convert? type) with
  | none => rfl
  | some v =>
    obtain ⟨u, hu, -⟩ := Option.bind_eq_some_iff.1 h
    exact (accesses_of_constant (by rw [hu]; rfl)).symm

/-- Converting arguments to the types of parameters adds no access. A constant that is converted has
none, and arguments beyond the parameters are dropped. -/
theorem Check.accesses_convertArgs (args : List TypedExpr) (params : List SocketType) :
    List.Sublist (TypedExpr.allAccesses (convertArgs args params)) (TypedExpr.allAccesses args) := by
  induction args generalizing params with
  | nil => exact List.nil_sublist _
  | cons e es ih =>
    cases params with
    | nil => exact List.nil_sublist _
    | cons p ps =>
      change List.Sublist ((e.convertTo p).accesses ++ TypedExpr.allAccesses (convertArgs es ps)) _
      rw [TypedExpr.accesses_convertTo]
      exact (ih ps).append_left _

/-! ### Names that the checker has met -/

namespace Checker

/-- A name is in scope, or a zone has left it behind. -/
def Met (s : Checker) (n : String) : Prop := s.scope.contains n = true ∨ n ∈ s.zoneLocals

/-- Nothing goes out of scope, and no name that a zone has left behind is forgotten. -/
structure Widens (s s' : Checker) : Prop where
  scope : ∀ n, s.scope.contains n = true → s'.scope.contains n = true
  zoneLocals : ∀ n ∈ s.zoneLocals, n ∈ s'.zoneLocals

variable {s s' s₁ : Checker}

/-- A checker that has not moved has forgotten nothing. -/
theorem Widens.refl (s : Checker) : s.Widens s := ⟨fun _ h => h, fun _ h => h⟩

/-- Forgetting no name composes along a run. -/
theorem Widens.trans (h₁ : s.Widens s₁) (h₂ : s₁.Widens s') : s.Widens s' :=
  ⟨fun n h => h₂.scope n (h₁.scope n h), fun n h => h₂.zoneLocals n (h₁.zoneLocals n h)⟩

/-- A name that was met before is met after. -/
theorem Widens.met (h : s.Widens s') {n : String} (hn : s.Met n) : s'.Met n :=
  hn.imp (h.scope n) (h.zoneLocals n)

theorem contains_insert (s : Checker) (x : String) (b : Binding) (n : String) :
    (s.scope.insert x b).contains n = true ↔ n = x ∨ s.scope.contains n = true := by
  rw [Table.contains, Table.get?_insert]
  by_cases hn : n = x
  · simp [hn]
  · simp [hn, Table.contains]

theorem widens_bind (s : Checker) (x : String) (b : Binding) :
    s.Widens { s with scope := s.scope.insert x b } :=
  ⟨fun n h => (contains_insert s x b n).2 (.inr h), fun _ h => h⟩

theorem met_bind (s : Checker) (x : String) (b : Binding) :
    Met { s with scope := s.scope.insert x b } x :=
  .inl ((contains_insert s x b x).2 (.inl rfl))

/-- A step of the checker whose result accesses variables: it creates ones that it had not met, none
after another access, and afterwards it has met all. -/
structure Introduces (s s' : Checker) (accesses : List Access) : Prop extends Widens s s' where
  ordered : accesses.Pairwise Access.MayPrecede
  fresh : ∀ n, .create n ∈ accesses → ¬ s.Met n
  accessed : ∀ a ∈ accesses, s'.Met a.name

/-- A step of the checker whose result reads and binds variables. -/
structure Uses (s s' : Checker) (accesses : List Access) : Prop extends Widens s s' where
  used : ∀ a ∈ accesses, ∃ n, a = .use n ∧ s'.Met n

variable {a b : List Access}

theorem Widens.introduces (h : s.Widens s') : s.Introduces s' [] :=
  ⟨h, .nil, fun _ h => absurd h List.not_mem_nil, List.forall_mem_nil _⟩

namespace Introduces

theorem sublist (h : s.Introduces s' b) (hab : List.Sublist a b) : s.Introduces s' a :=
  ⟨h.toWidens, h.ordered.sublist hab, fun n hn => h.fresh n (hab.subset hn),
    fun x hx => h.accessed x (hab.subset hx)⟩

/-- What two steps in a row access: the names that the second creates are those that it has not met,
and so are none that the first has accessed. -/
theorem append (h₁ : s.Introduces s₁ a) (h₂ : s₁.Introduces s' b) : s.Introduces s' (a ++ b) := by
  refine ⟨h₁.trans h₂.toWidens, ?_, fun n hn => ?_, fun x hx => ?_⟩
  · refine List.pairwise_append.2 ⟨h₁.ordered, h₂.ordered, fun x hx y hy => ?_⟩
    rintro rfl
    exact h₂.fresh _ hy (h₁.accessed x hx)
  · rcases List.mem_append.1 hn with hn | hn
    · exact h₁.fresh n hn
    · exact fun hmet => h₂.fresh n hn (h₁.met hmet)
  · rcases List.mem_append.1 hx with hx | hx
    · exact h₂.met (h₁.accessed x hx)
    · exact h₂.accessed x hx

/-- A step before that introduces nothing. -/
theorem after (h : s₁.Introduces s' a) (h₁ : s.Widens s₁) : s.Introduces s' a :=
  h₁.introduces.append h

end Introduces

namespace Uses

theorem nil (h : s.Widens s') : s.Uses s' [] := ⟨h, List.forall_mem_nil _⟩

/-- What two steps in a row use has all been met in the end. -/
theorem append (h₁ : s.Uses s₁ a) (h₂ : s₁.Uses s' b) : s.Uses s' (a ++ b) := by
  refine ⟨h₁.trans h₂.toWidens, fun x hx => ?_⟩
  rcases List.mem_append.1 hx with hx | hx
  · obtain ⟨n, rfl, hn⟩ := h₁.used x hx
    exact ⟨n, rfl, h₂.met hn⟩
  · exact h₂.used x hx

theorem subset (h : s.Uses s' b) (hab : a ⊆ b) : s.Uses s' a :=
  ⟨h.toWidens, fun x hx => h.used x (hab hx)⟩

/-- Reading and binding may happen in any order. -/
theorem introduces (h : s.Uses s' a) : s.Introduces s' a := by
  refine ⟨h.toWidens, List.pairwise_of_forall_mem_list fun x _ y hy => ?_, fun n hn => ?_,
    fun x hx => ?_⟩
  · obtain ⟨n, rfl, -⟩ := h.used y hy
    rintro ⟨⟩
  · obtain ⟨m, hm, -⟩ := h.used _ hn
    cases hm
  · obtain ⟨n, rfl, hn⟩ := h.used x hx
    exact hn

end Uses

end Checker

namespace Check

open Checker (Introduces Uses Widens)

variable {ctx : Context} {s s' : Checker} {e' : TypedExpr} {span : Span}

/-! ### Expressions -/

theorem operator_accesses {builtin symbol : String} {args : List TypedExpr}
    (h : operator ctx builtin symbol args span s = .ok e' s') :
    List.Sublist e'.accesses (TypedExpr.allAccesses args) ∧ s' = s := by
  simp only [operator, bind_ok, pure_ok, require_ok] at h
  obtain ⟨types, _, hts, o, _, ⟨-, rfl⟩, rfl, rfl⟩ := h
  exact ⟨accesses_convertArgs args o.inputs, (valueTypes_ok hts).2⟩

/-- An operator in front of an operand accesses at most what the operand does. -/
theorem unary_accesses {op : UnaryOp} {operand : TypedExpr}
    (h : unary ctx op operand span s = .ok e' s') :
    List.Sublist e'.accesses operand.accesses ∧ s' = s := by
  unfold unary at h
  cases hv : operand.constant?.bind (Constant.foldUnary op) with
  | some v =>
    rw [hv] at h
    obtain ⟨rfl, rfl⟩ := pure_ok.1 h
    exact ⟨List.nil_sublist _, rfl⟩
  | none =>
    rw [hv] at h
    cases op with
    | neg => simpa [TypedExpr.allAccesses, TypedExpr.ofConstant, TypedExpr.accesses]
        using operator_accesses h
    | not => simpa [TypedExpr.allAccesses] using operator_accesses h

/-- An operator between two operands accesses at most what the left one does and then what the right
one does. -/
theorem binary_accesses {op : BinaryOp} {left right : TypedExpr}
    (h : binary ctx op left right span s = .ok e' s') :
    List.Sublist e'.accesses (left.accesses ++ right.accesses) ∧ s' = s := by
  simp only [binary, Option.bind_eq_bind] at h
  cases hv : left.constant?.bind fun a => right.constant?.bind fun b => Constant.fold op a b with
  | some v =>
    rw [hv] at h
    obtain ⟨rfl, rfl⟩ := pure_ok.1 h
    exact ⟨List.nil_sublist _, rfl⟩
  | none =>
    rw [hv] at h
    simpa [TypedExpr.allAccesses] using operator_accesses h

/-- A call accesses at most what its arguments do, in their order. The body of a definition has
variables of its own. -/
theorem call_accesses {f : String} {args : List TypedExpr}
    (h : call ctx f args span s = .ok e' s') :
    List.Sublist e'.accesses (TypedExpr.allAccesses args) ∧ s' = s := by
  simp only [call, bind_ok, get_ok] at h
  obtain ⟨_, _, ⟨rfl, rfl⟩, h⟩ := h
  cases hf : s.functions.get? f with
  | some function =>
    rw [hf] at h
    have hstate := Steady.state_eq (fun _ => functionCall_steady function args span) h
    simp only [functionCall, guard_ok] at h
    obtain ⟨-, h⟩ := h
    cases hd : (function.inputs.drop args.length).find? (·.default.isNone) with
    | some p =>
      rw [hd] at h
      exact (fail_ok.1 h).elim
    | none =>
      simp only [hd, bind_ok, pure_ok] at h
      obtain ⟨_, _, -, rfl, -⟩ := h
      exact ⟨accesses_convertArgs args _, hstate⟩
  | none =>
    simp only [hf, guard_ok, bind_ok, require_ok, pure_ok] at h
    obtain ⟨-, types, _, hts, o, _, ⟨-, rfl⟩, rfl, rfl⟩ := h
    exact ⟨accesses_convertArgs args o.inputs, (valueTypes_ok hts).2⟩

/-- A vector accesses at most what its components do, in their order. As a constant it accesses
nothing, and its components do not either. -/
theorem vector_accesses {type : SocketType} {items : List TypedExpr}
    (h : vector ctx type items span s = .ok e' s') :
    List.Sublist e'.accesses (TypedExpr.allAccesses items) ∧ s' = s := by
  unfold vector at h
  cases hv : constantVector? items with
  | some v =>
    rw [hv] at h
    obtain ⟨rfl, rfl⟩ := pure_ok.1 h
    exact ⟨List.nil_sublist _, rfl⟩
  | none =>
    simp only [hv, bind_ok, require_ok, guard_ok, pure_ok] at h
    obtain ⟨_, _, hcs, join, _, ⟨-, rfl⟩, -, rfl, rfl⟩ := h
    exact ⟨accesses_convertArgs items join.inputs,
      Steady.state_eq (fun _ => checkComponents_steady items) hcs⟩

/-- A member accesses at most what the expression does that it is taken of. -/
theorem member_accesses {e : TypedExpr} {n : String} (h : member ctx e n span s = .ok e' s') :
    List.Sublist e'.accesses e.accesses ∧ s' = s := by
  unfold member at h
  cases hb : e.shape with
  | bundle =>
    simp only [hb, bind_ok, require_ok, pure_ok] at h
    obtain ⟨_, _, ⟨-, rfl⟩, _, _, ⟨-, rfl⟩, rfl, rfl⟩ := h
    exact ⟨List.Sublist.refl _, rfl⟩
  | single =>
    simp only [hb, bind_ok, valueType_ok, require_ok] at h
    obtain ⟨_, _, ⟨-, rfl⟩, part, _, ⟨-, rfl⟩, h⟩ := h
    cases hv : e.constant?.bind part.fold? with
    | some v =>
      rw [hv] at h
      obtain ⟨rfl, rfl⟩ := pure_ok.1 h
      exact ⟨List.nil_sublist _, rfl⟩
    | none =>
      rw [hv] at h
      obtain ⟨rfl, rfl⟩ := pure_ok.1 h
      exact ⟨List.Sublist.refl _, rfl⟩

/-- A name in scope is used, or is a counter and becomes a constant. In neither case does the checker
change. -/
theorem name_uses {n : String} (hn : s.scope.contains n = true)
    (h : name ctx n span s = .ok e' s') : s.Uses s' e'.accesses ∧ s' = s := by
  simp only [name, bind_ok, get_ok] at h
  obtain ⟨_, _, ⟨rfl, rfl⟩, h⟩ := h
  obtain ⟨b, hb⟩ := Option.isSome_iff_exists.1 hn
  cases hv : b.constant with
  | some v =>
    simp only [hb, hv] at h
    obtain ⟨rfl, rfl⟩ := pure_ok.1 h
    exact ⟨.nil (.refl s), rfl⟩
  | none =>
    simp only [hb, hv] at h
    obtain ⟨rfl, rfl⟩ := pure_ok.1 h
    exact ⟨⟨.refl s, List.forall_mem_singleton.2 ⟨n, rfl, .inl hn⟩⟩, rfl⟩

/-- A name is read, or created if the checker has not met it. In both cases it has been met
afterwards. -/
theorem name_introduces {n : String} (h : name ctx n span s = .ok e' s') :
    s.Introduces s' e'.accesses := by
  cases hn : s.scope.contains n with
  | true => exact (name_uses hn h).1.introduces
  | false =>
    simp only [name, bind_ok, get_ok] at h
    obtain ⟨_, _, ⟨rfl, rfl⟩, h⟩ := h
    have hnone : s.scope.get? n = none := by simpa [Table.contains] using hn
    simp only [hnone] at h
    split at h
    next => exact (fail_ok.1 h).elim
    next hc =>
      simp only [Bool.or_eq_true, not_or, List.contains_iff_mem] at hc
      simp only [Check.bind, bind_ok, modify_ok, pure_ok] at h
      obtain ⟨_, _, rfl, rfl, rfl⟩ := h
      refine ⟨Checker.widens_bind s n _, ?_, fun x hx => ?_, fun a ha => ?_⟩
      · exact List.pairwise_pair.2 fun h => by cases h
      · obtain rfl : x = n := by simpa [TypedExpr.accesses] using hx
        rintro (hmet | hmet)
        · rw [hn] at hmet
          cases hmet
        · exact hc.2 hmet
      · have hname : a.name = n := by
          rcases List.mem_pair.1 ha with rfl | rfl <;> rfl
        rw [hname]
        exact Checker.met_bind s n _

mutual

/-- What the checker makes of an expression creates variables that it had not met, each of them once,
and reads others. The induction is on the expression, and folding may leave accesses out. -/
theorem expr_introduces : (e : Expr) → ∀ {s s' : Checker} {e' : TypedExpr},
    expr ctx e s = .ok e' s' → s.Introduces s' e'.accesses
  | .int .., s, _, _, h | .float .., s, _, _, h | .bool .., s, _, _, h | .str .., s, _, _, h => by
    obtain ⟨rfl, rfl⟩ := pure_ok.1 h
    exact (Widens.refl s).introduces
  | .name .., _, _, _, h => name_introduces h
  | .vector items _, _, _, _, h => by
    simp only [expr, bind_ok, require_ok] at h
    obtain ⟨_, _, ⟨-, rfl⟩, checked, s₁, hitems, h⟩ := h
    obtain ⟨hsub, rfl⟩ := vector_accesses h
    exact (exprs_introduces items hitems).sublist hsub
  | .unary _ e _, _, _, _, h => by
    obtain ⟨operand, s₁, he, h⟩ := bind_ok.1 h
    obtain ⟨hsub, rfl⟩ := unary_accesses h
    exact (expr_introduces e he).sublist hsub
  | .binary _ l r _, _, _, _, h => by
    simp only [expr, bind_ok] at h
    obtain ⟨left, s₁, hl, right, s₂, hr, h⟩ := h
    obtain ⟨hsub, rfl⟩ := binary_accesses h
    exact ((expr_introduces l hl).append (expr_introduces r hr)).sublist hsub
  | .call _ args _, _, _, _, h => by
    obtain ⟨checked, s₁, hargs, h⟩ := bind_ok.1 h
    obtain ⟨hsub, rfl⟩ := call_accesses h
    exact (exprs_introduces args hargs).sublist hsub
  | .member e _ _, _, _, _, h => by
    obtain ⟨value, s₁, he, h⟩ := bind_ok.1 h
    obtain ⟨hsub, rfl⟩ := member_accesses h
    exact (expr_introduces e he).sublist hsub

theorem exprs_introduces : (es : List Expr) → ∀ {s s' : Checker} {es' : List TypedExpr},
    exprs ctx es s = .ok es' s' → s.Introduces s' (TypedExpr.allAccesses es')
  | [], s, _, _, h => by
    obtain ⟨rfl, rfl⟩ := pure_ok.1 h
    exact (Widens.refl s).introduces
  | e :: es, _, _, _, h => by
    simp only [exprs, bind_ok, pure_ok] at h
    obtain ⟨first, s₁, he, others, s₂, hes, rfl, rfl⟩ := h
    exact (expr_introduces e he).append (exprs_introduces es hes)

end

/-! ### Assignments -/

variable {out : List TypedStmt}

/-- Assigning to a target binds a variable, which has been met afterwards, or an output, which is
none. The target that drops its value has no name at all. -/
theorem assignTarget_uses {target : Target} {b : Binding} {t : TypedTarget}
    (h : assignTarget ctx target b s = .ok t s') : s.Uses s' t.accesses := by
  cases target with
  | ignore =>
    obtain ⟨rfl, rfl⟩ := pure_ok.1 h
    exact .nil (.refl s)
  | name n span =>
    unfold assignTarget at h
    simp only at h
    cases ho : ctx.output? n with
    | some o =>
      simp only [ho, guard_ok, bind_ok, require_ok, modify_ok, pure_ok] at h
      obtain ⟨-, _, _, ⟨-, rfl⟩, -, _, _, rfl, rfl, rfl⟩ := h
      exact .nil ⟨fun _ h => h, fun _ h => h⟩
    | none =>
      cases hp : zoneProblem? ctx n b with
      | some problem =>
        simp only [ho, hp] at h
        exact (fail_ok.1 h).elim
      | none =>
        simp only [ho, hp, Check.bind, bind_ok, modify_ok, pure_ok] at h
        obtain ⟨_, _, rfl, rfl, rfl⟩ := h
        exact ⟨Checker.widens_bind s n b,
          List.forall_mem_singleton.2 ⟨n, rfl, Checker.met_bind s n b⟩⟩

/-- A test of the checker leaves the state. -/
theorem checkConstant_state {t : TypedTarget} {e : TypedExpr} {u : Unit}
    (h : checkConstant ctx t e s = .ok u s') : s' = s :=
  Steady.state_eq (fun _ => checkConstant_steady t e) h

/-- An assignment to one target accesses what its value does and then the target. -/
theorem assignOne_uses {target : Target} {e : TypedExpr} (h : assignOne ctx target e s = .ok out s') :
    ∃ stored, TypedStmt.allAccesses out = e.accesses ++ stored ∧ s.Uses s' stored := by
  simp only [assignOne, bind_ok, pure_ok] at h
  obtain ⟨t, s₁, ht, _, _, hconstant, rfl, rfl⟩ := h
  obtain rfl := checkConstant_state hconstant
  refine ⟨t.accesses, ?_, assignTarget_uses ht⟩
  rw [TypedStmt.allAccesses_assign]
  congr 1
  cases t with
  | var | ignore => rfl
  | output j =>
    -- A constant for an output is converted, which changes no access.
    simp only
    split
    · exact TypedExpr.accesses_convertTo e _
    · rfl

/-- The components of a constant are assigned to targets, each of which is met. -/
theorem assignComponents_uses {type : SocketType} {v : Constant} {index : Nat} {targets : List Target}
    (h : assignComponents ctx type v span index targets s = .ok out s') :
    s.Uses s' (TypedStmt.allAccesses out) := by
  induction targets generalizing index s out with
  | nil =>
    obtain ⟨rfl, rfl⟩ := pure_ok.1 h
    exact .nil (.refl s)
  | cons target targets ih =>
    simp only [assignComponents, bind_ok, require_ok, pure_ok] at h
    obtain ⟨x, _, ⟨-, rfl⟩, t, s₁, ht, _, _, hconstant, more, s₂, hmore, rfl, rfl⟩ := h
    obtain rfl := checkConstant_state hconstant
    have hfirst : (TypedStmt.assign [t] (.ofConstant x span)).accesses = t.accesses := by
      simp [TypedStmt.accesses, TypedExpr.ofConstant, TypedExpr.accesses]
    rw [TypedStmt.allAccesses, hfirst]
    exact (assignTarget_uses ht).append (ih hmore)

/-- Parts are bound to targets, each of which is met, by induction on the targets. A target that was
met stays met while the others are bound. -/
theorem assignParts_uses {targets : List Target} {types : List SocketType} {bound : List TypedTarget}
    (h : assignParts ctx targets types s = .ok bound s') :
    s.Uses s' (bound.flatMap TypedTarget.accesses) := by
  induction targets generalizing types s bound with
  | nil =>
    obtain ⟨rfl, rfl⟩ := pure_ok.1 h
    exact .nil (.refl s)
  | cons target targets ih =>
    cases types with
    | nil =>
      obtain ⟨rfl, rfl⟩ := pure_ok.1 h
      exact .nil (.refl s)
    | cons type types =>
      simp only [assignParts, bind_ok, pure_ok] at h
      obtain ⟨t, s₁, ht, more, s₂, hmore, rfl, rfl⟩ := h
      rw [List.flatMap_cons]
      exact (assignTarget_uses ht).append (ih hmore)

/-- An assignment to several targets accesses what its value does and then the targets, the last one
first where the value is unpacked. -/
theorem assignMany_uses {targets : List Target} {e : TypedExpr} {type : SocketType}
    (h : assignMany ctx targets e type s = .ok out s') :
    ∃ stored, TypedStmt.allAccesses out = e.accesses ++ stored ∧ s.Uses s' stored := by
  simp only [assignMany, bind_ok, require_ok, guard_ok] at h
  obtain ⟨parts, _, ⟨-, rfl⟩, -, h⟩ := h
  cases hv : e.constant? with
  | some v =>
    rw [hv] at h
    refine ⟨_, ?_, assignComponents_uses h⟩
    rw [TypedExpr.accesses_of_constant (by rw [hv]; rfl), List.nil_append]
  | none =>
    simp only [hv, bind_ok, pure_ok] at h
    obtain ⟨bound, s₁, hbound, rfl, rfl⟩ := h
    refine ⟨bound.reverse.flatMap TypedTarget.accesses, ?_, (assignParts_uses hbound).subset ?_⟩
    · simp [TypedStmt.allAccesses, TypedStmt.accesses]
    · intro a ha
      obtain ⟨t, ht, ha⟩ := List.mem_flatMap.1 ha
      exact List.mem_flatMap.2 ⟨t, List.mem_reverse.1 ht, ha⟩

/-- An assignment introduces the names that its value creates, and all names that it accesses have
been met afterwards. -/
theorem assign_introduces {targets : List Target} {e : Expr} (h : assign ctx targets e s = .ok out s') :
    s.Introduces s' (TypedStmt.allAccesses out) := by
  simp only [assign, bind_ok, valueType_ok] at h
  obtain ⟨value, s₁, he, type, _, ⟨-, rfl⟩, h⟩ := h
  have hvalue := expr_introduces e he
  have hstored : ∃ stored, TypedStmt.allAccesses out = value.accesses ++ stored ∧
      s₁.Uses s' stored := by
    split at h
    · exact assignOne_uses h
    · exact assignMany_uses h
  obtain ⟨stored, heq, huses⟩ := hstored
  rw [heq]
  exact hvalue.append huses.introduces

/-- The variable is in scope, so the value, which is checked after the object and lowered before it,
does not create it. -/
theorem setField_introduces {target field : String} {e : Expr}
    (h : setField ctx target field e span s = .ok out s') :
    s.Introduces s' (TypedStmt.allAccesses out) := by
  simp only [setField, bind_ok, get_ok, guard_ok, valueType_ok, require_ok, pure_ok] at h
  obtain ⟨_, _, ⟨rfl, rfl⟩, hscope, object, _, hname, _, _, ⟨-, rfl⟩, part, _, ⟨-, rfl⟩, value, s₂,
    he, _, _, ⟨-, rfl⟩, -, rfl, rfl⟩ := h
  have hcontains : s.scope.contains target = true := by simpa using hscope
  obtain ⟨hobject, rfl⟩ := name_uses hcontains hname
  have hvalue := expr_introduces e he
  have hlater : s₂.Uses s₂ (object.accesses ++ [.use target]) := by
    refine ⟨.refl s₂, fun a ha => ?_⟩
    rcases List.mem_append.1 ha with ha | ha
    · obtain ⟨n, rfl, hn⟩ := hobject.used a ha
      exact ⟨n, rfl, hvalue.met hn⟩
    · exact ⟨target, List.mem_singleton.1 ha, hvalue.met (.inl hcontains)⟩
  have heq : TypedStmt.allAccesses
      [.setField target object part (value.convertTo Component.type)] =
        value.accesses ++ (object.accesses ++ [.use target]) := by
    simp [TypedStmt.allAccesses, TypedStmt.accesses]
  rw [heq]
  exact hvalue.append hlater.introduces

/-! ### Statements -/

/-- A step that notes no errors introduces the variables that its statements access. -/
structure StmtsIntroduce (x : Check (List TypedStmt)) : Prop where
  introduces : ∀ {s s' : Checker} {out : List TypedStmt}, x s = .ok out s' → s'.errors = [] →
    s.Introduces s' (TypedStmt.allAccesses out)

theorem widens_atValue (s : Checker) (counter : Option String) (v : Int64) :
    s.Widens (s.atValue counter v) := by
  cases counter with
  | none => exact .refl s
  | some n => exact Checker.widens_bind s n _

/-- An unrolled loop introduces names round by round. What the first round creates the next ones only
read. -/
theorem unroll_introduces {counter : Option String} {body : Check (List TypedStmt)}
    (hmono : Monotone false body) (hb : StmtsIntroduce body) (values : List Int64) :
    StmtsIntroduce (unroll counter body values) := by
  refine ⟨fun {s s' out} h hc => ?_⟩
  induction values generalizing s out with
  | nil =>
    obtain ⟨rfl, rfl⟩ := pure_ok.1 h
    exact (Widens.refl s).introduces
  | cons v values ih =>
    have herrors := ((unroll_monotone counter hmono (v :: values)).grows h).errors_eq_nil hc
    obtain ⟨first, more, s₁, hfirst, hclean, hmore, rfl⟩ :=
      unroll_clean hmono h (hc.trans herrors.symm)
    rw [TypedStmt.allAccesses_append]
    have hstart := widens_atValue s counter v
    exact ((hb.introduces hfirst (hclean.trans herrors)).after hstart).append (ih hmore)

/-- A zone that is left keeps the names that it bound: they are no longer in scope, but are noted
among those that zones have left behind, and so still count as met. -/
theorem inZone_introduces {body : Context → Check (List TypedStmt)}
    (hb : ∀ scope, StmtsIntroduce (body (ctx.inZone scope))) : StmtsIntroduce (inZone ctx body) := by
  refine ⟨fun {s s' out} h hc => ?_⟩
  simp only [inZone, bind_ok, get_ok, modify_ok, pure_ok] at h
  obtain ⟨_, _, ⟨rfl, rfl⟩, stmts, s₁, hbody, _, _, rfl, rfl, rfl⟩ := h
  have hin := (hb _).introduces hbody hc
  have hmet : ∀ n, s₁.Met n → Checker.Met { s₁ with
      scope := s.scope
      zoneLocals := (s₁.scope.keys.filter fun n => !s.scope.contains n && !s₁.zoneLocals.contains n) ++
        s₁.zoneLocals } n := by
    intro n hn
    by_cases hscope : s.scope.contains n = true
    · exact .inl hscope
    · refine .inr (List.mem_append.2 ?_)
      by_cases hlocal : n ∈ s₁.zoneLocals
      · exact .inr hlocal
      · refine .inl (List.mem_filter.2 ⟨Table.mem_keys_iff.2 (hn.resolve_right hlocal), ?_⟩)
        simp [hscope, hlocal]
  exact ⟨⟨fun _ h => h, fun n hn => List.mem_append_right _ (hin.zoneLocals n hn)⟩, hin.ordered,
    hin.fresh, fun a ha => hmet _ (hin.accessed a ha)⟩

mutual

/-- Each statement that is checked without errors introduces the names that it creates, by induction
on the statement. A zone leaves its names behind, and these are still met. -/
theorem stmt_introduces : (st : Stmt) → ∀ ctx : Context, StmtsIntroduce (stmt ctx st)
  | .expr e _, ctx => by
    refine ⟨fun {s s' out} h _ => ?_⟩
    simp only [stmt, bind_ok, pure_ok] at h
    obtain ⟨value, s₁, he, rfl, rfl⟩ := h
    simpa [TypedStmt.allAccesses, TypedStmt.accesses] using expr_introduces e he
  | .assign _ _ _, _ => ⟨fun h _ => assign_introduces h⟩
  | .setField _ _ _ _, _ => ⟨fun h _ => setField_introduces h⟩
  | .loop counter first last body _, ctx => by
    refine ⟨fun {s s' out} h hc => ?_⟩
    obtain ⟨-, h⟩ := guard_ok.1 h
    have hmono := topLevel_inLoop ctx ▸ block_monotone body ctx.inLoop
    exact (unroll_introduces hmono (block_introduces body ctx.inLoop) _).introduces h hc
  | .zone count body _, ctx => by
    refine ⟨fun {s s' out} h hc => ?_⟩
    simp only [stmt, guard_ok, bind_ok, valueType_ok, pure_ok] at h
    obtain ⟨-, value, s₁, hcount, type, _, ⟨-, rfl⟩, -, stmts, s₂, hzone, rfl, rfl⟩ := h
    have hbody : StmtsIntroduce (inZone ctx fun inner => block inner body) :=
      inZone_introduces fun scope => block_introduces body (ctx.inZone scope)
    simpa [TypedStmt.allAccesses, TypedStmt.accesses] using
      (expr_introduces count hcount).append (hbody.introduces hzone hc)
  | .define h body span, ctx => by
    refine ⟨fun {s s' out} hs hc => ?_⟩
    simp only [stmt, bind_ok, pure_ok] at hs
    obtain ⟨_, _, hdefine, rfl, rfl⟩ := hs
    have hmono : ∀ d, Monotone false (block (ctx.inDefinition d) body) := fun d =>
      topLevel_inDefinition ctx d ▸ block_monotone body (ctx.inDefinition d)
    obtain ⟨f, d, start, stmts, s₁, hbody, herrors, hstart, rfl⟩ := define_leaves hmono hdefine hc
    have hin := (block_introduces body (ctx.inDefinition d)).introduces hbody herrors
    refine Widens.introduces ⟨fun _ h => h, fun n hn => ?_⟩
    exact hin.zoneLocals n (by rw [hstart]; exact hn)

/-- What the checker makes of statements creates variables that it had not met. -/
theorem block_introduces : (ss : List Stmt) → ∀ ctx : Context, StmtsIntroduce (block ctx ss)
  | [], _ => by
    refine ⟨fun {s s' out} h _ => ?_⟩
    obtain ⟨rfl, rfl⟩ := pure_ok.1 h
    exact (Widens.refl s).introduces
  | st :: rest, ctx => by
    refine ⟨fun {s s' out} h hc => ?_⟩
    simp only [block, bind_ok, pure_ok] at h
    obtain ⟨first, s₁, hfirst, others, s₂, hrest, rfl, rfl⟩ := h
    have hc₁ := ((block_monotone rest ctx).grows hrest).errors_eq_nil hc
    rw [TypedStmt.allAccesses_append]
    exact ((stmt_introduces st ctx).introduces (recover_ok hc₁ hfirst) hc₁).append
      ((block_introduces rest ctx).introduces hrest hc)

end

end Check

/-- In the statements of an accepted formula no variable is created after another access to it. -/
theorem Checker.check_accesses {tree : TreeKind} {p : Program} {s s' : Checker} {stmts : List TypedStmt}
    (h : s.check tree p = (.ok stmts, s')) :
    (TypedStmt.allAccesses stmts).Pairwise Access.MayPrecede := by
  obtain ⟨hblock, hc⟩ := finish_ok h
  exact ((Check.block_introduces p.items { tree }).introduces hblock hc).ordered

end NodeFormula

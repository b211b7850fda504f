import Mathlib.Data.List.Forall2
import NodeFormula.Proofs.Typing
import NodeFormula.Typed.Expression

/-!
# Checked expressions are well typed

What the checker makes of an expression is well typed (`expr_typed`). The checker's scope is tied to a
typing environment by `Tracks`: the two agree on every variable that is no loop counter. A loop counter
is a constant wherever it is read, so it never reaches the environment, where an older variable of its
name may remain.
-/

namespace NodeFormula

/-! ### Names in expressions -/

mutual

/-- Every variable in an expression has a name that satisfies `P`. -/
def Expr.Spelled (P : String → Prop) : Expr → Prop
  | .int .. => True
  | .float .. => True
  | .bool .. => True
  | .str .. => True
  | .name n _ => P n
  | .vector items _ => Expr.AllSpelled P items
  | .unary _ e _ => e.Spelled P
  | .binary _ l r _ => l.Spelled P ∧ r.Spelled P
  | .call _ args _ => Expr.AllSpelled P args
  | .member e _ _ => e.Spelled P

/-- Every variable in expressions has a name that satisfies `P`. -/
def Expr.AllSpelled (P : String → Prop) : List Expr → Prop
  | [] => True
  | e :: es => e.Spelled P ∧ Expr.AllSpelled P es

end

/-! ### The catalog -/

namespace TreeKind

/-- Every overload feeds as many sockets as it has inputs, and exposes as many as it has outputs. -/
theorem catalog_sockets (tree : TreeKind) : ∀ e ∈ tree.catalog,
    e.2.inputs.length = e.2.node.inputs.length ∧ e.2.outputs.length = e.2.node.outputs.length := by
  cases tree <;> decide +kernel

theorem mem_catalog_of_mem_overloads {tree : TreeKind} {name : String} {o : Overload}
    (h : o ∈ tree.overloads name) : (name, o) ∈ tree.catalog := by
  obtain ⟨e, he, ho⟩ := List.mem_filterMap.1 h
  split at ho
  next hn => cases ho; rw [← hn]; exact he
  next => cases ho

theorem mem_overloads_of_combine {tree : TreeKind} {type : SocketType} {o : Overload}
    (h : tree.combine type = some o) : ∃ name, o ∈ tree.overloads name := by
  unfold combine at h
  split at h
  · exact ⟨_, List.mem_of_head? h⟩
  · exact ⟨_, List.mem_of_head? h⟩
  · cases h

/-- The node that makes a vector or colour takes floats. -/
theorem combine_inputs {tree : TreeKind} {type : SocketType} {o : Overload}
    (h : tree.combine type = some o) : ∀ p ∈ o.inputs, p = .float := by
  have key : ∀ t ∈ SocketType.all, ∀ o ∈ tree.combine t, ∀ p ∈ o.inputs, p = .float := by
    cases tree <;> decide +kernel
  exact key type (SocketType.mem_all type) o h

end TreeKind

/-- What a call of an overload gives is a single value exactly if the overload has one output. -/
theorem Overload.proper (o : Overload) (span : Span) :
    (Typing.varType ⟨o.outputTypes, o.outputNames, .ofOutputs o.outputs.length, span⟩).Proper := by
  refine ⟨by simp [Typing.varType, outputNames, outputTypes], ?_⟩
  simp only [Typing.varType, outputTypes, List.length_map, Shape.ofOutputs]
  split <;> simp <;> omega

/-- Arguments of which each can be converted to the type of its parameter. -/
def ConvertAll : List SocketType → List SocketType → Prop
  | [], _ => True
  | _ :: _, [] => False
  | a :: as, p :: ps => a.convertsTo p = true ∧ ConvertAll as ps

/-- Arguments that have a cost convert one by one to the parameters that they are passed to. -/
theorem Overload.convertAll_of_argumentsCost {args params : List SocketType} {n : Nat}
    (h : argumentsCost args params = some n) : ConvertAll args params := by
  induction args generalizing params n with
  | nil => trivial
  | cons a args ih =>
    cases params with
    | nil => cases h
    | cons p params =>
      simp only [argumentsCost, Option.bind_eq_bind, Option.bind_eq_some_iff] at h
      obtain ⟨first, hf, rest, hr, -⟩ := h
      exact ⟨by simp [SocketType.convertsTo, hf], ih hr⟩

/-- The cheapest overload is one of those that were tried or the best before them, and its cost is
that of the arguments. The induction is over the overloads. -/
theorem Overload.mem_of_cheapest {args : List SocketType} {best : Option (Nat × Overload)}
    {os : List Overload} {n : Nat} {o : Overload} (h : cheapest args best os = some (n, o)) :
    best = some (n, o) ∨ o ∈ os ∧ o.cost args = some n := by
  fun_induction cheapest args best os with
  | case1 => exact .inl h
  | case2 best x xs hx ih => exact (ih h).imp id fun ⟨hm, hc⟩ => ⟨.tail _ hm, hc⟩
  | case3 x xs k hk ih =>
    rcases ih h with hb | ⟨hm, hc⟩
    · cases hb
      exact .inr ⟨.head _, hk⟩
    · exact .inr ⟨.tail _ hm, hc⟩
  | case4 x xs k m b hk ih =>
    rcases ih h with hb | ⟨hm, hc⟩
    · split at hb
      · cases hb
        exact .inr ⟨.head _, hk⟩
      · exact .inl hb
    · exact .inr ⟨.tail _ hm, hc⟩

/-- The overload that is selected is one of those given, and takes the arguments. -/
theorem Overload.select_some {os : List Overload} {args : List SocketType} {o : Overload}
    (h : select os args = some o) : o ∈ os ∧ ConvertAll args o.inputs := by
  obtain ⟨⟨n, o'⟩, hc, rfl⟩ := Option.map_eq_some_iff.1 h
  rcases mem_of_cheapest hc with hb | ⟨hm, hn⟩
  · cases hb
  · exact ⟨hm, convertAll_of_argumentsCost hn⟩

/-! ### Conversion of constants -/

theorem Component.of_lookup? {tree : TreeKind} {type : SocketType} {n : String} {part : Component}
    (h : lookup? tree type n = some part) : part.Of tree type := by
  simp only [lookup?, Option.bind_eq_bind, Option.bind_eq_some_iff] at h
  obtain ⟨split, hsplit, i, hi, hp⟩ := h
  cases hp
  obtain ⟨hlt, -, -⟩ := List.findIdx?_eq_some_iff_getElem.1 hi
  exact ⟨rfl, split, hsplit, by simpa [Overload.outputNames] using hlt⟩

@[simp] theorem SocketType.convertsTo_self (t : SocketType) : t.convertsTo t = true := by
  simp [convertsTo, conversionCost]

/-- A constant whose type can be converted can itself be converted. -/
theorem Constant.exists_convert? {v : Constant} {p : SocketType} (h : v.type.convertsTo p = true) :
    ∃ w, v.convert? p = some w := by
  cases v <;> cases p <;> first | exact ⟨_, rfl⟩ | cases h

section
variable {S : Setting} {Γ Γ' : TypeEnv}

theorem ExprTyped.ofConstant (v : Constant) (span : Span) :
    ExprTyped S Γ (.ofConstant v span) Γ := .constant rfl

/-- The type of a constant expression is that of its value. -/
theorem ExprTyped.head?_of_constant? {e : TypedExpr} {v : Constant} (h : ExprTyped S Γ e Γ')
    (hv : e.constant? = some v) : e.types.head? = some v.type := by
  cases h with
  | constant ht =>
    cases hv
    have := congrArg VarType.types ht
    simp only [Typing.varType, VarType.value] at this
    simp [TypedExpr.types, TypedExpr.typing, this]
  | _ => cases hv

/-- A conversion keeps an expression well typed and makes it fit the parameter. A constant is
converted itself, and any other value is converted by the socket that takes it. -/
theorem ExprTyped.convertTo {e : TypedExpr} {t p : SocketType} (h : ExprTyped S Γ e Γ')
    (ht : e.types.head? = some t) (hp : t.convertsTo p = true) :
    ExprTyped S Γ (e.convertTo p) Γ' ∧ (e.convertTo p).Feeds p := by
  unfold TypedExpr.convertTo
  cases hv : e.constant? with
  | none =>
    refine ⟨h, ⟨t, ht, hp⟩, fun v hv' => ?_⟩
    simp only [Option.bind_none, hv] at hv'
    cases hv'
  | some v =>
    have hvt : v.type = t := by
      have := h.head?_of_constant? hv
      rw [ht] at this
      cases this; rfl
    obtain ⟨w, hw⟩ := Constant.exists_convert? (hvt ▸ hp)
    have hwp : w.type = p := Constant.type_of_convert? hw
    cases h.env_eq_of_constant? hv
    simp only [Option.bind_some, hw]
    refine ⟨.ofConstant w _, ⟨w.type, rfl, by simp [hwp]⟩, ?_⟩
    intro u hu
    cases hu
    exact hwp

end

/-! ### Scopes and environments -/

/-- What a variable with this binding stands for. -/
def Binding.varType (b : Binding) : VarType := ⟨b.types, b.names, b.shape⟩

/-- A scope and an environment agree on every variable that is no loop counter, and the loop counters
are ints. -/
structure Tracks (scope : Scope) (Γ : TypeEnv) : Prop where
  unbound : ∀ x, scope.get? x = none → Γ x = none
  bound : ∀ x b, scope.get? x = some b → b.constant = none →
    Γ x = some b.varType ∧ b.varType.Proper
  counters : ∀ x b v, scope.get? x = some b → b.constant = some v → v.type = .int

namespace Tracks

variable {scope : Scope} {Γ : TypeEnv} {b : Binding}

theorem empty : Tracks ∅ TypeEnv.empty :=
  ⟨fun _ _ => rfl, fun _ _ h => (nomatch h), fun _ _ _ h => nomatch h⟩

/-- Binding a variable to a value, in the scope and in the environment, keeps the two in agreement. A
loop counter of that name is hidden by it. -/
theorem insert (h : Tracks scope Γ) (x : String) (hc : b.constant = none) (hp : b.varType.Proper) :
    Tracks (scope.insert x b) (Γ.bind x b.varType) := by
  constructor
  · intro y hy
    rw [Table.get?_insert] at hy
    split at hy
    next => cases hy
    next hne => rw [TypeEnv.bind_of_ne hne]; exact h.unbound y hy
  · intro y b' hy hb'
    rw [Table.get?_insert] at hy
    split at hy
    next heq => cases hy; exact ⟨by simp [heq], hp⟩
    next hne => rw [TypeEnv.bind_of_ne hne]; exact h.bound y b' hy hb'
  · intro y b' v hy hv
    rw [Table.get?_insert] at hy
    split at hy
    next => cases hy; rw [hc] at hv; cases hv
    next => exact h.counters y b' v hy hv

/-- A loop counter leaves the environment as it is. It is in scope for the checker, but as a
constant, and a constant is no variable of the typed formula. -/
theorem counter (h : Tracks scope Γ) (x : String) (i : Int64) :
    Tracks (scope.insert x (.counter i)) Γ := by
  constructor
  · intro y hy
    rw [Table.get?_insert] at hy
    split at hy
    · cases hy
    · exact h.unbound y hy
  · intro y b' hy hb'
    rw [Table.get?_insert] at hy
    split at hy
    · cases hy; cases hb'
    · exact h.bound y b' hy hb'
  · intro y b' v hy hv
    rw [Table.get?_insert] at hy
    split at hy
    · cases hy; cases hv; rfl
    · exact h.counters y b' v hy hv

end Tracks

/-- A context is that of a setting. -/
structure InSetting (ctx : Context) (S : Setting) : Prop where
  tree : S.tree = ctx.tree
  outputs : S.outputs = (ctx.enclosing.map (·.outputs)).getD []
  free : S.free = (ctx.enclosing.isNone && ctx.zones.isEmpty)
  zones : List.Forall₂ Tracks ctx.zones S.zones
  nested : ctx.zones ≠ [] → ctx.nested = true

/-- The definitions of a table have their names, and are known and well typed. -/
def Knows (S : Setting) (functions : Table String TypedFunction) : Prop :=
  ∀ n f, functions.get? n = some f → f.name = n ∧ S.known f ∧ FunctionTyped S f

namespace Check

/-! ### Steps that succeed -/

section
variable {α β : Type} {s s' : Checker}

theorem bind_ok {x : Check α} {f : α → Check β} {b : β} :
    (x >>= f) s = .ok b s' ↔ ∃ a s₁, x s = .ok a s₁ ∧ f a s₁ = .ok b s' := by
  change EStateM.bind x f s = _ ↔ _
  unfold EStateM.bind
  cases x s with
  | ok a s₁ => exact ⟨fun h => ⟨a, s₁, rfl, h⟩, fun ⟨_, _, h, h'⟩ => by cases h; exact h'⟩
  | error e s₁ => exact ⟨nofun, fun ⟨_, _, h, _⟩ => nomatch h⟩

theorem pure_ok {a b : α} : (pure a : Check α) s = .ok b s' ↔ a = b ∧ s = s' := by
  change EStateM.Result.ok a s = _ ↔ _
  simp

theorem get_ok {a : Checker} : (get : Check Checker) s = .ok a s' ↔ s = a ∧ s = s' := by
  change EStateM.Result.ok s s = _ ↔ _
  simp

theorem modify_ok {f : Checker → Checker} {u : PUnit} :
    (modify f : Check PUnit) s = .ok u s' ↔ f s = s' := by
  change EStateM.Result.ok PUnit.unit (f s) = _ ↔ _
  simp

theorem set_ok {t : Checker} {u : PUnit} : (set t : Check PUnit) s = .ok u s' ↔ t = s' := by
  change EStateM.Result.ok PUnit.unit t = _ ↔ _
  simp

theorem fail_ok {problem : Problem} {span : Span} {a : α} :
    (fail problem span : Check α) s = .ok a s' ↔ False :=
  ⟨nofun, False.elim⟩

theorem require_ok {o : Option α} {problem : Problem} {span : Span} {a : α} :
    require o problem span s = .ok a s' ↔ o = some a ∧ s = s' := by
  cases o with
  | none => simp [require, fail_ok]
  | some b => simp [require, pure_ok]

/-- A step after a test that may fail. -/
theorem guard_ok {c : Prop} [Decidable c] {problem : Problem} {span : Span} {f : Unit → Check α}
    {x : Check α} {a : α} :
    (if c then fail problem span >>= f else x) s = .ok a s' ↔ ¬ c ∧ x s = .ok a s' := by
  split
  next hc => simp [bind_ok, fail_ok, hc]
  next hc => simp [hc]

theorem valueType_ok {e : TypedExpr} {t : SocketType} :
    valueType e s = .ok t s' ↔ e.types.head? = some t ∧ s = s' := require_ok

/-- The types of values are their first ones, and asking for them leaves the state. -/
theorem valueTypes_ok {es : List TypedExpr} {ts : List SocketType}
    (h : valueTypes es s = .ok ts s') :
    List.Forall₂ (fun e t => e.types.head? = some t) es ts ∧ s' = s := by
  induction es generalizing ts s with
  | nil =>
    rw [valueTypes, pure_ok] at h
    obtain ⟨rfl, rfl⟩ := h
    exact ⟨.nil, rfl⟩
  | cons e es ih =>
    simp only [valueTypes, bind_ok, pure_ok, valueType_ok] at h
    obtain ⟨t, _, ⟨ht, rfl⟩, ts, _, hts, rfl, rfl⟩ := h
    obtain ⟨hes, rfl⟩ := ih hts
    exact ⟨.cons ht hes, rfl⟩

end

/-! ### Calls -/

section
variable {S : Setting} {Γ Γ' : TypeEnv}

/-- Arguments that are converted to the types of parameters stay well typed and fit them. -/
theorem convertArgs_typed {args : List TypedExpr} {types params : List SocketType}
    (h : ArgsTyped S Γ args Γ') (ht : List.Forall₂ (fun e t => e.types.head? = some t) args types)
    (hc : ConvertAll types params) :
    ArgsTyped S Γ (convertArgs args params) Γ' ∧ FeedsAll (convertArgs args params) params ∧
      (convertArgs args params).length = args.length := by
  induction ht generalizing Γ params with
  | nil => cases h; exact ⟨.nil, trivial, rfl⟩
  | @cons e t es ts het _ ih =>
    cases params with
    | nil => exact hc.elim
    | cons p ps =>
      cases h with
      | cons he hes =>
        obtain ⟨hes', hf, hl⟩ := ih hes hc.2
        obtain ⟨he', hep⟩ := he.convertTo het hc.1
        exact ⟨.cons he' hes', ⟨hep, hf⟩, by simpa [convertArgs] using hl⟩

/-- The call of an overload of the catalog with arguments that it takes. -/
theorem nodeCall_typed {name : String} {o : Overload} {args : List TypedExpr}
    {types : List SocketType} (span : Span) (ho : o ∈ S.tree.overloads name)
    (h : ArgsTyped S Γ args Γ') (ht : List.Forall₂ (fun e t => e.types.head? = some t) args types)
    (hc : ConvertAll types o.inputs) : ExprTyped S Γ (nodeCall o args span) Γ' := by
  have hm := TreeKind.mem_catalog_of_mem_overloads ho
  obtain ⟨hin, hout⟩ := S.tree.catalog_sockets _ hm
  obtain ⟨ha, hf, -⟩ := convertArgs_typed h ht hc
  exact .node hm ha hf hin hout rfl rfl (o.proper span)

variable {ctx : Context} {s s' : Checker} {e' : TypedExpr} {span : Span}

theorem operator_typed {builtin symbol : String} {args : List TypedExpr} (hS : InSetting ctx S)
    (ha : ArgsTyped S Γ args Γ') (h : operator ctx builtin symbol args span s = .ok e' s') :
    ExprTyped S Γ e' Γ' ∧ s' = s := by
  simp only [operator, bind_ok, pure_ok, require_ok] at h
  obtain ⟨types, _, hts, o, _, ⟨ho, rfl⟩, rfl, rfl⟩ := h
  obtain ⟨hheads, rfl⟩ := valueTypes_ok hts
  obtain ⟨hmem, hcost⟩ := Overload.select_some ho
  rw [← hS.tree] at hmem
  exact ⟨nodeCall_typed span hmem ha hheads hcost, rfl⟩

/-- An operator in front of an operand is well typed. If it is folded then the operand was a
constant, and leaves no trace in the environment. -/
theorem unary_typed {op : UnaryOp} {operand : TypedExpr} (hS : InSetting ctx S)
    (he : ExprTyped S Γ operand Γ') (h : unary ctx op operand span s = .ok e' s') :
    ExprTyped S Γ e' Γ' ∧ s' = s := by
  unfold unary at h
  cases hv : operand.constant?.bind (Constant.foldUnary op) with
  | some v =>
    rw [hv] at h
    obtain ⟨u, hu, -⟩ := Option.bind_eq_some_iff.1 hv
    cases he.env_eq_of_constant? hu
    obtain ⟨rfl, rfl⟩ := pure_ok.1 h
    exact ⟨.ofConstant v span, rfl⟩
  | none =>
    rw [hv] at h
    cases op with
    | neg => exact operator_typed hS (.cons he (.cons (.ofConstant _ _) .nil)) h
    | not => exact operator_typed hS (.cons he .nil) h

/-- An operator between two operands is well typed. If it is folded then both were constants, and
leave no trace in the environment. -/
theorem binary_typed {op : BinaryOp} {left right : TypedExpr} {Γ₁ : TypeEnv} (hS : InSetting ctx S)
    (hl : ExprTyped S Γ left Γ₁) (hr : ExprTyped S Γ₁ right Γ')
    (h : binary ctx op left right span s = .ok e' s') : ExprTyped S Γ e' Γ' ∧ s' = s := by
  simp only [binary, Option.bind_eq_bind] at h
  cases hv : left.constant?.bind fun a => right.constant?.bind fun b => Constant.fold op a b with
  | some v =>
    rw [hv] at h
    obtain ⟨a, ha, hv⟩ := Option.bind_eq_some_iff.1 hv
    obtain ⟨b, hb, -⟩ := Option.bind_eq_some_iff.1 hv
    cases hl.env_eq_of_constant? ha
    cases hr.env_eq_of_constant? hb
    obtain ⟨rfl, rfl⟩ := pure_ok.1 h
    exact ⟨.ofConstant v span, rfl⟩
  | none =>
    rw [hv] at h
    exact operator_typed hS (.cons hl (.cons hr .nil)) h

/-- Arguments that pass the check have types that convert to those of the parameters, as far as there
are arguments. -/
theorem checkArgs_ok {function : String} {args : List TypedExpr} {params : List TypedParam}
    {u : Unit} (hl : args.length ≤ params.length) (h : checkArgs function args params s = .ok u s') :
    ∃ types, List.Forall₂ (fun e t => e.types.head? = some t) args types ∧
      ConvertAll types (params.map (·.type)) ∧ s' = s := by
  induction args generalizing params s with
  | nil =>
    obtain ⟨-, rfl⟩ := pure_ok.1 h
    exact ⟨[], .nil, trivial, rfl⟩
  | cons a args ih =>
    cases params with
    | nil => exact absurd hl (by simp)
    | cons p params =>
      simp only [checkArgs, bind_ok, valueType_ok, guard_ok] at h
      obtain ⟨t, _, ⟨ht, rfl⟩, hc, h⟩ := h
      obtain ⟨types, hts, hcs, rfl⟩ := ih (Nat.le_of_succ_le_succ hl) h
      exact ⟨t :: types, .cons ht hts, ⟨by simpa using hc, hcs⟩, rfl⟩

/-- A call of a definition is well typed: the arguments that are given convert, and those that are
left out have defaults. -/
theorem functionCall_typed {f : TypedFunction} {args : List TypedExpr} (hk : S.known f)
    (hf : FunctionTyped S f) (ha : ArgsTyped S Γ args Γ')
    (h : functionCall f args span s = .ok e' s') : ExprTyped S Γ e' Γ' ∧ s' = s := by
  simp only [functionCall, guard_ok] at h
  obtain ⟨hl, h⟩ := h
  cases hd : (f.inputs.drop args.length).find? (·.default.isNone) with
  | some p =>
    rw [hd] at h
    exact (fail_ok.1 h).elim
  | none =>
    simp only [hd, bind_ok, pure_ok] at h
    obtain ⟨_, _, hargs, rfl, rfl⟩ := h
    obtain ⟨types, hts, hcs, rfl⟩ := checkArgs_ok (by omega) hargs
    obtain ⟨ha', hfeeds, hlen⟩ := convertArgs_typed ha hts hcs
    refine ⟨.call hk hf ha' hfeeds ?_ rfl rfl ⟨by simp [Typing.varType], ?_⟩, rfl⟩
    · intro p hp
      rw [hlen] at hp
      have := List.find?_eq_none.1 hd p hp
      simpa [Option.isNone_iff_eq_none, Option.ne_none_iff_exists'] using this
    · simp only [Typing.varType, List.length_map, Shape.ofOutputs]
      split <;> simp <;> omega

/-- A call by name is well typed, whether it finds a definition or an overload of a builtin. -/
theorem call_typed {name : String} {args : List TypedExpr} (hS : InSetting ctx S)
    (hk : Knows S s.functions) (ha : ArgsTyped S Γ args Γ')
    (h : call ctx name args span s = .ok e' s') : ExprTyped S Γ e' Γ' ∧ s' = s := by
  simp only [call, bind_ok, get_ok] at h
  obtain ⟨_, _, ⟨rfl, rfl⟩, h⟩ := h
  cases hf : s.functions.get? name with
  | some f =>
    rw [hf] at h
    obtain ⟨-, hknown, htyped⟩ := hk _ _ hf
    exact functionCall_typed hknown htyped ha h
  | none =>
    simp only [hf, guard_ok, bind_ok, require_ok, pure_ok] at h
    obtain ⟨-, types, _, hts, o, _, ⟨ho, rfl⟩, rfl, rfl⟩ := h
    obtain ⟨hheads, rfl⟩ := valueTypes_ok hts
    obtain ⟨hmem, hcost⟩ := Overload.select_some ho
    rw [← hS.tree] at hmem
    exact ⟨nodeCall_typed span hmem ha hheads hcost, rfl⟩

/-! ### Names, vectors and members -/

/-- What checking an expression gives: a well-typed expression, and the scope that its free variables
make. -/
def Typed (S : Setting) (Γ : TypeEnv) (s : Checker) (e' : TypedExpr) (s' : Checker) : Prop :=
  ∃ Γ', ExprTyped S Γ e' Γ' ∧ Tracks s'.scope Γ' ∧ s' = { s with scope := s'.scope }

/-- A name is well typed: a counter as its constant, a variable with its type, and a free name as an
input of type float, which is bound from then on. -/
theorem name_typed {n : String} (hS : InSetting ctx S) (ht : Tracks s.scope Γ) (hn : S.spelled n)
    (h : name ctx n span s = .ok e' s') : Typed S Γ s e' s' := by
  simp only [name, bind_ok, get_ok] at h
  obtain ⟨_, _, ⟨rfl, rfl⟩, h⟩ := h
  cases hb : s.scope.get? n with
  | some b =>
    cases hv : b.constant with
    | some v =>
      simp only [hb, hv] at h
      obtain ⟨rfl, rfl⟩ := pure_ok.1 h
      exact ⟨Γ, .ofConstant v span, ht, rfl⟩
    | none =>
      simp only [hb, hv] at h
      obtain ⟨rfl, rfl⟩ := pure_ok.1 h
      obtain ⟨hΓ, hp⟩ := ht.bound n b hb hv
      exact ⟨Γ, .var hΓ hp, ht, rfl⟩
  | none =>
    simp only [hb] at h
    split at h
    next => exact (fail_ok.1 h).elim
    next hc =>
      simp only [Bool.or_eq_true, not_or, Bool.not_eq_true] at hc
      have hfree : S.free = true := by
        rw [hS.free]
        simpa [Option.isSome_eq_false_iff, Option.isNone_iff_eq_none] using hc.1
      simp only [Check.bind, bind_ok, modify_ok, pure_ok] at h
      obtain ⟨_, _, rfl, rfl, rfl⟩ := h
      exact ⟨_, .free hfree hn (ht.unbound n hb) rfl,
        ht.insert n rfl (VarType.proper_value _), rfl⟩

/-- Components that pass the check have types that convert to float, and the check leaves the checker
as it was. The induction is on the components. -/
theorem checkComponents_ok {items : List TypedExpr} {u : Unit}
    (h : checkComponents items s = .ok u s') :
    ∃ types, List.Forall₂ (fun e t => e.types.head? = some t) items types ∧
      (∀ t ∈ types, t.convertsTo .float = true) ∧ s' = s := by
  induction items generalizing s with
  | nil =>
    obtain ⟨-, rfl⟩ := pure_ok.1 h
    exact ⟨[], .nil, nofun, rfl⟩
  | cons e items ih =>
    simp only [checkComponents, bind_ok, valueType_ok, guard_ok] at h
    obtain ⟨t, _, ⟨ht, rfl⟩, hc, h⟩ := h
    obtain ⟨types, hts, hcs, rfl⟩ := ih h
    refine ⟨t :: types, .cons ht hts, ?_, rfl⟩
    intro u hu
    cases hu with
    | head => simpa using hc
    | tail _ hu => exact hcs u hu

/-- Types that convert to float convert to parameters that are all of type float, of which there are
as many. -/
theorem convertAll_of_forall_float {types params : List SocketType}
    (hl : types.length = params.length) (ht : ∀ t ∈ types, t.convertsTo .float = true)
    (hp : ∀ p ∈ params, p = .float) : ConvertAll types params := by
  induction types generalizing params with
  | nil => trivial
  | cons t types ih =>
    cases params with
    | nil => cases hl
    | cons p params =>
      refine ⟨?_, ih (by simpa using hl) (fun u hu => ht u (.tail _ hu))
        (fun q hq => hp q (.tail _ hq))⟩
      rw [hp p (.head _)]
      exact ht t (.head _)

/-- A vector literal whose components are constants binds no free variable: each component leaves the
environment as it was, by induction on the components. -/
theorem env_eq_of_constantVector? {items : List TypedExpr} {v : Constant}
    (h : ArgsTyped S Γ items Γ') (hv : constantVector? items = some v) : Γ' = Γ := by
  have key : ∀ {es : List TypedExpr} {Γ}, ArgsTyped S Γ es Γ' →
      (∀ e ∈ es, ∃ u, e.constant? = some u) → Γ' = Γ := by
    intro es
    induction es with
    | nil => intro Γ h _; cases h; rfl
    | cons e es ih =>
      intro Γ h hc
      cases h with
      | cons he hes =>
        obtain ⟨u, hu⟩ := hc e (.head _)
        rw [ih hes fun x hx => hc x (.tail _ hx), he.env_eq_of_constant? hu]
  refine key h ?_
  unfold constantVector? at hv
  split at hv
  · simp only [Option.bind_eq_bind, Option.bind_eq_some_iff] at hv
    obtain ⟨_, ⟨x, hx, -⟩, _, ⟨y, hy, -⟩, _, ⟨z, hz, -⟩, -⟩ := hv
    simp [hx, hy, hz]
  · simp only [Option.bind_eq_bind, Option.bind_eq_some_iff] at hv
    obtain ⟨_, ⟨x, hx, -⟩, _, ⟨y, hy, -⟩, _, ⟨z, hz, -⟩, _, ⟨w, hw, -⟩, -⟩ := hv
    simp [hx, hy, hz, hw]
  · cases hv

/-- A vector is well typed, as a constant if all its components are, and otherwise as a call of the
node that combines its components. -/
theorem vector_typed {type : SocketType} {items : List TypedExpr} (hS : InSetting ctx S)
    (ha : ArgsTyped S Γ items Γ') (h : vector ctx type items span s = .ok e' s') :
    ExprTyped S Γ e' Γ' ∧ s' = s := by
  unfold vector at h
  cases hv : constantVector? items with
  | some v =>
    rw [hv] at h
    obtain ⟨rfl, rfl⟩ := pure_ok.1 h
    cases env_eq_of_constantVector? ha hv
    exact ⟨.ofConstant v span, rfl⟩
  | none =>
    simp only [hv, bind_ok, require_ok, guard_ok, pure_ok] at h
    obtain ⟨_, _, hcs, join, _, ⟨hj, rfl⟩, hl, rfl, rfl⟩ := h
    obtain ⟨types, hts, hfloat, rfl⟩ := checkComponents_ok hcs
    rw [← hS.tree] at hj
    obtain ⟨name, hmem⟩ := TreeKind.mem_overloads_of_combine hj
    have hlen : types.length = join.inputs.length := by
      rw [← hts.length_eq]
      omega
    have hconv := convertAll_of_forall_float hlen hfloat (TreeKind.combine_inputs hj)
    exact ⟨nodeCall_typed span hmem ha hts hconv, rfl⟩

/-- A member is well typed: an output of a bundle, or a component of a vector, which is folded if the
vector is a constant. -/
theorem member_typed {e : TypedExpr} {n : String} (hS : InSetting ctx S)
    (he : ExprTyped S Γ e Γ') (h : member ctx e n span s = .ok e' s') :
    ExprTyped S Γ e' Γ' ∧ s' = s := by
  unfold member at h
  cases hb : e.shape with
  | bundle =>
    simp only [hb, bind_ok, require_ok, pure_ok] at h
    obtain ⟨i, _, ⟨hi, rfl⟩, t, _, ⟨ht, rfl⟩, rfl, rfl⟩ := h
    obtain ⟨hlt, hn, -⟩ := List.findIdx?_eq_some_iff_getElem.1 hi
    refine ⟨.output he hb ht (n := n) ?_ rfl, rfl⟩
    rw [List.getElem?_eq_getElem hlt]
    simpa using hn
  | single =>
    simp only [hb, bind_ok, valueType_ok, require_ok] at h
    obtain ⟨t, _, ⟨ht, rfl⟩, part, _, ⟨hpart, rfl⟩, h⟩ := h
    cases hv : e.constant?.bind part.fold? with
    | some v =>
      rw [hv] at h
      obtain ⟨rfl, rfl⟩ := pure_ok.1 h
      obtain ⟨u, hu, -⟩ := Option.bind_eq_some_iff.1 hv
      cases he.env_eq_of_constant? hu
      exact ⟨.ofConstant v span, rfl⟩
    | none =>
      rw [hv] at h
      obtain ⟨rfl, rfl⟩ := pure_ok.1 h
      rw [← hS.tree] at hpart
      exact ⟨.component he hb ht (Component.of_lookup? hpart) rfl, rfl⟩

/-! ### All expressions -/

mutual

/-- What the checker makes of an expression is well typed, and the scope behind it is tracked by the
environment behind it. There is a case for each kind of expression, and the induction is on the
expression. -/
theorem expr_typed (hS : InSetting ctx S) : (e : Expr) → ∀ {Γ : TypeEnv} {s s' : Checker}
    {e' : TypedExpr}, e.Spelled S.spelled → Tracks s.scope Γ → Knows S s.functions →
    expr ctx e s = .ok e' s' → Typed S Γ s e' s'
  | .int v sp, Γ, s, _, _, _, ht, _, h => by
    obtain ⟨rfl, rfl⟩ := pure_ok.1 h
    exact ⟨Γ, .ofConstant (.int v) sp, ht, rfl⟩
  | .float v sp, Γ, s, _, _, _, ht, _, h => by
    obtain ⟨rfl, rfl⟩ := pure_ok.1 h
    exact ⟨Γ, .ofConstant (.float v) sp, ht, rfl⟩
  | .bool v sp, Γ, s, _, _, _, ht, _, h => by
    obtain ⟨rfl, rfl⟩ := pure_ok.1 h
    exact ⟨Γ, .ofConstant (.bool v) sp, ht, rfl⟩
  | .str v sp, Γ, s, _, _, _, ht, _, h => by
    obtain ⟨rfl, rfl⟩ := pure_ok.1 h
    exact ⟨Γ, .ofConstant (.str v) sp, ht, rfl⟩
  | .name n sp, _, _, _, _, hn, ht, _, h => name_typed hS ht hn h
  | .vector items sp, _, _, _, _, hn, ht, hk, h => by
    simp only [expr, bind_ok, require_ok] at h
    obtain ⟨type, _, ⟨-, rfl⟩, items', s₁, hitems, h⟩ := h
    obtain ⟨Γ', ha, ht', hs⟩ := exprs_typed hS items hn ht hk hitems
    obtain ⟨he, rfl⟩ := vector_typed hS ha h
    exact ⟨Γ', he, ht', hs⟩
  | .unary op e sp, _, _, _, _, hn, ht, hk, h => by
    simp only [expr, bind_ok] at h
    obtain ⟨e₁, s₁, he₁, h⟩ := h
    obtain ⟨Γ', he, ht', hs⟩ := expr_typed hS e hn ht hk he₁
    obtain ⟨he', rfl⟩ := unary_typed hS he h
    exact ⟨Γ', he', ht', hs⟩
  | .binary op l r sp, _, _, _, _, hn, ht, hk, h => by
    simp only [expr, bind_ok] at h
    obtain ⟨l', s₁, hl', r', s₂, hr', h⟩ := h
    obtain ⟨Γ₁, hl, ht₁, hs₁⟩ := expr_typed hS l hn.1 ht hk hl'
    obtain ⟨Γ', hr, ht', hs⟩ := expr_typed hS r hn.2 ht₁ (by rw [hs₁]; exact hk) hr'
    obtain ⟨he', rfl⟩ := binary_typed hS hl hr h
    exact ⟨Γ', he', ht', by rw [hs, hs₁]⟩
  | .call f args sp, _, _, _, _, hn, ht, hk, h => by
    simp only [expr, bind_ok] at h
    obtain ⟨args', s₁, hargs, h⟩ := h
    obtain ⟨Γ', ha, ht', hs⟩ := exprs_typed hS args hn ht hk hargs
    obtain ⟨he', rfl⟩ := call_typed hS (by rw [hs]; exact hk) ha h
    exact ⟨Γ', he', ht', hs⟩
  | .member e n sp, _, _, _, _, hn, ht, hk, h => by
    simp only [expr, bind_ok] at h
    obtain ⟨e₁, s₁, he₁, h⟩ := h
    obtain ⟨Γ', he, ht', hs⟩ := expr_typed hS e hn ht hk he₁
    obtain ⟨he', rfl⟩ := member_typed hS he h
    exact ⟨Γ', he', ht', hs⟩

/-- What the checker makes of expressions is well typed, one after the other, where a free variable
that the first creates is in scope for the next. Nothing but the scope changes. -/
theorem exprs_typed (hS : InSetting ctx S) : (es : List Expr) → ∀ {Γ : TypeEnv} {s s' : Checker}
    {es' : List TypedExpr}, Expr.AllSpelled S.spelled es → Tracks s.scope Γ →
    Knows S s.functions → exprs ctx es s = .ok es' s' →
    ∃ Γ', ArgsTyped S Γ es' Γ' ∧ Tracks s'.scope Γ' ∧ s' = { s with scope := s'.scope }
  | [], Γ, _, _, _, _, ht, _, h => by
    obtain ⟨rfl, rfl⟩ := pure_ok.1 h
    exact ⟨Γ, .nil, ht, rfl⟩
  | e :: es, _, _, _, _, hn, ht, hk, h => by
    simp only [exprs, bind_ok, pure_ok] at h
    obtain ⟨e', s₁, he', es', s₂, hes', rfl, rfl⟩ := h
    obtain ⟨Γ₁, he, ht₁, hs₁⟩ := expr_typed hS e hn.1 ht hk he'
    obtain ⟨Γ', hes, ht', hs⟩ := exprs_typed hS es hn.2 ht₁ (by rw [hs₁]; exact hk) hes'
    exact ⟨Γ', .cons he hes, ht', by rw [hs, hs₁]⟩

end

end

end Check

end NodeFormula

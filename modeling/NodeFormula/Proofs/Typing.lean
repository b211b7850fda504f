import NodeFormula.Typed

/-!
# Well-typed formulas

When a typed formula is well typed, said apart from how a checker finds its types. A typing
environment gives the types, output names and shape of each variable in scope. `ExprTyped S Γ e Γ'`
says that `e` is well typed in `Γ`; the environment `Γ'` after it has the free variables that `e`
is the first to use. `StmtTyped` and `BlockTyped` thread the environment through statements, and a
repeat zone leaves the environment as it was where the zone starts. A call is well typed only if
the body of the definition it calls is, so a derivation covers every body that is reached.

The `Setting` is what stays the same throughout a block: the part of the language that is used, the
kind of tree, the definitions that may be called, the outputs of the enclosing definition, whether
free variables are allowed, and the environments in which the zones around the block start.
-/

namespace NodeFormula

/-! ### Types of variables -/

/-- What a variable stands for: the type and the name of each output, and its shape. -/
structure VarType where
  types : List SocketType
  names : List String
  shape : Shape
deriving DecidableEq

namespace VarType

/-- A single unnamed value. -/
def value (type : SocketType) : VarType := ⟨[type], [""], .single⟩

/-- Every output has a name, and there is a bundle exactly for two outputs or more. -/
structure Proper (t : VarType) : Prop where
  names : t.names.length = t.types.length
  shape : t.shape = .bundle ↔ 2 ≤ t.types.length

/-- A variable of type `t` that a zone starts with may be rebound to a value of type `u` in it. -/
structure Carries (t u : VarType) : Prop where
  single : t.shape = .single
  types : t.types = u.types
  shape : t.shape = u.shape

theorem Proper.length_eq_one {t : VarType} (h : t.Proper) (hs : t.shape = .single)
    (hne : t.types ≠ []) : t.types.length = 1 := by
  have hpos : t.types.length ≠ 0 := fun h => hne (List.length_eq_zero_iff.1 h)
  have htwo : ¬ 2 ≤ t.types.length := fun h2 => by
    rw [h.shape.2 h2] at hs
    cases hs
  omega

theorem proper_value (type : SocketType) : (value type).Proper := ⟨rfl, by simp [value]⟩

end VarType

/-- What an expression with this typing stands for. -/
def Typing.varType (t : Typing) : VarType := ⟨t.types, t.names, t.shape⟩

/-- What an expression stands for. -/
def TypedExpr.varType (e : TypedExpr) : VarType := e.typing.varType

/-- The variables in scope. -/
abbrev TypeEnv := String → Option VarType

namespace TypeEnv

/-- No variables. -/
def empty : TypeEnv := fun _ => none

/-- The environment after a variable is bound. -/
def bind (Γ : TypeEnv) (x : String) (t : VarType) : TypeEnv := fun y => if y = x then some t else Γ y

/-- The environment with the parameters of a definition bound in order. -/
def bindParams (Γ : TypeEnv) (params : List TypedParam) : TypeEnv :=
  params.foldl (fun Γ p => Γ.bind p.name (.value p.type)) Γ

@[simp] theorem bind_self (Γ : TypeEnv) (x : String) (t : VarType) : Γ.bind x t x = some t := by
  simp [bind]

theorem bind_of_ne {Γ : TypeEnv} {x y : String} {t : VarType} (h : y ≠ x) :
    Γ.bind x t y = Γ y := by
  simp [bind, h]

end TypeEnv

/-! ### Settings -/

/-- A part of the language. -/
structure Dialect where
  /-- The names that variables may have. -/
  spelled : String → Prop
  /-- Whether repeat zones may be used. -/
  repeats : Prop

/-- What stays the same throughout a block of statements. -/
structure Setting extends Dialect where
  tree : TreeKind
  /-- The definitions that may be called. -/
  known : TypedFunction → Prop
  /-- The outputs of the definition around the block. -/
  outputs : List TypedParam := []
  /-- Whether an unbound name is a free variable. -/
  free : Bool := true
  /-- The environments in which the zones around the block start, outermost first. -/
  zones : List TypeEnv := []

namespace Setting

/-- The setting of a definition's body. -/
def body (S : Setting) (f : TypedFunction) : Setting :=
  { S with outputs := f.outputs, free := false, zones := [] }

/-- The setting of the body of a zone that starts in `Γ`. -/
def inZone (S : Setting) (Γ : TypeEnv) : Setting :=
  { S with free := false, zones := S.zones ++ [Γ] }

end Setting

/-! ### Conditions of the rules -/

/-- An expression may be passed where a value of type `p` is asked for: its first output can be
converted, and a constant is converted already. -/
structure TypedExpr.Feeds (e : TypedExpr) (p : SocketType) : Prop where
  converts : ∃ t, e.types.head? = some t ∧ t.convertsTo p = true
  constant : ∀ v, e.constant? = some v → v.type = p

/-- Arguments may be passed to the first of the given parameters. -/
def FeedsAll : List TypedExpr → List SocketType → Prop
  | [], _ => True
  | _ :: _, [] => False
  | e :: es, p :: ps => e.Feeds p ∧ FeedsAll es ps

theorem FeedsAll.length_le : ∀ {es : List TypedExpr} {ps : List SocketType},
    FeedsAll es ps → es.length ≤ ps.length
  | [], _, _ => Nat.zero_le _
  | _ :: _, [], h => h.elim
  | _ :: _, _ :: _, h => Nat.succ_le_succ (length_le h.2)

theorem FeedsAll.exists_head? : ∀ {es : List TypedExpr} {ps : List SocketType}, FeedsAll es ps →
    ∀ e ∈ es, ∃ t, e.types.head? = some t
  | _ :: _, _ :: _, h, _, .head _ =>
    let ⟨t, ht, _⟩ := h.1.converts
    ⟨t, ht⟩
  | _ :: _, _ :: _, h, x, .tail _ hx => exists_head? h.2 x hx

/-- A component of the values of type `type` that the node which splits them has. -/
def Component.Of (k : Component) (tree : TreeKind) (type : SocketType) : Prop :=
  k.object = type ∧ ∃ split, tree.separate type = some split ∧ k.index < split.outputs.length

/-- The parts that an expression can be unpacked into: the outputs of a bundle, or the components of
a single value. -/
inductive Unpacks (tree : TreeKind) (e : TypedExpr) : List SocketType → Prop where
  | bundle : e.shape = .bundle → Unpacks tree e e.types
  | single {type : SocketType} {split : Overload} : e.shape = .single →
      e.types.head? = some type → tree.separate type = some split →
      Unpacks tree e split.outputTypes

/-- A constant that an assignment keeps has a node that holds it. -/
def ConstantKept (tree : TreeKind) (target : TypedTarget) (e : TypedExpr) : Prop :=
  target ≠ .ignore → ∀ v, e.constant? = some v → tree.supportsConstant v.type = true

/-- A statement assigns an output of the enclosing definition. -/
def TypedStmt.Assigns (s : TypedStmt) (i : Nat) : Prop :=
  match s with
  | .assign targets _ => .output i ∈ targets
  | _ => False

/-- A value of type `t` is assigned to a target. A zone around the assignment keeps the types of the
variables it starts with, and assigns no output. -/
inductive TargetTyped (S : Setting) (Γ : TypeEnv) : TypedTarget → VarType → TypeEnv → Prop where
  | var {x : String} {t : VarType} : S.spelled x →
      (∀ outer ∈ S.zones, ∀ o, outer x = some o → o.Carries t) →
      TargetTyped S Γ (.var x) t (Γ.bind x t)
  | output {i : Nat} {p : TypedParam} {t : VarType} {a : SocketType} : S.zones = [] →
      S.outputs[i]? = some p → t.types.head? = some a → a.convertsTo p.type = true →
      TargetTyped S Γ (.output i) t Γ
  | ignore {t : VarType} : TargetTyped S Γ .ignore t Γ

/-- Parts of the given types are assigned to targets in order. There may be more parts. -/
inductive TargetsTyped (S : Setting) :
    TypeEnv → List TypedTarget → List SocketType → TypeEnv → Prop where
  | nil {Γ : TypeEnv} {parts : List SocketType} : TargetsTyped S Γ [] parts Γ
  | cons {Γ Γ₁ Γ' : TypeEnv} {target : TypedTarget} {targets : List TypedTarget}
      {part : SocketType} {parts : List SocketType} :
      TargetTyped S Γ target (.value part) Γ₁ → TargetsTyped S Γ₁ targets parts Γ' →
      TargetsTyped S Γ (target :: targets) (part :: parts) Γ'

theorem TargetsTyped.length_le {S : Setting} {Γ Γ' : TypeEnv} {targets : List TypedTarget}
    {parts : List SocketType} (h : TargetsTyped S Γ targets parts Γ') :
    targets.length ≤ parts.length := by
  induction h with
  | nil => exact Nat.zero_le _
  | cons _ _ ih => exact Nat.succ_le_succ ih

/-! ### The rules -/

mutual

/-- An expression is well typed. -/
inductive ExprTyped : Setting → TypeEnv → TypedExpr → TypeEnv → Prop where
  | constant {S : Setting} {Γ : TypeEnv} {v : Constant} {t : Typing} :
      t.varType = .value v.type → ExprTyped S Γ (.constant v t) Γ
  /-- A variable that is read was bound with exactly these types, names and shape. -/
  | var {S : Setting} {Γ : TypeEnv} {x : String} {t : Typing} :
      Γ x = some t.varType → t.varType.Proper → ExprTyped S Γ (.var x false t) Γ
  /-- A free variable is a float that its first use binds. -/
  | free {S : Setting} {Γ : TypeEnv} {x : String} {t : Typing} :
      S.free = true → S.spelled x → Γ x = none → t.varType = .value .float →
      ExprTyped S Γ (.var x true t) (Γ.bind x (.value .float))
  | node {S : Setting} {Γ Γ' : TypeEnv} {name : String} {o : Overload} {args : List TypedExpr}
      {t : Typing} :
      (name, o) ∈ S.tree.catalog → ArgsTyped S Γ args Γ' → FeedsAll args o.inputs →
      o.inputs.length = o.node.inputs.length → o.outputs.length = o.node.outputs.length →
      t.types = o.outputTypes → t.names = o.outputNames → t.varType.Proper →
      ExprTyped S Γ (.node o.node args t) Γ'
  | call {S : Setting} {Γ Γ' : TypeEnv} {f : TypedFunction} {args : List TypedExpr} {t : Typing} :
      S.known f → FunctionTyped S f → ArgsTyped S Γ args Γ' →
      FeedsAll args (f.inputs.map (·.type)) →
      (∀ p ∈ f.inputs.drop args.length, ∃ v, p.default = some v) →
      t.types = f.outputs.map (·.type) → t.names = f.outputs.map (·.name) → t.varType.Proper →
      ExprTyped S Γ (.call f args t) Γ'
  | output {S : Setting} {Γ Γ' : TypeEnv} {e : TypedExpr} {i : Nat} {type : SocketType}
      {n : String} {t : Typing} :
      ExprTyped S Γ e Γ' → e.shape = .bundle → e.types[i]? = some type →
      e.typing.names[i]? = some n → t.varType = ⟨[type], [n], .single⟩ →
      ExprTyped S Γ (.output e i t) Γ'
  | component {S : Setting} {Γ Γ' : TypeEnv} {e : TypedExpr} {part : Component}
      {type : SocketType} {n : String} {t : Typing} :
      ExprTyped S Γ e Γ' → e.shape = .single → e.types.head? = some type →
      part.Of S.tree type → t.varType = ⟨[Component.type], [n], .single⟩ →
      ExprTyped S Γ (.component e part t) Γ'

/-- Expressions are well typed one after the other. -/
inductive ArgsTyped : Setting → TypeEnv → List TypedExpr → TypeEnv → Prop where
  | nil {S : Setting} {Γ : TypeEnv} : ArgsTyped S Γ [] Γ
  | cons {S : Setting} {Γ Γ₁ Γ' : TypeEnv} {e : TypedExpr} {es : List TypedExpr} :
      ExprTyped S Γ e Γ₁ → ArgsTyped S Γ₁ es Γ' → ArgsTyped S Γ (e :: es) Γ'

/-- A definition is well typed: its defaults have the types of their parameters, and its body is well
typed from its parameters on and assigns every output. -/
inductive FunctionTyped : Setting → TypedFunction → Prop where
  | mk {S : Setting} {f : TypedFunction} {Γ' : TypeEnv} :
      (∀ p ∈ f.inputs, S.spelled p.name) →
      (∀ p ∈ f.inputs, ∀ v, p.default = some v → v.type = p.type) →
      BlockTyped (S.body f) (TypeEnv.empty.bindParams f.inputs) f.body Γ' →
      (∀ i < f.outputs.length, ∃ s ∈ f.body, s.Assigns i) →
      FunctionTyped S f

/-- A statement is well typed. -/
inductive StmtTyped : Setting → TypeEnv → TypedStmt → TypeEnv → Prop where
  | expr {S : Setting} {Γ Γ' : TypeEnv} {e : TypedExpr} :
      ExprTyped S Γ e Γ' → StmtTyped S Γ (.expr e) Γ'
  | assign {S : Setting} {Γ Γ₁ Γ' : TypeEnv} {target : TypedTarget} {e : TypedExpr} :
      ExprTyped S Γ e Γ₁ → e.types ≠ [] → ConstantKept S.tree target e →
      TargetTyped S Γ₁ target e.varType Γ' → StmtTyped S Γ (.assign [target] e) Γ'
  /-- The parts of a value that is no constant are assigned to several targets. -/
  | unpack {S : Setting} {Γ Γ₁ Γ' : TypeEnv} {targets : List TypedTarget} {e : TypedExpr}
      {parts : List SocketType} :
      ExprTyped S Γ e Γ₁ → e.types ≠ [] → e.constant? = none → targets.length ≠ 1 →
      Unpacks S.tree e parts → TargetsTyped S Γ₁ targets parts Γ' →
      StmtTyped S Γ (.assign targets e) Γ'
  | setField {S : Setting} {Γ Γ' : TypeEnv} {x : String} {t : Typing} {part : Component}
      {type : SocketType} {value : TypedExpr} :
      ExprTyped S Γ (.var x false t) Γ → S.spelled x → t.shape = .single →
      t.types.head? = some type → part.Of S.tree type → ExprTyped S Γ value Γ' →
      value.Feeds Component.type → StmtTyped S Γ (.setField x (.var x false t) part value) Γ'
  | zone {S : Setting} {Γ Γ₁ Γ₂ : TypeEnv} {count : TypedExpr} {body : List TypedStmt} :
      S.repeats → S.tree.supportsRepeat = true → ExprTyped S Γ count Γ₁ → count.Feeds .int →
      BlockTyped (S.inZone Γ₁) Γ₁ body Γ₂ → StmtTyped S Γ (.zone count body) Γ₁

/-- Statements are well typed one after the other. -/
inductive BlockTyped : Setting → TypeEnv → List TypedStmt → TypeEnv → Prop where
  | nil {S : Setting} {Γ : TypeEnv} : BlockTyped S Γ [] Γ
  | cons {S : Setting} {Γ Γ₁ Γ' : TypeEnv} {s : TypedStmt} {ss : List TypedStmt} :
      StmtTyped S Γ s Γ₁ → BlockTyped S Γ₁ ss Γ' → BlockTyped S Γ (s :: ss) Γ'

end

namespace ExprTyped

/-- Every expression has a name for each output, and a bundle exactly for two outputs or more. -/
theorem proper {S : Setting} {Γ Γ' : TypeEnv} {e : TypedExpr} (h : ExprTyped S Γ e Γ') :
    e.varType.Proper := by
  cases h with
  | constant ht | free _ _ _ ht =>
    rw [TypedExpr.varType, TypedExpr.typing, ht]
    exact VarType.proper_value _
  | var _ hp | node _ _ _ _ _ _ _ hp | call _ _ _ _ _ _ _ hp => exact hp
  | output _ _ _ _ ht | component _ _ _ _ ht =>
    rw [TypedExpr.varType, TypedExpr.typing, ht]
    exact ⟨rfl, by simp⟩

/-- A constant binds no free variable. -/
theorem env_eq_of_constant? {S : Setting} {Γ Γ' : TypeEnv} {e : TypedExpr} {v : Constant}
    (h : ExprTyped S Γ e Γ') (hv : e.constant? = some v) : Γ' = Γ := by
  cases h with
  | constant => rfl
  | _ => cases hv

end ExprTyped

namespace BlockTyped

/-- Well-typed blocks in a row are one well-typed block. -/
theorem append {S : Setting} {Γ Γ₁ Γ' : TypeEnv} {a b : List TypedStmt}
    (ha : BlockTyped S Γ a Γ₁) (hb : BlockTyped S Γ₁ b Γ') : BlockTyped S Γ (a ++ b) Γ' := by
  induction a generalizing Γ with
  | nil => cases ha; exact hb
  | cons s ss ih => cases ha with | cons hs hss => exact .cons hs (ih hss)

/-- One well-typed statement is a well-typed block. -/
theorem single {S : Setting} {Γ Γ' : TypeEnv} {s : TypedStmt} (h : StmtTyped S Γ s Γ') :
    BlockTyped S Γ [s] Γ' := .cons h .nil

end BlockTyped

end NodeFormula

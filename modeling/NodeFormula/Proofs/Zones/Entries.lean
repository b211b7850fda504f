import NodeFormula.Proofs.Running.Widths
import NodeFormula.Typed.Statement

/-!
# The zones that a formula enters

A zone is entered each time that its statement is run, so a zone in a function is entered once for each
call. `TypedStmt.zonesAll` lists the zones that statements enter, in the order of the run, each with the
variables in scope and the widths of the machine's variables where its body starts. Zones in a node
group belong to the tree of the group, and are listed for the group (`TypedFunction.zones`).

The scope is computed here from the statements. For well-typed statements it is the environment of
their typing (`StmtTyped.scopeAfter_eq`).
-/

namespace NodeFormula

/-! ### Scopes -/

namespace TypeEnv

/-- The environment after a target takes a value. -/
def store (Γ : TypeEnv) (t : VarType) : TypedTarget → TypeEnv
  | .var x => Γ.bind x t
  | _ => Γ

/-- The environment after targets take parts of the given types, one each. -/
def storeParts (Γ : TypeEnv) : List TypedTarget → List SocketType → TypeEnv
  | target :: targets, part :: parts => (Γ.store (.value part) target).storeParts targets parts
  | _, _ => Γ

end TypeEnv

mutual

/-- The variables in scope after an expression: a free variable is in scope from its first use on. -/
def TypedExpr.scopeAfter (Γ : TypeEnv) : TypedExpr → TypeEnv
  | .constant _ _ => Γ
  | .var x fresh _ => if fresh then Γ.bind x (.value .float) else Γ
  | .node _ args _ => TypedExpr.scopeAfterAll Γ args
  | .call _ args _ => TypedExpr.scopeAfterAll Γ args
  | .output e _ _ => e.scopeAfter Γ
  | .component e _ _ => e.scopeAfter Γ

/-- The variables in scope after expressions. -/
def TypedExpr.scopeAfterAll (Γ : TypeEnv) : List TypedExpr → TypeEnv
  | [] => Γ
  | e :: es => TypedExpr.scopeAfterAll (e.scopeAfter Γ) es

end

/-- The types of the parts that several targets take of a value. -/
def TypedExpr.partTypes (tree : TreeKind) (e : TypedExpr) : List SocketType :=
  (e.types.head?.bind (Check.partTypes? tree e)).getD []

/-- The variables in scope after targets take the value of an expression: a single target takes all of
it, and several take one part each. -/
def TypeEnv.storeAll (tree : TreeKind) (Γ : TypeEnv) (e : TypedExpr) : List TypedTarget → TypeEnv
  | [target] => Γ.store e.varType target
  | targets => Γ.storeParts targets (e.partTypes tree)

/-- The variables in scope after a statement. What a zone binds first is not in scope after it. -/
def TypedStmt.scopeAfter (tree : TreeKind) (Γ : TypeEnv) : TypedStmt → TypeEnv
  | .expr e => e.scopeAfter Γ
  | .assign targets e => (e.scopeAfter Γ).storeAll tree e targets
  | .setField _ _ _ value => value.scopeAfter Γ
  | .zone count _ => count.scopeAfter Γ

/-- The variables in scope after statements. -/
def TypedStmt.scopeAfterAll (tree : TreeKind) (Γ : TypeEnv) (ss : List TypedStmt) : TypeEnv :=
  ss.foldl (fun Γ s => s.scopeAfter tree Γ) Γ

/-! ### Zones -/

/-- A zone that is entered: the variables in scope and the widths of the machine's variables where its
body starts, and its body. -/
structure ZoneEntry where
  scope : TypeEnv
  held : Widths
  body : List TypedStmt

namespace ZoneEntry

/-- The body of a zone, or of a zone in it, assigns a variable or a component of it. -/
def Assigns (z : ZoneEntry) (x : String) : Prop := x ∈ TypedStmt.boundVarsAll z.body

/-- A variable is in scope where a zone is entered. -/
def Visible (z : ZoneEntry) (x : String) : Prop := z.scope x ≠ none

/-- The machine holds a single value for a name that is not in scope where a zone is entered. -/
def LeftBehind (z : ZoneEntry) (x : String) : Prop := z.scope x = none ∧ z.held x = some 1

end ZoneEntry

mutual

/-- The zones that an expression enters, which are those in the functions that it calls. -/
def TypedExpr.zones (tree : TreeKind) : TypedExpr → List ZoneEntry
  | .constant _ _ => []
  | .var _ _ _ => []
  | .node _ args _ => TypedExpr.zonesAll tree args
  | .call ⟨_, kind, inputs, _, body⟩ args _ =>
    TypedExpr.zonesAll tree args ++
      match kind with
      | .function =>
        TypedStmt.zonesAll tree (TypeEnv.empty.bindParams inputs) (Widths.ofParams inputs) body
      | .group => []
  | .output e _ _ => e.zones tree
  | .component e _ _ => e.zones tree

/-- The zones that expressions enter. -/
def TypedExpr.zonesAll (tree : TreeKind) : List TypedExpr → List ZoneEntry
  | [] => []
  | e :: es => e.zones tree ++ TypedExpr.zonesAll tree es

/-- The zones that a statement enters. Where the widths have no result, the run fails. -/
def TypedStmt.zones (tree : TreeKind) (Γ : TypeEnv) (w : Widths) : TypedStmt → List ZoneEntry
  | .expr e => e.zones tree
  | .assign _ e => e.zones tree
  | .setField _ _ _ value => value.zones tree
  | .zone count body =>
    let scope := count.scopeAfter Γ
    let held := (count.widths w).getD w
    count.zones tree ++ ⟨scope, held, body⟩ :: TypedStmt.zonesAll tree scope held body

/-- The zones that statements enter. -/
def TypedStmt.zonesAll (tree : TreeKind) (Γ : TypeEnv) (w : Widths) :
    List TypedStmt → List ZoneEntry
  | [] => []
  | s :: ss => s.zones tree Γ w ++
    TypedStmt.zonesAll tree (s.scopeAfter tree Γ) ((s.widths w).getD w) ss

end

/-- The zones that the body of a definition enters. -/
def TypedFunction.zones (tree : TreeKind) (f : TypedFunction) : List ZoneEntry :=
  TypedStmt.zonesAll tree (TypeEnv.empty.bindParams f.inputs) (Widths.ofParams f.inputs) f.body

/-! ### Groups -/

mutual

/-- The node groups that an expression calls, also through other definitions. -/
def TypedExpr.groups : TypedExpr → List TypedFunction
  | .constant _ _ => []
  | .var _ _ _ => []
  | .node _ args _ => TypedExpr.groupsAll args
  | .call ⟨name, kind, inputs, outputs, body⟩ args _ =>
    TypedExpr.groupsAll args ++ TypedStmt.groupsAll body ++
      match kind with
      | .function => []
      | .group => [⟨name, .group, inputs, outputs, body⟩]
  | .output e _ _ => e.groups
  | .component e _ _ => e.groups

/-- The node groups that expressions call. -/
def TypedExpr.groupsAll : List TypedExpr → List TypedFunction
  | [] => []
  | e :: es => e.groups ++ TypedExpr.groupsAll es

/-- The node groups that a statement calls. -/
def TypedStmt.groups : TypedStmt → List TypedFunction
  | .expr e => e.groups
  | .assign _ e => e.groups
  | .setField _ _ _ value => value.groups
  | .zone count body => count.groups ++ TypedStmt.groupsAll body

/-- The node groups that statements call. -/
def TypedStmt.groupsAll : List TypedStmt → List TypedFunction
  | [] => []
  | s :: ss => s.groups ++ TypedStmt.groupsAll ss

end

/-! ### Scopes of well-typed statements -/

section
variable {S : Setting} {Γ Γ' : TypeEnv}

mutual

/-- The computed scope behind a well-typed expression is the environment of its typing, by induction
on the expression. -/
theorem ExprTyped.scopeAfter_eq : (e : TypedExpr) → ∀ {Γ Γ' : TypeEnv}, ExprTyped S Γ e Γ' →
    e.scopeAfter Γ = Γ'
  | .constant _ _, _, _, h => by cases h; rfl
  | .var _ _ _, _, _, h => by cases h <;> rfl
  | .node _ args _, _, _, h => by
    cases h with | node _ ha => exact ArgsTyped.scopeAfterAll_eq args ha
  | .call _ args _, _, _, h => by
    cases h with | call _ _ ha => exact ArgsTyped.scopeAfterAll_eq args ha
  | .output e _ _, _, _, h => by
    cases h with | output he => exact ExprTyped.scopeAfter_eq e he
  | .component e _ _, _, _, h => by
    cases h with | component he => exact ExprTyped.scopeAfter_eq e he

theorem ArgsTyped.scopeAfterAll_eq : (es : List TypedExpr) → ∀ {Γ Γ' : TypeEnv},
    ArgsTyped S Γ es Γ' → TypedExpr.scopeAfterAll Γ es = Γ'
  | [], _, _, h => by cases h; rfl
  | e :: es, _, _, h => by
    cases h with
    | cons he hes =>
      rw [TypedExpr.scopeAfterAll, ExprTyped.scopeAfter_eq e he]
      exact ArgsTyped.scopeAfterAll_eq es hes

end

theorem TypedExpr.exists_head? {e : TypedExpr} (hne : e.types ≠ []) :
    ∃ t, e.types.head? = some t := ⟨_, List.head?_eq_some_head hne⟩

/-- The computed types of the parts of a value are those of the typing rule for unpacking. -/
theorem Unpacks.partTypes_eq {tree : TreeKind} {e : TypedExpr} {parts : List SocketType}
    (h : Unpacks tree e parts) (hne : e.types ≠ []) : e.partTypes tree = parts := by
  obtain ⟨type, hhead⟩ := TypedExpr.exists_head? hne
  unfold TypedExpr.partTypes
  rw [hhead, Option.bind_some]
  cases h with
  | bundle hshape =>
    unfold Check.partTypes?
    rw [hshape]
    rfl
  | single hshape hh hsplit =>
    rw [hhead] at hh
    cases hh
    unfold Check.partTypes?
    rw [hshape, hsplit]
    rfl

theorem TypeEnv.storeAll_of_length_ne_one {tree : TreeKind} {e : TypedExpr}
    {targets : List TypedTarget} (h : targets.length ≠ 1) :
    Γ.storeAll tree e targets = Γ.storeParts targets (e.partTypes tree) := by
  unfold storeAll
  split
  · exact absurd rfl h
  · rfl

theorem TargetTyped.store_eq {target : TypedTarget} {t : VarType}
    (h : TargetTyped S Γ target t Γ') : Γ.store t target = Γ' := by
  cases h with
  | var | output | ignore => rfl

theorem TargetsTyped.storeParts_eq {targets : List TypedTarget} {parts : List SocketType}
    (h : TargetsTyped S Γ targets parts Γ') : Γ.storeParts targets parts = Γ' := by
  induction h with
  | nil => rfl
  | cons ht _ ih =>
    rw [TypeEnv.storeParts, ht.store_eq]
    exact ih

/-- The computed scope after a well-typed statement is the environment after it. A zone leaves the
scope that it was entered with. -/
theorem StmtTyped.scopeAfter_eq {s : TypedStmt} (h : StmtTyped S Γ s Γ') :
    s.scopeAfter S.tree Γ = Γ' := by
  cases h with
  | expr he | setField _ _ _ _ _ he _ | zone _ _ he => exact ExprTyped.scopeAfter_eq _ he
  | assign he _ _ ht =>
    rw [TypedStmt.scopeAfter, ExprTyped.scopeAfter_eq _ he]
    exact ht.store_eq
  | unpack he hne _ hl hu ht =>
    rw [TypedStmt.scopeAfter, ExprTyped.scopeAfter_eq _ he, TypeEnv.storeAll_of_length_ne_one hl,
      hu.partTypes_eq hne]
    exact ht.storeParts_eq

/-- The computed scope after a well-typed block is the environment after it, by induction on the
block. So the entries of zones have the types of the formula. -/
theorem BlockTyped.scopeAfterAll_eq {ss : List TypedStmt} (h : BlockTyped S Γ ss Γ') :
    TypedStmt.scopeAfterAll S.tree Γ ss = Γ' := by
  induction ss generalizing Γ with
  | nil =>
    cases h
    rfl
  | cons s ss ih =>
    cases h with
    | cons hs hss =>
      rw [TypedStmt.scopeAfterAll, List.foldl_cons, hs.scopeAfter_eq]
      exact ih hss

/-- The zones of a well-typed zone statement, of which the count is run first. -/
theorem ExprTyped.zones_zone {count : TypedExpr} {w before : Widths} (h : ExprTyped S Γ count Γ')
    (hw : count.widths w = some before) (body : List TypedStmt) :
    (TypedStmt.zone count body).zones S.tree Γ w = count.zones S.tree ++
      ⟨Γ', before, body⟩ :: TypedStmt.zonesAll S.tree Γ' before body := by
  rw [TypedStmt.zones, ExprTyped.scopeAfter_eq count h, hw]
  rfl

end

end NodeFormula

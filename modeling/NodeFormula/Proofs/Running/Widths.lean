import NodeFormula.Proofs.Typing

/-!
# The widths of variables

The machine keeps one environment for a formula and the zones in it, so a variable that was first
bound in a zone is still bound after the zone, where the formula cannot read it. A later zone that
binds the name again then carries it, as a single socket. If the name stands for a bundle when that
zone ends, the socket cannot be connected.

`widths` follows the machine's environment through a typed formula: for each name the number of
sockets it stands for. It gives nothing for a formula with a zone that ends as described. Without
zones there is always a result (`BlockTyped.isSome_widthsAll`).
-/

namespace NodeFormula

/-- The number of sockets that each name stands for, in the environment of the machine. -/
abbrev Widths := String → Option Nat

namespace Widths

/-- Nothing is bound. -/
def empty : Widths := fun _ => none

/-- The widths after a name is bound. -/
def bind (w : Widths) (x : String) (n : Nat) : Widths := fun y => if y = x then some n else w y

/-- The widths where the body of a definition starts. -/
def ofParams (params : List TypedParam) : Widths := fun x =>
  if params.any (·.name = x) then some 1 else none

/-- The widths after a target takes a value. -/
def store (w : Widths) (n : Nat) : TypedTarget → Widths
  | .var x => w.bind x n
  | _ => w

/-- The widths after targets take the value of an expression: a single target takes all of it, and
several take one part each. -/
def storeAll (w : Widths) (e : TypedExpr) : List TypedTarget → Widths
  | [target] => w.store e.types.length target
  | targets => targets.foldr (fun target w => w.store 1 target) w

@[simp] theorem bind_self (w : Widths) (x : String) (n : Nat) : w.bind x n x = some n := by
  simp [bind]

theorem bind_of_ne {w : Widths} {x y : String} {n : Nat} (h : y ≠ x) : w.bind x n y = w y := by
  simp [bind, h]

end Widths

/-- The variable that a target binds. -/
def TypedTarget.var? : TypedTarget → Option String
  | .var x => some x
  | _ => none

theorem TypedTarget.mem_of_var? {targets : List TypedTarget} {x : String}
    (h : x ∈ targets.filterMap TypedTarget.var?) : .var x ∈ targets := by
  obtain ⟨target, htarget, hvar⟩ := List.mem_filterMap.1 h
  cases target with
  | var y => cases hvar; exact htarget
  | output | ignore => cases hvar

mutual

/-- The variables that a statement binds in its own scope. -/
def TypedStmt.boundVars : TypedStmt → List String
  | .expr _ => []
  | .assign targets _ => targets.filterMap TypedTarget.var?
  | .setField x _ _ _ => [x]
  | .zone _ body => boundVarsAll body

/-- The variables that statements bind in their own scope. -/
def TypedStmt.boundVarsAll : List TypedStmt → List String
  | [] => []
  | s :: ss => s.boundVars ++ boundVarsAll ss

end

/-- Every variable of width one that a zone starts with and binds has width one where it ends. -/
def Widths.keepsCarried (before after : Widths) (bound : List String) : Bool :=
  bound.all fun x => before x ≠ some 1 || after x = some 1

mutual

/-- The widths after an expression. -/
def TypedExpr.widths (w : Widths) : TypedExpr → Option Widths
  | .constant _ _ => some w
  | .var x fresh _ => some (if fresh then w.bind x 1 else w)
  | .node _ args _ => TypedExpr.widthsAll w args
  | .call ⟨_, _, inputs, _, body⟩ args _ => do
    let w' ← TypedExpr.widthsAll w args
    let _ ← TypedStmt.widthsAll (Widths.ofParams inputs) body
    return w'
  | .output e _ _ => e.widths w
  | .component e _ _ => e.widths w

/-- The widths after expressions. -/
def TypedExpr.widthsAll (w : Widths) : List TypedExpr → Option Widths
  | [] => some w
  | e :: es => do
    let w ← e.widths w
    TypedExpr.widthsAll w es

/-- The widths after a statement. -/
def TypedStmt.widths (w : Widths) : TypedStmt → Option Widths
  | .expr e => e.widths w
  | .assign targets e => do
    let w ← e.widths w
    return w.storeAll e targets
  | .setField x _ _ value => do
    let w ← value.widths w
    return w.bind x 1
  | .zone count body => do
    let before ← count.widths w
    let after ← TypedStmt.widthsAll before body
    if before.keepsCarried after (TypedStmt.boundVarsAll body) then some after else none

/-- The widths after statements. -/
def TypedStmt.widthsAll (w : Widths) : List TypedStmt → Option Widths
  | [] => some w
  | s :: ss => do
    let w ← s.widths w
    TypedStmt.widthsAll w ss

end

/-- The widths after the body of a definition. -/
def TypedFunction.widths (f : TypedFunction) : Option Widths :=
  TypedStmt.widthsAll (Widths.ofParams f.inputs) f.body

/-! ### Names stay bound -/

namespace Widths

/-- Every name that is bound stays bound. -/
def Keeps (w w' : Widths) : Prop := ∀ x, w x ≠ none → w' x ≠ none

variable {w w' w₁ : Widths}

/-- Names that are bound stay bound if nothing happens. -/
theorem Keeps.refl (w : Widths) : w.Keeps w := fun _ h => h

/-- Names that are bound stay bound along a run. -/
theorem Keeps.trans (h₁ : w.Keeps w₁) (h₂ : w₁.Keeps w') : w.Keeps w' := fun x h => h₂ x (h₁ x h)

theorem keeps_bind (w : Widths) (x : String) (n : Nat) : w.Keeps (w.bind x n) := by
  intro y hy
  by_cases h : y = x
  · simp [h]
  · rwa [bind_of_ne h]

theorem keeps_store (w : Widths) (n : Nat) (target : TypedTarget) : w.Keeps (w.store n target) := by
  cases target with
  | var x => exact w.keeps_bind x n
  | output | ignore => exact .refl w

/-- Storing to the targets of an assignment forgets no name, whether the value is stored as a whole
or by its parts. -/
theorem keeps_storeAll (w : Widths) (e : TypedExpr) (targets : List TypedTarget) :
    w.Keeps (w.storeAll e targets) := by
  have key : ∀ targets : List TypedTarget,
      w.Keeps (targets.foldr (fun target w => w.store 1 target) w) := by
    intro targets
    induction targets with
    | nil => exact .refl w
    | cons target targets ih => exact ih.trans (keeps_store _ 1 target)
  unfold storeAll
  split
  · exact w.keeps_store _ _
  · exact key _

end Widths

mutual

/-- An expression forgets no name, by induction on the expression. What a function that it calls
binds is not kept. -/
theorem TypedExpr.keeps_widths : (e : TypedExpr) → ∀ {w w' : Widths}, e.widths w = some w' →
    w.Keeps w'
  | .constant _ _, w, _, h => by cases h; exact .refl w
  | .var x fresh _, w, _, h => by
    cases h
    split
    · exact w.keeps_bind x 1
    · exact .refl w
  | .node _ args _, _, _, h => TypedExpr.keeps_widthsAll args h
  | .call ⟨_, _, _, _, _⟩ args _, _, _, h => by
    simp only [TypedExpr.widths, Option.bind_eq_bind, Option.bind_eq_some_iff] at h
    obtain ⟨w', hargs, _, -, h⟩ := h
    cases h
    exact TypedExpr.keeps_widthsAll args hargs
  | .output e _ _, _, _, h | .component e _ _, _, _, h => TypedExpr.keeps_widths e h

theorem TypedExpr.keeps_widthsAll : (es : List TypedExpr) → ∀ {w w' : Widths},
    TypedExpr.widthsAll w es = some w' → w.Keeps w'
  | [], w, _, h => by cases h; exact .refl w
  | e :: es, _, _, h => by
    simp only [TypedExpr.widthsAll, Option.bind_eq_bind, Option.bind_eq_some_iff] at h
    obtain ⟨w₁, he, h⟩ := h
    exact (TypedExpr.keeps_widths e he).trans (TypedExpr.keeps_widthsAll es h)

end

mutual

/-- A statement forgets no name, by induction on the statement. A zone keeps the names that its body
binds. -/
theorem TypedStmt.keeps_widths : (s : TypedStmt) → ∀ {w w' : Widths}, s.widths w = some w' →
    w.Keeps w'
  | .expr e, _, _, h => e.keeps_widths h
  | .assign targets e, _, _, h => by
    simp only [TypedStmt.widths, Option.bind_eq_bind, Option.bind_eq_some_iff] at h
    obtain ⟨w₁, he, h⟩ := h
    cases h
    exact (e.keeps_widths he).trans (w₁.keeps_storeAll e targets)
  | .setField x _ _ value, _, _, h => by
    simp only [TypedStmt.widths, Option.bind_eq_bind, Option.bind_eq_some_iff] at h
    obtain ⟨w₁, hv, h⟩ := h
    cases h
    exact (value.keeps_widths hv).trans (w₁.keeps_bind x 1)
  | .zone count body, _, _, h => by
    simp only [TypedStmt.widths, Option.bind_eq_bind, Option.bind_eq_some_iff] at h
    obtain ⟨before, hc, after, hb, h⟩ := h
    split at h
    · cases h
      exact (count.keeps_widths hc).trans (TypedStmt.keeps_widthsAll body hb)
    · cases h

/-- A name that is bound stays bound to the end of a block. -/
theorem TypedStmt.keeps_widthsAll : (ss : List TypedStmt) → ∀ {w w' : Widths},
    TypedStmt.widthsAll w ss = some w' → w.Keeps w'
  | [], w, _, h => by cases h; exact .refl w
  | s :: ss, _, _, h => by
    simp only [TypedStmt.widthsAll, Option.bind_eq_bind, Option.bind_eq_some_iff] at h
    obtain ⟨w₁, hs, h⟩ := h
    exact (TypedStmt.keeps_widths s hs).trans (TypedStmt.keeps_widthsAll ss h)

end

/-! ### Zones keep the types of outer variables -/

section
variable {S : Setting} {Γ Γ' : TypeEnv}

mutual

/-- An expression only binds names that are not bound, namely free variables where they are first
used. So variables in scope keep their types. The induction is on the expression. -/
theorem ExprTyped.env_le : (e : TypedExpr) → ∀ {Γ Γ' : TypeEnv}, ExprTyped S Γ e Γ' →
    ∀ {x t}, Γ x = some t → Γ' x = some t
  | .constant _ _, _, _, h, _, _, hx => by cases h; exact hx
  | .var y _ _, _, _, h, x, _, hx => by
    cases h with
    | var => exact hx
    | free _ _ hy =>
      rw [TypeEnv.bind_of_ne]
      · exact hx
      · rintro rfl
        rw [hy] at hx
        cases hx
  | .node _ args _, _, _, h, _, _, hx => by
    cases h with | node _ ha => exact ArgsTyped.env_le args ha hx
  | .call _ args _, _, _, h, _, _, hx => by
    cases h with | call _ _ ha => exact ArgsTyped.env_le args ha hx
  | .output e _ _, _, _, h, _, _, hx => by
    cases h with | output he => exact ExprTyped.env_le e he hx
  | .component e _ _, _, _, h, _, _, hx => by
    cases h with | component he => exact ExprTyped.env_le e he hx

theorem ArgsTyped.env_le : (es : List TypedExpr) → ∀ {Γ Γ' : TypeEnv}, ArgsTyped S Γ es Γ' →
    ∀ {x t}, Γ x = some t → Γ' x = some t
  | [], _, _, h, _, _, hx => by cases h; exact hx
  | e :: es, _, _, h, _, _, hx => by
    cases h with | cons he hes => exact ArgsTyped.env_le es hes (ExprTyped.env_le e he hx)

end

/-- The variables of `outer` are bound in `Γ` with the same types. -/
def TypeEnv.KeepsTypes (outer Γ : TypeEnv) : Prop :=
  ∀ x o, outer x = some o → ∃ t, Γ x = some t ∧ t.types = o.types

variable {outer : TypeEnv}

theorem ExprTyped.keepsTypes {e : TypedExpr} (h : ExprTyped S Γ e Γ') (hk : outer.KeepsTypes Γ) :
    outer.KeepsTypes Γ' := fun x o ho =>
  let ⟨t, ht, hto⟩ := hk x o ho
  ⟨t, h.env_le e ht, hto⟩

/-- In a zone a target keeps the types of outer variables, since it takes a value only of the type
that the variable has. -/
theorem TargetTyped.keepsTypes {target : TypedTarget} {t : VarType} (ho : outer ∈ S.zones)
    (h : TargetTyped S Γ target t Γ') (hk : outer.KeepsTypes Γ) : outer.KeepsTypes Γ' := by
  cases h with
  | @var x _ _ hcarry =>
    intro y o hy
    by_cases hxy : y = x
    · subst hxy
      exact ⟨t, TypeEnv.bind_self .., (hcarry outer ho o hy).types.symm⟩
    · rw [TypeEnv.bind_of_ne hxy]
      exact hk y o hy
  | output | ignore => exact hk

theorem TargetsTyped.keepsTypes {targets : List TypedTarget} {parts : List SocketType}
    (ho : outer ∈ S.zones) (h : TargetsTyped S Γ targets parts Γ') (hk : outer.KeepsTypes Γ) :
    outer.KeepsTypes Γ' := by
  induction h with
  | nil => exact hk
  | cons ht _ ih => exact ih (ht.keepsTypes ho hk)

/-- The statements in a zone keep the types of the variables that the zone starts with. -/
theorem BlockTyped.keepsTypes {ss : List TypedStmt} (ho : outer ∈ S.zones)
    (h : BlockTyped S Γ ss Γ') (hk : outer.KeepsTypes Γ) : outer.KeepsTypes Γ' := by
  induction ss generalizing Γ with
  | nil => cases h; exact hk
  | cons s ss ih =>
    cases h with
    | cons hs hss =>
      refine ih hss ?_
      cases hs with
      | expr he | setField _ _ _ _ _ he _ | zone _ _ he => exact he.keepsTypes hk
      | assign he _ _ ht => exact ht.keepsTypes ho (he.keepsTypes hk)
      | unpack he _ _ _ _ ht => exact ht.keepsTypes ho (he.keepsTypes hk)

end

/-! ### Formulas without zones -/

mutual

/-- Where no zones are allowed the widths behind a well-typed expression are defined, by induction on
the expression. The bodies that it calls are without zones too. -/
theorem ExprTyped.isSome_widths : (e : TypedExpr) → ∀ {S : Setting} {Γ Γ' : TypeEnv},
    ¬ S.repeats → ExprTyped S Γ e Γ' → ∀ w, (e.widths w).isSome
  | .constant _ _, _, _, _, _, _, _ => rfl
  | .var _ _ _, _, _, _, _, _, _ => rfl
  | .node _ args _, _, _, _, hS, h, w => by
    cases h with | node _ ha => exact ArgsTyped.isSome_widthsAll args hS ha w
  | .call ⟨name, kind, inputs, outputs, body⟩ args _, S, _, _, hS, h, w => by
    cases h with
    | call _ hf ha =>
      cases hf with
      | mk _ _ hbody _ =>
        obtain ⟨w', hw'⟩ := Option.isSome_iff_exists.1 (ArgsTyped.isSome_widthsAll args hS ha w)
        have hS' : ¬ (S.body ⟨name, kind, inputs, outputs, body⟩).repeats := hS
        obtain ⟨_, hb⟩ := Option.isSome_iff_exists.1
          (BlockTyped.isSome_widthsAll body hS' hbody (Widths.ofParams inputs))
        simp [TypedExpr.widths, hw', hb]
  | .output e _ _, _, _, _, hS, h, w => by
    cases h with | output he => exact ExprTyped.isSome_widths e hS he w
  | .component e _ _, _, _, _, hS, h, w => by
    cases h with | component he => exact ExprTyped.isSome_widths e hS he w

theorem ArgsTyped.isSome_widthsAll : (es : List TypedExpr) → ∀ {S : Setting} {Γ Γ' : TypeEnv},
    ¬ S.repeats → ArgsTyped S Γ es Γ' → ∀ w, (TypedExpr.widthsAll w es).isSome
  | [], _, _, _, _, _, _ => rfl
  | e :: es, _, _, _, hS, h, w => by
    cases h with
    | cons he hes =>
      obtain ⟨w₁, hw₁⟩ := Option.isSome_iff_exists.1 (ExprTyped.isSome_widths e hS he w)
      simpa [TypedExpr.widthsAll, hw₁] using ArgsTyped.isSome_widthsAll es hS hes w₁

/-- Where no zones are allowed the widths behind a well-typed statement are defined. -/
theorem StmtTyped.isSome_widths : (s : TypedStmt) → ∀ {S : Setting} {Γ Γ' : TypeEnv},
    ¬ S.repeats → StmtTyped S Γ s Γ' → ∀ w, (s.widths w).isSome
  | .expr e, _, _, _, hS, h, w => by
    cases h with | expr he => exact ExprTyped.isSome_widths e hS he w
  | .assign _ e, _, _, _, hS, h, w => by
    have he : (e.widths w).isSome := by
      cases h with | assign he | unpack he => exact ExprTyped.isSome_widths e hS he w
    obtain ⟨w₁, hw₁⟩ := Option.isSome_iff_exists.1 he
    simp [TypedStmt.widths, hw₁]
  | .setField _ _ _ value, _, _, _, hS, h, w => by
    cases h with
    | setField _ _ _ _ _ he _ =>
      obtain ⟨w₁, hw₁⟩ := Option.isSome_iff_exists.1 (ExprTyped.isSome_widths value hS he w)
      simp [TypedStmt.widths, hw₁]
  | .zone _ _, _, _, _, hS, h, _ => by
    cases h with | zone hrep => exact absurd hrep hS

/-- Where zones are not used, no zone can end with a bundle. -/
theorem BlockTyped.isSome_widthsAll : (ss : List TypedStmt) → ∀ {S : Setting} {Γ Γ' : TypeEnv},
    ¬ S.repeats → BlockTyped S Γ ss Γ' → ∀ w, (TypedStmt.widthsAll w ss).isSome
  | [], _, _, _, _, _, _ => rfl
  | s :: ss, _, _, _, hS, h, w => by
    cases h with
    | cons hs hss =>
      obtain ⟨w₁, hw₁⟩ := Option.isSome_iff_exists.1 (StmtTyped.isSome_widths s hS hs w)
      simpa [TypedStmt.widthsAll, hw₁] using BlockTyped.isSome_widthsAll ss hS hss w₁

end

end NodeFormula

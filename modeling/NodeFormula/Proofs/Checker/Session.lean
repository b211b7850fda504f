import NodeFormula.Formula.Statement
import NodeFormula.Proofs.Checker.Statement

/-!
# Sessions of the checker

A checker takes any number of libraries and formulas, one after the other, and keeps the definitions
of all of them. `Accepted` are the states it can be in when none had an error. In each of these the
definitions are well typed, whatever is defined later, so a formula that is accepted next is well
typed together with the body of every definition it reaches.

An accepted source must not have followed one with errors: a definition with errors in its body stays
known.
-/

namespace NodeFormula

/-- The whole language. -/
def Dialect.full : Dialect := ⟨fun _ => True, True⟩

mutual

/-- Every expression is spelled with names, if nothing is asked of names. The induction is on the
expression. -/
theorem Expr.spelled_true : (e : Expr) → e.Spelled fun _ => True
  | .int .. => trivial
  | .float .. => trivial
  | .bool .. => trivial
  | .str .. => trivial
  | .name .. => trivial
  | .vector items _ => Expr.allSpelled_true items
  | .unary _ e _ => Expr.spelled_true e
  | .binary _ l r _ => ⟨Expr.spelled_true l, Expr.spelled_true r⟩
  | .call _ args _ => Expr.allSpelled_true args
  | .member e _ _ => Expr.spelled_true e

theorem Expr.allSpelled_true : (es : List Expr) → Expr.AllSpelled (fun _ => True) es
  | [] => trivial
  | e :: es => ⟨Expr.spelled_true e, Expr.allSpelled_true es⟩

end

theorem Target.spelled_true : (t : Target) → t.Spelled fun _ => True
  | .name .. => trivial
  | .ignore _ => trivial

mutual

theorem Stmt.within_full : (st : Stmt) → st.Within .full
  | .expr e _ => Expr.spelled_true e
  | .assign _ e _ => ⟨fun t _ => t.spelled_true, Expr.spelled_true e⟩
  | .setField _ _ e _ => ⟨trivial, Expr.spelled_true e⟩
  | .loop _ _ _ body _ => Stmt.allWithin_full body
  | .zone count body _ => ⟨trivial, Expr.spelled_true count, Stmt.allWithin_full body⟩
  | .define _ body _ => ⟨fun _ _ => ⟨trivial, fun e _ => Expr.spelled_true e⟩, Stmt.allWithin_full body⟩

theorem Stmt.allWithin_full : (ss : List Stmt) → Stmt.AllWithin .full ss
  | [] => trivial
  | st :: ss => ⟨Stmt.within_full st, Stmt.allWithin_full ss⟩

end

namespace Check

variable {S : Setting} {ctx : Context} {Γ : TypeEnv} {s s' : Checker}

/-- A library that is checked without errors leaves well-typed definitions, by induction on its
items. A statement that is no definition would be an error. -/
theorem library_typed {ss : List Stmt} {u : Unit} (hS : InSetting ctx S)
    (hn : Stmt.AllWithin S.toDialect ss) (h : library ctx ss s = .ok u s') (ht : Tracks s.scope Γ)
    (hk : Knows S s.functions) (hc : Clean S s') :
    (∃ Γ', Tracks s'.scope Γ') ∧ Knows S s'.functions := by
  induction ss generalizing Γ s with
  | nil =>
    obtain ⟨-, rfl⟩ := pure_ok.1 h
    exact ⟨⟨Γ, ht⟩, hk⟩
  | cons st rest ih =>
    cases st with
    | define header body span =>
      simp only [library, bind_ok] at h
      obtain ⟨_, s₁, hst, h⟩ := h
      have hc₁ := hc.of_grows ((library_monotone rest ctx).grows h)
      obtain ⟨Γ₁, hchecked⟩ :=
        (stmt_checks _ hS hn.1).checked (recover_ok hc₁.errors hst) ht hk hc₁
      exact ih hn.2 h hchecked.tracks hchecked.knows
    | expr | assign | setField | loop | zone =>
      -- The note that a library has only definitions is an error.
      simp only [library, report, bind_ok, modify_ok] at h
      obtain ⟨_, _, rfl, h⟩ := h
      have := ((library_monotone rest ctx).grows h).errors_eq_nil hc.errors
      simp at this

end Check

namespace Checker

variable {tree : TreeKind} {d : Dialect} {s s' : Checker}

/-- What accepted sources leave: no errors, and well-typed definitions whatever else is known. -/
structure Sound (tree : TreeKind) (d : Dialect) (s : Checker) : Prop where
  errors : s.errors = []
  tracks : ∃ Γ, Tracks s.scope Γ
  knows : ∀ known : TypedFunction → Prop,
    (∀ n f, s.functions.get? n = some f → f.name = n → known f) →
    Knows { d with tree, known } s.functions

/-- A source that is accepted was checked without a failure and without an error that was noted. -/
theorem finish_ok {α : Type} {x : Check α} {a : α} (h : finish x s = (.ok a, s')) :
    x s = .ok a s' ∧ s'.errors = [] := by
  unfold finish at h
  cases hx : x s with
  | error e s₁ =>
    rw [hx] at h
    cases h
  | ok b s₁ =>
    rw [hx] at h
    simp only [Prod.mk.injEq] at h
    obtain ⟨h, rfl⟩ := h
    split at h
    next he =>
      cases h
      refine ⟨?_, rfl⟩
      rw [← List.isEmpty_iff.1 he]
    next => cases h

/-- A source that is not accepted has at least one error to show: the one that stopped the check, or
those that were noted on the way. -/
theorem finish_error_ne_nil {α : Type} {x : Check α} {errors : List TypeError}
    (h : finish x s = (.error errors, s')) : errors ≠ [] := by
  unfold finish at h
  cases hx : x s with
  | error e s₁ =>
    rw [hx] at h
    cases h
    simp
  | ok b s₁ =>
    rw [hx] at h
    simp only [Prod.mk.injEq] at h
    obtain ⟨h, rfl⟩ := h
    split at h
    next => cases h
    next he =>
      cases h
      exact fun hnil => he (List.isEmpty_iff.2 hnil)

theorem inSetting_top (tree : TreeKind) (known : TypedFunction → Prop) (d : Dialect) :
    InSetting { tree } { d with tree, known } :=
  ⟨rfl, rfl, rfl, .nil, fun h => absurd rfl h⟩

theorem sound_new (tree : TreeKind) (d : Dialect) : Sound tree d {} where
  errors := rfl
  tracks := ⟨_, .empty⟩
  knows _ _ _ _ h := nomatch h

/-- A library that is accepted leaves a sound checker: its definitions are well typed and those
before it still are. -/
theorem Sound.addLibrary {p : Program} (hs : Sound tree d s) (hn : Stmt.AllWithin d p.items)
    (h : s.addLibrary tree p = (.ok (), s')) : Sound tree d s' := by
  obtain ⟨h, he⟩ := finish_ok h
  obtain ⟨Γ, ht⟩ := hs.tracks
  have hgrows := (Check.library_monotone p.items { tree }).grows h
  have key : ∀ known : TypedFunction → Prop,
      (∀ n f, s'.functions.get? n = some f → f.name = n → known f) →
      (∃ Γ', Tracks s'.scope Γ') ∧ Knows { d with tree, known } s'.functions := fun known hknown =>
    Check.library_typed (inSetting_top tree known d) hn h ht
      (hs.knows known fun n f hf => hknown n f (hgrows.functions n f hf)) ⟨he, hknown⟩
  exact ⟨he, (key (fun _ => True) fun _ _ _ _ => trivial).1, fun known hknown => (key known hknown).2⟩

/-- A formula that is accepted is well typed, with the definitions that are known at its end. -/
theorem Sound.check {p : Program} {stmts : List TypedStmt} (hs : Sound tree d s)
    (hn : Stmt.AllWithin d p.items) (h : s.check tree p = (.ok stmts, s')) :
    Sound tree d s' ∧ ∀ known : TypedFunction → Prop,
      (∀ n f, s'.functions.get? n = some f → f.name = n → known f) →
      ∃ Γ', BlockTyped { d with tree, known } TypeEnv.empty stmts Γ' := by
  obtain ⟨h, he⟩ := finish_ok h
  have hgrows := (Check.block_monotone p.items { tree }).grows h
  have key : ∀ known : TypedFunction → Prop,
      (∀ n f, s'.functions.get? n = some f → f.name = n → known f) →
      ∃ Γ', Check.Checked { d with tree, known } TypeEnv.empty _ stmts Γ' s' := fun known hknown =>
    (Check.block_checks p.items (inSetting_top tree known d) hn).checked h .empty
      (hs.knows known fun n f hf => hknown n f (hgrows.functions n f hf)) ⟨he, hknown⟩
  refine ⟨⟨he, ?_, fun known hknown => ?_⟩, fun known hknown => ?_⟩
  · obtain ⟨Γ', hchecked⟩ := key (fun _ => True) fun _ _ _ _ => trivial
    exact ⟨Γ', hchecked.tracks⟩
  · obtain ⟨Γ', hchecked⟩ := key known hknown
    exact hchecked.knows
  · obtain ⟨Γ', hchecked⟩ := key known hknown
    exact ⟨Γ', hchecked.typed⟩

/-- The states of a checker after libraries and formulas that had no errors. -/
inductive Accepted (tree : TreeKind) : Checker → Prop where
  | new : Accepted tree {}
  | library {s s' : Checker} {p : Program} : Accepted tree s →
      s.addLibrary tree p = (.ok (), s') → Accepted tree s'
  | formula {s s' : Checker} {p : Program} {stmts : List TypedStmt} : Accepted tree s →
      s.check tree p = (.ok stmts, s') → Accepted tree s'

/-- The setting of a formula with the definitions that a checker knows, in the whole language. -/
def setting (tree : TreeKind) (s : Checker) : Setting :=
  { Dialect.full with tree, known := fun f => s.functions.get? f.name = some f }

/-- A checker that has accepted all of its sources is sound, by induction on the sources. -/
theorem Accepted.sound (h : Accepted tree s) : Sound tree .full s := by
  induction h with
  | new => exact sound_new tree .full
  | library _ h ih => exact ih.addLibrary (Stmt.allWithin_full _) h
  | formula _ h ih => exact (ih.check (Stmt.allWithin_full _) h).1

/-- A formula that is accepted after accepted libraries and formulas is well typed, and so is the body
of every definition it reaches. -/
theorem Accepted.blockTyped_of_check {p : Program} {stmts : List TypedStmt} (hs : Accepted tree s)
    (h : s.check tree p = (.ok stmts, s')) :
    ∃ Γ', BlockTyped (s'.setting tree) TypeEnv.empty stmts Γ' :=
  (hs.sound.check (Stmt.allWithin_full p.items) h).2 _ fun n f hf hn => by
    rw [hn]
    exact hf

/-- A definition and its call. -/
def halfSource : String := "fn half(a: float) -> b: float \x7b b = a / 2; \x7d x = half(y);"

/-- A formula with a definition and a call of it is accepted by a new checker, and what comes of it
is well typed with the definitions that the checker has then. -/
theorem Accepted.blockTyped_half : ∃ p stmts s' Γ', Program.parse halfSource = .ok p ∧
    Checker.check .shader p {} = (.ok stmts, s') ∧
    BlockTyped (s'.setting .shader) TypeEnv.empty stmts Γ' := by
  have hrun : (match Program.parse halfSource with
      | .ok p => (Checker.check .shader p {}).1.toBool
      | .error _ => false) = true := by decide +kernel
  split at hrun
  next p hp =>
    rcases h : Checker.check .shader p {} with ⟨_ | stmts, s'⟩
    · rw [h] at hrun
      cases hrun
    · obtain ⟨Γ', htyped⟩ := Accepted.new.blockTyped_of_check h
      exact ⟨p, stmts, s', Γ', hp, h, htyped⟩
  next => cases hrun

end Checker

end NodeFormula

import Mathlib.Data.List.Basic
import NodeFormula.Proofs.Running.Expression

/-!
# Running the ops of statements

The ops of a well-typed statement keep the machine in agreement with the typing environment, bind the
variables that the statement binds, and set the outputs that it assigns. As for expressions, there is
one case for each kind of statement.
-/

namespace NodeFormula

open Machine

/-! ### Outputs of a definition -/

/-- An output of the running definition holds a single value. -/
def OutputSet (outputs : List Item) (i : Nat) : Prop := ∃ item, outputs[i]? = some item ∧ item.Single

/-- The outputs that were set stay set, and those that are assigned get set. -/
structure OutputsAfter (assigns : Nat → Prop) (before after : List Item) : Prop where
  length : after.length = before.length
  set : ∀ i < before.length, OutputSet before i ∨ assigns i → OutputSet after i

namespace OutputsAfter

variable {assigns assigns₁ assigns₂ : Nat → Prop} {a b c : List Item}

/-- If no output is assigned, nothing has to change. -/
theorem refl (h : ∀ i, ¬ assigns i) : OutputsAfter assigns a a :=
  ⟨rfl, fun i _ hi => hi.resolve_right (h i)⟩

theorem of_eq (h : ∀ i, ¬ assigns i) (hab : b = a) : OutputsAfter assigns a b := hab ▸ refl h

/-- Outputs that are assigned in one of two runs in a row are set behind both. -/
theorem trans (h₁ : OutputsAfter assigns₁ a b) (h₂ : OutputsAfter assigns₂ b c)
    (h : ∀ i, assigns i → assigns₁ i ∨ assigns₂ i) : OutputsAfter assigns a c := by
  refine ⟨h₂.length.trans h₁.length, fun i hi hset => ?_⟩
  refine h₂.set i (by rw [h₁.length]; exact hi) ?_
  rcases hset with hset | hset
  · exact .inl (h₁.set i hi (.inl hset))
  · rcases h i hset with h | h
    · exact .inl (h₁.set i hi (.inr h))
    · exact .inr h

theorem set_output {k : Nat} {item : Item} (hitem : item.Single) :
    OutputsAfter (· = k) a (a.set k item) := by
  refine ⟨List.length_set, fun i hi hset => ?_⟩
  by_cases hk : k = i
  · subst hk
    exact ⟨item, by simp [hi], hitem⟩
  · obtain ⟨j, hj, hsingle⟩ := hset.resolve_right (Ne.symm hk)
    exact ⟨j, by rw [List.getElem?_set_ne hk]; exact hj, hsingle⟩

end OutputsAfter

/-! ### Storing values -/

section
variable {P : String → Prop} {w : Widths} {m : Machine}

/-- A value on the stack is stored in a target, and the widths behind it are those of the store. Only
a single value is stored in an output. -/
theorem store_run {target : TypedTarget} {i : Item} {n : Nat} {rest : List Item}
    (hi : i.HasWidth n) (hout : ∀ k, target = .output k → k < m.outputs.length ∧ i.Single)
    (henv : EnvAgrees P w m.env) (hs : m.stack = i :: rest) :
    ∃ m', runOp (Lower.store target) m = .ok m' ∧ m'.stack = rest ∧
      EnvAgrees P (w.store n target) m'.env ∧ m'.groups = m.groups ∧
      OutputsAfter (fun k => target = .output k) m.outputs m'.outputs := by
  cases target with
  | var x =>
    exact ⟨_, bindVar_runs hs, rfl, henv.insert x hi, rfl, .refl nofun⟩
  | ignore =>
    refine ⟨{ m with stack := rest }, ?_, rfl, henv, rfl, .refl nofun⟩
    rw [Lower.store, runOp, pop, hs]
    rfl
  | output k =>
    obtain ⟨hlt, hsingle⟩ := hout k rfl
    refine ⟨{ m with stack := rest, outputs := m.outputs.set k i }, ?_, rfl, henv, rfl, ?_⟩
    · change m.setFunctionOut k = _
      have hpop : m.pop = .ok (i, { m with stack := rest }) := by rw [pop, hs]
      unfold setFunctionOut
      rw [bind_of_ok hpop]
      exact if_pos hlt
    · have hset := OutputsAfter.set_output (a := m.outputs) (k := k) hsingle
      refine ⟨hset.length, fun j hj h => hset.set j hj (h.imp_right fun h => ?_)⟩
      cases h
      rfl

/-- Single values on the stack are stored in targets, the last first, since the last is on top. The
induction is on the targets. -/
theorem storeParts_run {targets : List TypedTarget} {items rest : List Item}
    (hl : items.length = targets.length) (hitems : ∀ i ∈ items, i.Single)
    (hout : ∀ k, .output k ∈ targets → k < m.outputs.length) (henv : EnvAgrees P w m.env)
    (hs : m.stack = items.reverse ++ rest) :
    ∃ m', runOps (targets.reverse.map Lower.store) m = .ok m' ∧ m'.stack = rest ∧
      EnvAgrees P (targets.foldr (fun target w => w.store 1 target) w) m'.env ∧
      m'.groups = m.groups ∧ OutputsAfter (fun k => .output k ∈ targets) m.outputs m'.outputs := by
  induction targets generalizing items rest with
  | nil =>
    cases List.length_eq_zero_iff.1 hl
    exact ⟨m, rfl, hs, henv, rfl, .refl fun _ h => nomatch h⟩
  | cons target targets ih =>
    cases items with
    | nil => cases hl
    | cons i items =>
      have hs' : m.stack = items.reverse ++ (i :: rest) := by simpa using hs
      obtain ⟨m₁, hrun, hstack, henv₁, hgroups, houts⟩ := ih (by simpa using hl)
        (fun j hj => hitems j (.tail _ hj)) (fun k hk => hout k (.tail _ hk)) hs'
      have hout₁ : ∀ k, target = .output k → k < m₁.outputs.length ∧ i.Single := fun k hk =>
        ⟨by rw [houts.length]; exact hout k (hk ▸ .head _), hitems i (.head _)⟩
      obtain ⟨m₂, hstore, hstack₂, henv₂, hgroups₂, houts₂⟩ :=
        store_run (.single (hitems i (.head _))) hout₁ henv₁ hstack
      refine ⟨m₂, ?_, hstack₂, henv₂, hgroups₂.trans hgroups, ?_⟩
      · rw [List.reverse_cons, List.map_append, runOps_append, hrun]
        exact run_bind_ok.2 ⟨m₁, rfl, run_bind_ok.2 ⟨m₂, hstore, rfl⟩⟩
      · refine houts.trans houts₂ fun k hk => ?_
        rcases List.mem_cons.1 hk with h | h
        · exact .inr h.symm
        · exact .inl h

end

/-! ### Targets and widths -/

variable {S : Setting} {Γ Γ' Γ₁ : TypeEnv} {w : Widths}

/-- Storing a value to a target keeps the types of variables and their widths together. -/
theorem VarsAgree.store {target : TypedTarget} {t : VarType} (h : VarsAgree S Γ w)
    (ht : TargetTyped S Γ target t Γ') : VarsAgree S Γ' (w.store t.types.length target) := by
  cases ht with
  | output | ignore => exact h
  | var hx => exact h.bind hx t

/-- Storing single values to two targets may be done in either order, since both get the same
width. -/
theorem Widths.store_comm (w : Widths) (a b : TypedTarget) :
    (w.store 1 a).store 1 b = (w.store 1 b).store 1 a := by
  cases a with
  | output | ignore => rfl
  | var x =>
    cases b with
    | output | ignore => rfl
    | var y =>
      funext z
      simp only [store, bind]
      split <;> split <;> rfl

theorem Widths.foldr_store (w : Widths) (targets : List TypedTarget) (a : TypedTarget) :
    targets.foldr (fun target w => w.store 1 target) (w.store 1 a) =
      (targets.foldr (fun target w => w.store 1 target) w).store 1 a := by
  induction targets with
  | nil => rfl
  | cons target targets ih => rw [List.foldr_cons, ih, store_comm, List.foldr_cons]

theorem VarsAgree.storeParts {targets : List TypedTarget} {parts : List SocketType}
    (h : VarsAgree S Γ w) (ht : TargetsTyped S Γ targets parts Γ') :
    VarsAgree S Γ' (targets.foldr (fun target w => w.store 1 target) w) := by
  induction ht generalizing w with
  | nil => exact h
  | cons htarget _ ih =>
    rw [List.foldr_cons, ← Widths.foldr_store]
    exact ih (h.store htarget)

theorem TargetsTyped.output_lt {targets : List TypedTarget} {parts : List SocketType}
    (h : TargetsTyped S Γ targets parts Γ') {k : Nat} (hk : .output k ∈ targets) :
    k < S.outputs.length := by
  induction h with
  | nil => cases hk
  | cons ht _ ih =>
    cases hk with
    | tail _ hk => exact ih hk
    | head => cases ht with | output _ hp => exact (List.getElem?_eq_some_iff.1 hp).1

theorem TargetsTyped.spelled {targets : List TypedTarget} {parts : List SocketType}
    (h : TargetsTyped S Γ targets parts Γ') {x : String} (hx : .var x ∈ targets) : S.spelled x := by
  induction h with
  | nil => cases hx
  | cons ht _ ih =>
    cases hx with
    | tail _ hx => exact ih hx
    | head => cases ht with | var h => exact h

/-- The variables that storing in targets binds are those among the targets. None of them is
temporary, so all are collected. -/
theorem mem_boundNamesAll_store {targets : List TypedTarget}
    (h : ∀ x, .var x ∈ targets → '#' ∉ x.toList) (x : String) :
    x ∈ boundNamesAll [] (targets.map Lower.store) ↔ x ∈ targets.filterMap TypedTarget.var? := by
  induction targets with
  | nil => rfl
  | cons target targets ih =>
    rw [List.map_cons, boundNamesAll, mem_boundNamesAll, ih fun y hy => h y (.tail _ hy)]
    cases target with
    | var y =>
      simp [Lower.store, mem_boundNames_bindVar, h y (.head _), TypedTarget.var?]
    | output | ignore => simp [Lower.store, boundNames, TypedTarget.var?]

/-! ### Expressions and assignments -/

/-- The ops of statements run to their end as foretold, bind the given variables and set the given
outputs. -/
structure StmtsRun (S : Setting) (Γ : TypeEnv) (widths : Widths → Option Widths)
    (bound : List String) (assigns : Nat → Prop) (Γ' : TypeEnv) (ops : List Op) : Prop where
  bound : ∀ x, x ∈ boundNamesAll [] ops ↔ x ∈ bound
  runs : ∀ w m, Agrees S Γ w m → m.outputs.length = S.outputs.length →
    Ends (widths w) (runOps ops m) fun w' m' =>
      Agrees S Γ' w' m' ∧ OutputsAfter assigns m.outputs m'.outputs

/-- The ops of a statement run to their end as foretold. -/
abbrev StmtRuns (S : Setting) (Γ : TypeEnv) (s : TypedStmt) (Γ' : TypeEnv) (ops : List Op) : Prop :=
  StmtsRun S Γ (s.widths ·) s.boundVars s.Assigns Γ' ops

/-- The ops of a block run to their end as foretold. -/
abbrev BlockRuns (S : Setting) (Γ : TypeEnv) (ss : List TypedStmt) (Γ' : TypeEnv) (ops : List Op) :
    Prop :=
  StmtsRun S Γ (TypedStmt.widthsAll · ss) (TypedStmt.boundVarsAll ss)
    (fun i => ∃ s ∈ ss, s.Assigns i) Γ' ops

/-- A statement that is an expression runs as the expression does, and drops its value at the end. -/
theorem StmtRuns.expr {e : TypedExpr} {ops : List Op} (h : ExprRuns S Γ e Γ' ops) :
    StmtRuns S Γ (.expr e) Γ' (ops ++ [.endOfStatement]) := by
  refine ⟨fun x => ?_, fun w m hm _ => ?_⟩
  · rw [boundNamesAll_append, h.bound]
    rfl
  · rw [runOps_append]
    refine (h.runs w m hm).step fun w' m' ⟨hm', _, houtputs⟩ => ⟨{ m' with stack := [] }, rfl, ?_⟩
    exact ⟨hm'.frame ⟨rfl, rfl, rfl⟩, .of_eq (fun _ h => h) houtputs⟩

/-- Ops that push what a target takes, the op that stores it, and the end of the statement run as the
assignment says. What a variable takes has the width of the value's type. -/
theorem StmtRuns.assignOne (hS : S.Runnable) {e : TypedExpr} {target : TypedTarget} {ops : List Op}
    (hbound : ∀ seen, boundNamesAll seen ops = seen) (ht : TargetTyped S Γ₁ target e.varType Γ')
    (hruns : ∀ w m, Agrees S Γ w m → Ends (e.widths w) (runOps ops m) fun w' m' =>
      Agrees S Γ₁ w' m' ∧ (∃ i n, i.HasWidth n ∧ (∀ x, target = .var x → n = e.types.length) ∧
        (∀ k, target = .output k → i.Single) ∧ m'.stack = i :: m.stack) ∧ m'.outputs = m.outputs) :
    StmtRuns S Γ (.assign [target] e) Γ' (ops ++ [Lower.store target] ++ [.endOfStatement]) := by
  refine ⟨fun x => ?_, fun w m hm hlen => ?_⟩
  · have hplain : ∀ y, .var y ∈ [target] → '#' ∉ y.toList := by
      intro y hy
      cases List.mem_singleton.1 hy
      cases ht with | var hx => exact hS.plain y hx
    rw [List.append_assoc, boundNamesAll_append, hbound, mem_boundNamesAll_append]
    exact (or_iff_left (by simp [boundNamesAll, boundNames])).trans (mem_boundNamesAll_store hplain x)
  · have hstep : ∀ w' m', Agrees S Γ₁ w' m' ∧ (∃ i n, i.HasWidth n ∧
        (∀ x, target = .var x → n = e.types.length) ∧ (∀ k, target = .output k → i.Single) ∧
        m'.stack = i :: m.stack) ∧ m'.outputs = m.outputs →
        ∃ m'', runOps [Lower.store target, .endOfStatement] m' = .ok m'' ∧
          Agrees S Γ' (w'.storeAll e [target]) m'' ∧
          OutputsAfter (fun k => .output k ∈ [target]) m.outputs m''.outputs := by
      rintro w' m' ⟨hm', ⟨i, n, hi, hwidth, hsingle, hstack⟩, houtputs⟩
      have hout : ∀ k, target = .output k → k < m'.outputs.length ∧ i.Single := by
        rintro k rfl
        refine ⟨?_, hsingle k rfl⟩
        cases ht with
        | output _ hp => rw [houtputs, hlen]; exact (List.getElem?_eq_some_iff.1 hp).1
      obtain ⟨m₂, hstore, -, henv, hgroups, houts⟩ := store_run hi hout hm'.env hstack
      have hstored : w'.store n target = w'.store e.types.length target := by
        cases target with
        | var x => rw [hwidth x rfl]
        | output | ignore => rfl
      rw [hstored] at henv
      refine ⟨{ m₂ with stack := [] }, run_bind_ok.2 ⟨m₂, hstore, rfl⟩, ⟨?_, henv, ?_⟩, ?_⟩
      · exact hm'.vars.store ht
      · change GroupsRun S m₂.groups
        rw [hgroups]
        exact hm'.groups
      · rw [← houtputs]
        exact ⟨houts.length, fun k hk h => houts.set k hk (h.imp_right fun h =>
          (List.mem_singleton.1 h).symm)⟩
    rw [List.append_assoc, runOps_append]
    exact (hruns w m hm).bind fun w' m' h => hstep w' m' h

/-- Assigning a constant runs: the input for the constant pushes a single value, which is stored. The
checker has made sure that there is a node that holds such a constant. -/
theorem StmtRuns.assignConstant (hS : S.Runnable) {v : Constant} {t : Typing} {target : TypedTarget}
    (hv : t.varType = .value v.type) (hkept : ConstantKept S.tree target (.constant v t))
    (ht : TargetTyped S Γ target (TypedExpr.constant v t).varType Γ') :
    ∃ ops, Lower.assignConstant S.tree (S.outputs.map (·.name)) [target] v = .ok ops ∧
      StmtRuns S Γ (.assign [target] (.constant v t)) Γ' (ops ++ [.endOfStatement]) := by
  have hone : (TypedExpr.constant v t).types.length = 1 := by
    change t.varType.types.length = 1
    rw [hv]
    rfl
  have hruns : ∀ {input}, PushesSingle input → StmtRuns S Γ (.assign [target] (.constant v t)) Γ'
      (input ++ [Lower.store target] ++ [.endOfStatement]) := by
    intro input hinput
    refine StmtRuns.assignOne hS hinput.bound ht fun w m hm => ?_
    obtain ⟨m', i, hrun, hi, hstack, hframe⟩ := hinput.runs m
    exact ⟨m', hrun, hm.frame hframe, ⟨i, 1, .single hi, fun _ _ => hone.symm, fun _ _ => hi, hstack⟩,
      hframe.outputs⟩
  cases ht with
  | @var x _ hx hz =>
    obtain ⟨input, hinput, hpush⟩ := constantInput_runs x (hkept nofun v rfl)
    exact ⟨input ++ [.bindVar x], by rw [Lower.assignConstant, hinput]; rfl, hruns hpush⟩
  | @output i p _ a hz hp hh hc =>
    obtain ⟨input, hinput, hpush⟩ := constantInput_runs p.name (hkept nofun v rfl)
    have hname : (S.outputs.map (·.name))[i]? = some p.name := by simp [hp]
    refine ⟨input ++ [.setFunctionOut i], ?_, hruns hpush⟩
    simp only [Lower.assignConstant, hname, hinput]
    rfl
  | ignore =>
    refine ⟨[], rfl, fun x => by simp [boundNamesAll, boundNames, TypedStmt.boundVars,
      TypedTarget.var?], fun w m hm _ => .ok ⟨hm.frame ⟨rfl, rfl, rfl⟩, .refl fun i hi => ?_⟩⟩
    simp [TypedStmt.Assigns] at hi

theorem firstOutput_append (e : TypedExpr) (ops : List Op) :
    ops ++ Lower.firstOutput e [] = Lower.firstOutput e ops := by
  unfold Lower.firstOutput
  cases e.shape with
  | single => exact List.append_nil ops
  | bundle => rfl

/-- Assigning a value to one target runs. Of a bundle an output of the definition takes the first
part, and a variable takes the whole. -/
theorem StmtRuns.assign (hS : S.Runnable) {e : TypedExpr} {target : TypedTarget} {ops : List Op}
    (hp : e.varType.Proper) (hne : e.types ≠ []) (ht : TargetTyped S Γ₁ target e.varType Γ')
    (h : ExprRuns S Γ e Γ₁ ops) :
    ∃ storing, Lower.storeAll S.tree e [target] = .ok storing ∧
      StmtRuns S Γ (.assign [target] e) Γ' (ops ++ storing ++ [.endOfStatement]) := by
  have hpos : e.types.length ≠ 0 := fun h => hne (List.length_eq_zero_iff.1 h)
  have hwhole : (∀ k, target ≠ .output k) →
      StmtRuns S Γ (.assign [target] e) Γ' (ops ++ [Lower.store target] ++ [.endOfStatement]) := by
    intro hno
    refine StmtRuns.assignOne hS h.bound ht fun w m hm =>
      (h.runs w m hm).mono fun w' m' ⟨hm', hpushed, houtputs⟩ => ?_
    obtain ⟨i, hi, hstack⟩ := hpushed.exists_of_pos hpos
    exact ⟨hm', ⟨i, _, hi, fun _ _ => rfl, fun k hk => absurd hk (hno k), hstack⟩, houtputs⟩
  cases target with
  | var x => exact ⟨_, rfl, hwhole nofun⟩
  | ignore => exact ⟨_, rfl, hwhole nofun⟩
  | output k =>
    -- An output takes the first part of a bundle only.
    obtain ⟨hbound, hruns⟩ := h.firstOutput hp hne
    refine ⟨_, rfl, ?_⟩
    rw [← List.append_assoc, firstOutput_append]
    refine StmtRuns.assignOne hS hbound ht fun w m hm =>
      (hruns w m hm).mono fun w' m' ⟨hm', ⟨i, hi, hstack⟩, houtputs⟩ => ?_
    exact ⟨hm', ⟨i, 1, .single hi, nofun, fun _ _ => hi, hstack⟩, houtputs⟩

/-! ### Unpacking -/

/-- As many pops as there are items in front take these items off the stack. -/
theorem pops_run {m : Machine} (front rest : List Item) (hs : m.stack = front ++ rest) :
    runOps (List.replicate front.length .pop) m = .ok { m with stack := rest } := by
  induction front generalizing m with
  | nil =>
    cases m
    cases hs
    rfl
  | cons i front ih =>
    have hpop : runOp .pop m = .ok { m with stack := front ++ rest } := by
      rw [runOp, pop, hs]
      rfl
    exact run_bind_ok.2 ⟨_, hpop, ih rfl⟩

/-- The ops that unpack the bundle on the stack into targets, the rest of it being dropped. -/
def unpackOps (targets : List TypedTarget) (parts : Nat) : List Op :=
  .splitStruct :: List.replicate (parts - targets.length) .pop ++ targets.reverse.map Lower.store

/-- Unpacking binds the variables among its targets and no other, as dropping and splitting bind
none. -/
theorem mem_boundNamesAll_unpackOps {targets : List TypedTarget} (parts : Nat)
    (h : ∀ x, .var x ∈ targets → '#' ∉ x.toList) (x : String) :
    x ∈ boundNamesAll [] (unpackOps targets parts) ↔ x ∈ targets.filterMap TypedTarget.var? := by
  have hpops : ∀ n, boundNamesAll [] (List.replicate n Op.pop) = [] := by
    intro n
    induction n with
    | zero => rfl
    | succ n ih => exact ih
  have hsplit : boundNamesAll [] (.splitStruct :: List.replicate (parts - targets.length) .pop) = [] :=
    hpops _
  rw [unpackOps, boundNamesAll_append, hsplit, mem_boundNamesAll_store]
  · simp
  · intro y hy
    exact h y (List.mem_reverse.1 hy)

/-- Unpacking a bundle pops it, drops the parts beyond the targets and stores the others, the last
one first. Each variable among the targets has width one behind it. -/
theorem unpackOps_run {P : String → Prop} {m : Machine} {targets : List TypedTarget}
    {items rest : List Item} (hl : targets.length ≤ items.length) (hitems : ∀ i ∈ items, i.Single)
    (hout : ∀ k, .output k ∈ targets → k < m.outputs.length) (henv : EnvAgrees P w m.env)
    (hs : m.stack = .bundle items :: rest) :
    ∃ m', runOps (unpackOps targets items.length) m = .ok m' ∧
      EnvAgrees P (targets.foldr (fun target w => w.store 1 target) w) m'.env ∧
      m'.groups = m.groups ∧ OutputsAfter (fun k => .output k ∈ targets) m.outputs m'.outputs := by
  let front := (items.drop targets.length).reverse
  have hfront : items.length - targets.length = front.length := by simp [front]
  have hsplit : runOp .splitStruct m = .ok { m with stack := items.reverse ++ rest } := by
    rw [runOp, splitBundle, pop, hs]
    rfl
  have hcut : items.reverse ++ rest = front ++ ((items.take targets.length).reverse ++ rest) := by
    rw [← List.append_assoc, ← List.reverse_append, List.take_append_drop]
  have hpops := pops_run (m := { m with stack := items.reverse ++ rest }) front _ hcut
  obtain ⟨m', hrun, -, henv', hgroups, houts⟩ := storeParts_run
    (m := { m with stack := (items.take targets.length).reverse ++ rest })
    (by rw [List.length_take]; omega) (fun i hi => hitems i (List.mem_of_mem_take hi)) hout henv rfl
  refine ⟨m', ?_, henv', hgroups, houts⟩
  rw [unpackOps, hfront, runOps_append]
  exact run_bind_ok.2 ⟨_, run_bind_ok.2 ⟨_, hsplit, hpops⟩, hrun⟩

/-- Several targets take the parts of the value on the stack, whether it is a bundle or has to be
split first. Both ways there is a bundle in the end, which is unpacked. -/
theorem storeAll_runs (hS : S.Runnable) {e : TypedExpr} {targets : List TypedTarget}
    {parts : List SocketType} (hp : e.varType.Proper) (hne : e.types ≠ []) (hl : targets.length ≠ 1)
    (hu : Unpacks S.tree e parts) (ht : TargetsTyped S Γ targets parts Γ') :
    ∃ storing, Lower.storeAll S.tree e targets = .ok storing ∧
      (∀ x, x ∈ boundNamesAll [] storing ↔ x ∈ targets.filterMap TypedTarget.var?) ∧
      ∀ w m i rest, m.outputs.length = S.outputs.length → EnvAgrees S.spelled w m.env →
        i.HasWidth e.types.length → m.stack = i :: rest → ∃ m', runOps storing m = .ok m' ∧
          EnvAgrees S.spelled (targets.foldr (fun target w => w.store 1 target) w) m'.env ∧
          m'.groups = m.groups ∧ OutputsAfter (fun k => .output k ∈ targets) m.outputs m'.outputs := by
  have hplain : ∀ x, .var x ∈ targets → '#' ∉ x.toList := fun x hx => hS.plain x (ht.spelled hx)
  have hout : ∀ {m : Machine}, m.outputs.length = S.outputs.length →
      ∀ k, .output k ∈ targets → k < m.outputs.length := fun hlen k hk => by
    rw [hlen]
    exact ht.output_lt hk
  have hle := ht.length_le
  rcases targets with _ | ⟨a, _ | ⟨b, targets⟩⟩
  · exact ⟨[], rfl, fun _ => Iff.rfl, fun w m _ _ _ henv _ _ =>
      ⟨m, rfl, henv, rfl, .refl fun _ h => nomatch h⟩⟩
  · exact absurd rfl hl
  cases hu with
  | bundle hshape =>
    have htwo : 2 ≤ e.types.length := hp.shape.1 hshape
    refine ⟨unpackOps (a :: b :: targets) e.types.length, ?_, mem_boundNamesAll_unpackOps _ hplain,
      fun w m i rest hlen henv hi hstack => ?_⟩
    · simp only [Lower.storeAll, hshape]
      rfl
    · obtain ⟨items, rfl, hcount, hitems⟩ := hi.exists_bundle htwo
      rw [← hcount]
      exact unpackOps_run (by omega) hitems (hout hlen) henv hstack
  | @single type split hshape hh hsplit =>
    have hone := hp.length_eq_one hshape hne
    have hparts : split.outputTypes.length = split.outputs.length := by simp [Overload.outputTypes]
    refine ⟨split.op :: unpackOps (a :: b :: targets) split.outputs.length, ?_,
      mem_boundNamesAll_unpackOps _ hplain, fun w m i rest hlen henv hi hstack => ?_⟩
    · simp only [Lower.storeAll, hshape, hh, hsplit]
      rfl
    · rw [show e.types.length = 1 from hone] at hi
      obtain ⟨m₁, items, hop, hcount, hitems, hstack₁, hframe⟩ :=
        split_runs hsplit hi.single_of_one hstack
      have hlen₁ : m₁.outputs.length = S.outputs.length := by rw [hframe.outputs, hlen]
      obtain ⟨m₂, hrun, henv₂, hgroups, houts⟩ := unpackOps_run (w := w) (m := m₁)
        (by omega) hitems (hout hlen₁) (by rw [hframe.env]; exact henv) hstack₁
      refine ⟨m₂, ?_, henv₂, hgroups.trans hframe.groups, by rw [← hframe.outputs]; exact houts⟩
      rw [hcount] at hrun
      exact run_bind_ok.2 ⟨m₁, hop, hrun⟩

/-- Assigning the parts of a value to several targets runs, whether the value is a bundle or is taken
apart by a node. -/
theorem StmtRuns.unpack (hS : S.Runnable) {e : TypedExpr} {targets : List TypedTarget}
    {parts : List SocketType} {ops : List Op} (hp : e.varType.Proper) (hne : e.types ≠ [])
    (hl : targets.length ≠ 1) (hu : Unpacks S.tree e parts)
    (ht : TargetsTyped S Γ₁ targets parts Γ') (h : ExprRuns S Γ e Γ₁ ops) :
    ∃ storing, Lower.storeAll S.tree e targets = .ok storing ∧
      StmtRuns S Γ (.assign targets e) Γ' (ops ++ storing ++ [.endOfStatement]) := by
  obtain ⟨storing, hstoring, hb, hrun⟩ := storeAll_runs hS hp hne hl hu ht
  have hpos : e.types.length ≠ 0 := fun h => hne (List.length_eq_zero_iff.1 h)
  have hstore : ∀ w : Widths, w.storeAll e targets =
      targets.foldr (fun target w => w.store 1 target) w := by
    intro w
    unfold Widths.storeAll
    split
    · exact absurd rfl hl
    · rfl
  refine ⟨storing, hstoring, fun x => ?_, fun w m hm hlen => ?_⟩
  · rw [List.append_assoc, boundNamesAll_append, h.bound, mem_boundNamesAll_append]
    exact (or_iff_left (by simp [boundNamesAll, boundNames])).trans (hb x)
  · rw [List.append_assoc, runOps_append]
    refine (h.runs w m hm).bind fun w' m₁ ⟨hm₁, hpushed, houtputs⟩ => ?_
    obtain ⟨i, hi, hstack⟩ := hpushed.exists_of_pos hpos
    obtain ⟨m₂, hrun₂, henv, hgroups, houts⟩ :=
      hrun w' m₁ i m.stack (by rw [houtputs, hlen]) hm₁.env hi hstack
    refine ⟨{ m₂ with stack := [] }, ?_, ⟨?_, ?_, ?_⟩, ?_⟩
    · rw [runOps_append, hrun₂]
      rfl
    · rw [hstore]
      exact hm₁.vars.storeParts ht
    · rw [hstore]
      exact henv
    · change GroupsRun S m₂.groups
      rw [hgroups]
      exact hm₁.groups
    · rw [← houtputs]
      exact houts

/-! ### Assigning components -/

theorem Lower.toList_temporary (base : String) (n : Nat) :
    (s!"{base}#{n}").toList = base.toList ++ '#' :: Nat.toDigits 10 n := by
  have hn : (toString n).toList = Nat.toDigits 10 n := Nat.toList_repr
  simp [toString] at hn ⊢

/-- Temporary variables that are numbered apart are different, since the number is what stands behind
the only hash of the name. -/
theorem Lower.temporary_ne {a b : String} {m n : Nat} (ha : '#' ∉ a.toList) (h : m ≠ n) :
    s!"{a}#{m}" ≠ s!"{b}#{n}" := by
  intro heq
  have hlist := congrArg String.toList heq
  rw [toList_temporary, toList_temporary] at hlist
  have hdigits : '#' ∉ Nat.toDigits 10 m := fun hmem => by
    have := Nat.isDigit_of_mem_toDigits (by decide) (by decide) hmem
    revert this
    decide
  obtain ⟨-, -, hmn⟩ := (List.append_cons_inj_of_notMem ha hdigits).1 hlist
  apply h
  rw [← Nat.ofDigitChars_ten_toDigits (n := m), hmn, Nat.ofDigitChars_ten_toDigits]

/-- Writing a component runs. It binds two temporary variables and removes them, which changes no
widths as no variable of the formula has such a name. -/
theorem StmtRuns.setField (hS : S.Runnable) {x : String} {t : Typing} {k : Component}
    {type : SocketType} {value : TypedExpr} {ops : List Op} {object temp : String}
    (hobject : '#' ∈ object.toList) (htemp : '#' ∈ temp.toList) (hne : object ≠ temp)
    (hx : Γ' x = some t.varType) (hspelled : S.spelled x) (hone : t.types.length = 1)
    (hk : k.Of S.tree type) (hp : value.varType.Proper) (hv : value.types ≠ [])
    (h : ExprRuns S Γ value Γ' ops) :
    ∃ writing, k.writeOps S.tree x object temp = .ok writing ∧
      StmtRuns S Γ (.setField x (.var x false t) k value) Γ'
        (Lower.firstOutput value ops ++ .bindVar temp :: [.getVar x] ++ .bindVar object :: writing ++
          [.destroyVar temp, .destroyVar object, .endOfStatement]) := by
  obtain ⟨hbound, hruns⟩ := h.firstOutput hp hv
  obtain ⟨writing, hwriting, hwb, hwr⟩ := writeOps_run hk x object temp
  have hno := hS.not_spelled hobject
  have hnt := hS.not_spelled htemp
  refine ⟨writing, hwriting, fun y => ?_, fun w m hm hlen => ?_⟩
  · simp only [List.append_assoc, List.cons_append, List.nil_append, boundNamesAll_append, hbound,
      boundNamesAll, boundNames_temporary htemp, boundNames_temporary hobject, hwb]
    simp [boundNames, hS.plain x hspelled, TypedStmt.boundVars]
  · simp only [List.append_assoc]
    rw [runOps_append]
    refine (hruns w m hm).bind fun w' m₁ ⟨hm₁, ⟨i, hi, hstack⟩, houtputs⟩ => ?_
    obtain ⟨j, hj, hwidth⟩ := hm₁.exists_item hx
    have hsingle : j.Single := by
      rw [show t.varType.types.length = 1 from hone] at hwidth
      exact hwidth.single_of_one
    have hxt : x ≠ temp := fun hxt => hnt (hxt ▸ hspelled)
    let m₂ : Machine := { m₁ with stack := m.stack, env := m₁.env.insert temp i }
    let m₃ : Machine := { m₂ with env := m₂.env.insert object j }
    have hget : m₂.env.get? x = some j := by simp [m₂, Table.get?_insert, hxt, hj]
    have hvalue : m₃.env.get? temp = some i := by
      simp [m₃, m₂, Table.get?_insert, Ne.symm hne]
    obtain ⟨m₄, items, i', hrun, hi', henv, -, houtputs₄, hgroups⟩ :=
      hwr m₃ j i (by simp [m₃, Table.get?_insert]) hsingle hvalue hi hne
    refine ⟨{ m₄ with stack := [], env := (m₄.env.erase temp).erase object }, ?_, ⟨?_, ?_, ?_⟩, ?_⟩
    · refine run_bind_ok.2 ⟨m₂, bindVar_runs hstack, run_bind_ok.2 ⟨m₂.push j, getVar_runs hget, ?_⟩⟩
      refine run_bind_ok.2 ⟨m₃, bindVar_runs rfl, ?_⟩
      exact (runOps_append ..).trans (run_bind_ok.2 ⟨m₄, hrun, rfl⟩)
    · have hvars := hm₁.vars.bind hspelled t.varType
      rw [show t.varType.types.length = 1 from hone] at hvars
      intro y u hy
      by_cases hyx : y = x
      · subst hyx
        rw [hx] at hy
        cases hy
        exact hvars y t.varType (TypeEnv.bind_self ..)
      · exact hvars y u (by rw [TypeEnv.bind_of_ne hyx]; exact hy)
    · change EnvAgrees S.spelled (w'.bind x 1) ((m₄.env.erase temp).erase object)
      rw [henv]
      have henv₃ : EnvAgrees S.spelled w' m₃.env := (hm₁.env.insert_other hnt i).insert_other hno j
      have henv₄ := (henv₃.insert_other hno (.bundle items)).insert x (.single hi')
      exact (henv₄.erase_other hnt).erase_other hno
    · change GroupsRun S m₄.groups
      rw [hgroups]
      exact hm₁.groups
    · exact .of_eq (fun _ h => h) (houtputs₄.trans houtputs)

/-! ### Zones -/

mutual

/-- The variables that a well-typed statement binds are named as variables of the formula are. -/
theorem StmtTyped.spelled_boundVars : (s : TypedStmt) → ∀ {S : Setting} {Γ Γ' : TypeEnv},
    StmtTyped S Γ s Γ' → ∀ x ∈ s.boundVars, S.spelled x
  | .expr _, _, _, _, _, _, hx => nomatch hx
  | .assign targets _, S, _, _, h, x, hx => by
    have hmem := TypedTarget.mem_of_var? hx
    cases h with
    | assign _ _ _ ht =>
      cases List.mem_singleton.1 hmem
      cases ht with | var hx => exact hx
    | unpack _ _ _ _ _ ht => exact ht.spelled hmem
  | .setField _ _ _ _, _, _, _, h, x, hx => by
    cases List.mem_singleton.1 hx
    cases h with | setField _ hspelled => exact hspelled
  | .zone _ body, S, _, _, h, x, hx => by
    cases h with | zone _ _ _ _ hb => exact BlockTyped.spelled_boundVarsAll body hb x hx

/-- The variables that a block binds have names of the formula. -/
theorem BlockTyped.spelled_boundVarsAll : (ss : List TypedStmt) → ∀ {S : Setting} {Γ Γ' : TypeEnv},
    BlockTyped S Γ ss Γ' → ∀ x ∈ TypedStmt.boundVarsAll ss, S.spelled x
  | [], _, _, _, _, _, hx => nomatch hx
  | s :: ss, _, _, _, h, x, hx => by
    cases h with
    | cons hs hss =>
      rcases List.mem_append.1 hx with hx | hx
      · exact StmtTyped.spelled_boundVars s hs x hx
      · exact BlockTyped.spelled_boundVarsAll ss hss x hx

end

/-- After a zone, the variables that it started with have their widths again. -/
theorem VarsAgree.of_zone {Γ₂ : TypeEnv} {body : List TypedStmt}
    (hb : BlockTyped (S.inZone Γ) Γ body Γ₂) (h : VarsAgree (S.inZone Γ) Γ₂ w) :
    VarsAgree S Γ w := by
  intro x t hx
  have hzone : Γ ∈ (S.inZone Γ).zones := List.mem_append_right _ (.head _)
  obtain ⟨u, hu, htypes⟩ := hb.keepsTypes hzone (fun y o hy => ⟨o, hy, rfl⟩) x t hx
  obtain ⟨hs, hw⟩ := h x u hu
  exact ⟨hs, by rw [hw, htypes]⟩

/-- A zone ends as the widths foretell if its count and its body do. Behind it the formula has the
variables that it had where the zone started. -/
theorem StmtRuns.zone {Γ₂ : TypeEnv} {count : TypedExpr} {body : List TypedStmt}
    {ops inner : List Op} (hp : count.varType.Proper) (hne : count.types ≠ [])
    (hb : BlockTyped (S.inZone Γ₁) Γ₁ body Γ₂) (hcount : ExprRuns S Γ count Γ₁ ops)
    (hbody : BlockRuns (S.inZone Γ₁) Γ₁ body Γ₂ inner) :
    StmtRuns S Γ (.zone count body) Γ₁
      (Lower.firstOutput count ops ++ [.zone inner, .endOfStatement]) := by
  obtain ⟨hbound, hruns⟩ := hcount.firstOutput hp hne
  refine ⟨fun x => ?_, fun w m hm hlen => ?_⟩
  · rw [boundNamesAll_append, hbound]
    exact hbody.bound x
  · rw [runOps_append]
    refine (hruns w m hm).bind fun before m₁ ⟨hm₁, ⟨i, hi, hstack⟩, houtputs⟩ => ?_
    have hzone := zone_ends (r := TypedStmt.widthsAll before body)
      (Q := fun w' outputs groups => VarsAgree (S.inZone Γ₁) Γ₂ w' ∧ GroupsRun S groups ∧
        OutputsAfter (fun i => ∃ s ∈ body, s.Assigns i) m₁.outputs outputs)
      hstack hi hm₁.env hbody.bound (hb.spelled_boundVarsAll body) (runOps_extends inner)
      (fun w' => TypedStmt.keeps_widthsAll body) fun m₂ henv houtputs₂ hgroups => by
        have hm₂ : Agrees (S.inZone Γ₁) Γ₁ before m₂ :=
          ⟨hm₁.vars, henv, by rw [hgroups]; exact hm₁.groups⟩
        have hlen₂ : m₂.outputs.length = (S.inZone Γ₁).outputs.length := by
          rw [houtputs₂, houtputs]
          exact hlen
        refine (hbody.runs before m₂ hm₂ hlen₂).mono fun w' m' ⟨hm', houts⟩ => ?_
        exact ⟨hm'.env, hm'.vars, hm'.groups, houtputs₂ ▸ houts⟩
    refine hzone.step fun w' m' ⟨henv, hvars, hgroups, houts⟩ => ⟨{ m' with stack := [] }, rfl, ?_⟩
    refine ⟨⟨hvars.of_zone hb, henv, hgroups⟩, ?_⟩
    rw [← houtputs]
    exact ⟨houts.length, fun k hk h => houts.set k hk (h.imp_right False.elim)⟩

/-! ### Blocks -/

theorem BlockRuns.nil : BlockRuns S Γ [] Γ [] :=
  ⟨fun _ => Iff.rfl, fun _ _ hm _ => .ok ⟨hm, .refl fun _ ⟨_, h, _⟩ => nomatch h⟩⟩

/-- A statement and the rest of a block run one after the other, and each ends as the widths
foretell. -/
theorem BlockRuns.cons {s : TypedStmt} {ss : List TypedStmt} {ops more : List Op}
    (hs : StmtRuns S Γ s Γ₁ ops) (hss : BlockRuns S Γ₁ ss Γ' more) :
    BlockRuns S Γ (s :: ss) Γ' (ops ++ more) := by
  refine ⟨fun x => ?_, fun w m hm hlen => ?_⟩
  · rw [mem_boundNamesAll_append, hs.bound, hss.bound]
    exact List.mem_append.symm
  · rw [runOps_append]
    refine (hs.runs w m hm hlen).bind fun w₁ m₁ ⟨hm₁, houts₁⟩ => ?_
    refine (hss.runs w₁ m₁ hm₁ (houts₁.length.trans hlen)).mono fun w' m' ⟨hm', houts'⟩ => ?_
    refine ⟨hm', houts₁.trans houts' fun i ⟨s', hs', hi⟩ => ?_⟩
    rcases List.mem_cons.1 hs' with rfl | hs'
    · exact .inl hi
    · exact .inr ⟨s', hs', hi⟩

/-! ### Bodies of definitions -/

/-- A variable in scope in the body of a definition was in scope before or is a parameter. -/
theorem TypeEnv.bindParams_eq (params : List TypedParam) {x : String} {t : VarType}
    (h : Γ.bindParams params x = some t) :
    Γ x = some t ∨ ∃ p ∈ params, p.name = x ∧ t = .value p.type := by
  induction params generalizing Γ with
  | nil => exact .inl h
  | cons p params ih =>
    have h' : (Γ.bind p.name (.value p.type)).bindParams params x = some t := h
    rcases ih h' with h | ⟨q, hq, hname⟩
    · by_cases hx : x = p.name
      · subst hx
        rw [TypeEnv.bind_self] at h
        cases h
        exact .inr ⟨p, .head _, rfl, rfl⟩
      · rw [TypeEnv.bind_of_ne hx] at h
        exact .inl h
    · exact .inr ⟨q, .tail _ hq, hname⟩

/-- The parameters of a definition have width one. -/
theorem varsAgree_params {params : List TypedParam} (h : ∀ p ∈ params, S.spelled p.name) :
    VarsAgree S (TypeEnv.empty.bindParams params) (Widths.ofParams params) := by
  intro x t hx
  rcases TypeEnv.bindParams_eq params hx with hx | ⟨p, hp, rfl, rfl⟩
  · cases hx
  · refine ⟨h p hp, if_pos ?_⟩
    exact List.any_eq_true.2 ⟨p, hp, by simp⟩

/-- A body that assigns every output ends with all of them set, because an output that a statement
has set stays set behind the others. -/
theorem BodyRuns.of_block {f : TypedFunction} {ops : List Op} (hp : ∀ p ∈ f.inputs, S.spelled p.name)
    (hassigns : ∀ i < f.outputs.length, ∃ s ∈ f.body, s.Assigns i)
    (h : BlockRuns (S.body f) (TypeEnv.empty.bindParams f.inputs) f.body Γ' ops) :
    BodyRuns S f ops := by
  intro m henv hgroups hlen
  have hm : Agrees (S.body f) (TypeEnv.empty.bindParams f.inputs) (Widths.ofParams f.inputs) m :=
    ⟨varsAgree_params hp, henv, hgroups⟩
  refine (h.runs _ m hm hlen).mono fun w' m' ⟨hm', houts⟩ => ?_
  have hlen' : m'.outputs.length = f.outputs.length := houts.length.trans hlen
  refine ⟨hm'.groups, hlen', fun i hi => ?_⟩
  obtain ⟨k, hk, rfl⟩ := List.getElem_of_mem hi
  have hlt : k < f.outputs.length := hlen' ▸ hk
  obtain ⟨item, hitem, hsingle⟩ := houts.set k (hlen ▸ hlt) (.inr (hassigns k hlt))
  rw [List.getElem?_eq_getElem hk] at hitem
  cases hitem
  exact hsingle

end NodeFormula

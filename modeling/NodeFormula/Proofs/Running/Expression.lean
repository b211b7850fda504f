import NodeFormula.Proofs.Running.Zone

/-!
# Running the ops of expressions

The machine agrees with a typing environment when every variable in scope stands for an item of the
width that its type says. The ops of a well-typed expression keep this, and push a value of the
width of the expression. This module has the cases of that statement for the different kinds of
expressions, each from the statement for the parts of the expression.
-/

namespace NodeFormula

open Machine

/-! ### Agreement -/

/-- A setting in which formulas can be run: variables do not have the names of temporary variables,
and no two definitions have one name. -/
structure Setting.Runnable (S : Setting) : Prop where
  plain : ∀ x, S.spelled x → '#' ∉ x.toList
  unique : ∀ f g, S.known f → S.known g → f.name = g.name → f = g

/-- The groups that are built come from definitions whose bodies run to their ends. -/
def GroupsRun (S : Setting) (groups : List NodeTree) : Prop :=
  ∀ g ∈ groups, ∀ f, S.known f → f.name = g.name → f.widths.isSome

/-- The variables of an environment have names of the formula and the given widths. -/
def VarsAgree (S : Setting) (Γ : TypeEnv) (w : Widths) : Prop :=
  ∀ x t, Γ x = some t → S.spelled x ∧ w x = some t.types.length

/-- Binding a variable, in the types and in the widths, keeps the two together. -/
theorem VarsAgree.bind {S : Setting} {Γ : TypeEnv} {w : Widths} (h : VarsAgree S Γ w) {x : String}
    (hx : S.spelled x) (t : VarType) : VarsAgree S (Γ.bind x t) (w.bind x t.types.length) := by
  intro y u hy
  by_cases hxy : y = x
  · subst hxy
    rw [TypeEnv.bind_self] at hy
    cases hy
    exact ⟨hx, Widths.bind_self ..⟩
  · rw [TypeEnv.bind_of_ne hxy] at hy
    rw [Widths.bind_of_ne hxy]
    exact h y u hy

/-- A machine has the variables of an environment, and variables have the given widths. -/
structure Agrees (S : Setting) (Γ : TypeEnv) (w : Widths) (m : Machine) : Prop where
  vars : VarsAgree S Γ w
  env : EnvAgrees S.spelled w m.env
  groups : GroupsRun S m.groups

namespace Agrees

variable {S : Setting} {Γ : TypeEnv} {w : Widths} {m m' : Machine}

/-- A step that leaves variables and groups keeps the agreement. -/
theorem frame (h : Agrees S Γ w m) (hf : Frame m m') : Agrees S Γ w m' :=
  ⟨h.vars, by rw [hf.env]; exact h.env, by rw [hf.groups]; exact h.groups⟩

/-- Binding a variable to an item of the width that its type says keeps the agreement. -/
theorem bind (h : Agrees S Γ w m) {x : String} {t : VarType} {i : Item} (hx : S.spelled x)
    (hi : i.HasWidth t.types.length) (henv : m'.env = m.env.insert x i)
    (hgroups : m'.groups = m.groups) :
    Agrees S (Γ.bind x t) (w.bind x t.types.length) m' :=
  ⟨h.vars.bind hx t, by rw [henv]; exact h.env.insert x hi, by rw [hgroups]; exact h.groups⟩

/-- What a variable in scope stands for. -/
theorem exists_item (h : Agrees S Γ w m) {x : String} {t : VarType} (hx : Γ x = some t) :
    ∃ i, m.env.get? x = some i ∧ i.HasWidth t.types.length := by
  obtain ⟨hs, hw⟩ := h.vars x t hx
  exact h.env.exists_item hs hw

end Agrees

/-! ### Lowering -/

namespace Lower

variable {α β : Type}

theorem bind_ok {x : Lower α} {f : α → Lower β} {n n₁ n' : Nat} {a : α} {b : β}
    (hx : x n = .ok (a, n₁)) (hf : f a n₁ = .ok (b, n')) : (x >>= f) n = .ok (b, n') := by
  change (x n >>= fun p => f p.1 p.2) = _
  rw [hx]
  exact hf

theorem lift_ok {x : Except LoweringError α} {a : α} (h : x = .ok a) (n : Nat) :
    (liftM x : Lower α) n = .ok (a, n) := by
  rw [h]
  rfl

theorem temporary_ok (base : String) (n : Nat) :
    temporary base n = .ok (s!"{base}#{n}", n + 1) := rfl

end Lower

/-- The ops of an expression run to their end as foretold, and push its value. -/
structure ExprRuns (S : Setting) (Γ : TypeEnv) (e : TypedExpr) (Γ' : TypeEnv) (ops : List Op) :
    Prop where
  bound : ∀ seen, boundNamesAll seen ops = seen
  runs : ∀ w m, Agrees S Γ w m → Ends (e.widths w) (runOps ops m) fun w' m' =>
    Agrees S Γ' w' m' ∧ Pushed e.types.length m.stack m' ∧ m'.outputs = m.outputs

/-- The ops of arguments run to their end as foretold, and push one item for each. -/
structure ArgsRun (S : Setting) (Γ : TypeEnv) (es : List TypedExpr) (Γ' : TypeEnv)
    (ops : List Op) : Prop where
  bound : ∀ seen, boundNamesAll seen ops = seen
  runs : ∀ w m, Agrees S Γ w m → Ends (TypedExpr.widthsAll w es) (runOps ops m) fun w' m' =>
    Agrees S Γ' w' m' ∧ (∃ items : List Item, items.length = es.length ∧ (∀ i ∈ items, i.Single) ∧
      m'.stack = items.reverse ++ m.stack) ∧ m'.outputs = m.outputs

variable {S : Setting} {Γ Γ' Γ₁ : TypeEnv}

/-! ### Constants and variables -/

/-- A constant runs and has width one. -/
theorem ExprRuns.constant {v : Constant} {t : Typing} (ht : t.varType = .value v.type) :
    ExprRuns S Γ (.constant v t) Γ [.pushValue (some v)] := by
  refine ⟨fun _ => rfl, fun w m hm => .ok ⟨hm.frame ⟨rfl, rfl, rfl⟩, ?_, rfl⟩⟩
  have hlen : (TypedExpr.constant v t).types.length = 1 := by
    change t.varType.types.length = 1
    rw [ht]
    rfl
  rw [hlen]
  exact .inr ⟨_, .single (.constant v), rfl⟩

/-- A variable in scope runs and has the width that its type says. -/
theorem ExprRuns.var {x : String} {t : Typing} (hx : Γ x = some t.varType) :
    ExprRuns S Γ (.var x false t) Γ [.getVar x] := by
  refine ⟨fun _ => rfl, fun w m hm => ?_⟩
  obtain ⟨i, hget, hi⟩ := hm.exists_item hx
  refine ⟨m.push i, run_bind_ok.2 ⟨_, getVar_runs hget, rfl⟩, hm.frame ⟨rfl, rfl, rfl⟩, ?_, rfl⟩
  exact .inr ⟨i, hi, rfl⟩

/-- The first use of a free variable runs, binds it with width one and reads it. -/
theorem ExprRuns.free {x : String} {t : Typing} (hx : S.spelled x)
    (ht : t.varType = .value .float) :
    ExprRuns S Γ (.var x true t) (Γ.bind x (.value .float)) [.createVar x, .getVar x] := by
  refine ⟨fun _ => rfl, fun w m hm => ?_⟩
  obtain ⟨m₁, s, hcreate, henv, hstack, houtputs, hgroups⟩ := createVar_runs m x
  have hget : m₁.env.get? x = some (.socket s) := by rw [henv, Table.get?_insert, if_pos rfl]
  have hlen : (TypedExpr.var x true t).types.length = 1 := by
    change t.varType.types.length = 1
    rw [ht]
    rfl
  refine ⟨m₁.push (.socket s), run_bind_ok.2 ⟨_, hcreate, run_bind_ok.2 ⟨_, getVar_runs hget, rfl⟩⟩,
    ?_, ?_, houtputs⟩
  · exact (hm.bind hx (.single (.socket s)) henv hgroups).frame ⟨rfl, rfl, rfl⟩
  · rw [hlen, ← hstack]
    exact .inr ⟨_, .single (.socket s), rfl⟩

/-! ### Arguments -/

/-- A value with at least one output is reduced to its first, which is a single value. No op is
needed for a value that is one already. -/
theorem ExprRuns.firstOutput {e : TypedExpr} {ops : List Op} (hp : e.varType.Proper)
    (hne : e.types ≠ []) (h : ExprRuns S Γ e Γ' ops) :
    (∀ seen, boundNamesAll seen (Lower.firstOutput e ops) = seen) ∧
    ∀ w m, Agrees S Γ w m → Ends (e.widths w) (runOps (Lower.firstOutput e ops) m) fun w' m' =>
      Agrees S Γ' w' m' ∧ (∃ i, i.Single ∧ m'.stack = i :: m.stack) ∧ m'.outputs = m.outputs := by
  have hpos : e.types.length ≠ 0 := fun h => hne (List.length_eq_zero_iff.1 h)
  unfold Lower.firstOutput
  cases hshape : e.shape with
  | single =>
    have hone : e.types.length = 1 := hp.length_eq_one hshape hne
    refine ⟨h.bound, fun w m hm => (h.runs w m hm).mono fun w' m' ⟨hm', hpushed, houtputs⟩ => ?_⟩
    rw [hone] at hpushed
    obtain ⟨i, hi, hstack⟩ := hpushed.exists_of_pos Nat.one_ne_zero
    exact ⟨hm', ⟨i, hi.single_of_one, hstack⟩, houtputs⟩
  | bundle =>
    have htwo : 2 ≤ e.types.length := hp.shape.1 hshape
    refine ⟨fun seen => ?_, fun w m hm => ?_⟩
    · rw [boundNamesAll_append, h.bound]
      rfl
    · rw [runOps_append]
      refine (h.runs w m hm).step fun w' m' ⟨hm', hpushed, houtputs⟩ => ?_
      obtain ⟨i, hi, hstack⟩ := hpushed.exists_of_pos hpos
      obtain ⟨items, rfl, hlen, hsingle⟩ := hi.exists_bundle htwo
      have hget : items[0]? = some items[0] := List.getElem?_eq_getElem (by omega)
      refine ⟨_, run_bind_ok.2 ⟨_, getOutput_runs hstack hget, rfl⟩, hm'.frame ⟨rfl, rfl, rfl⟩, ?_,
        houtputs⟩
      exact ⟨items[0], hsingle _ (List.getElem_mem _), rfl⟩

theorem ArgsRun.nil : ArgsRun S Γ [] Γ [] :=
  ⟨fun _ => rfl, fun _ _ hm => .ok ⟨hm, ⟨[], rfl, fun _ h => (nomatch h), rfl⟩, rfl⟩⟩

/-- The first argument and the others run one after the other, each to a single value. -/
theorem ArgsRun.cons {e : TypedExpr} {es : List TypedExpr} {ops more : List Op}
    (hp : e.varType.Proper) (hne : e.types ≠ []) (he : ExprRuns S Γ e Γ₁ ops)
    (hes : ArgsRun S Γ₁ es Γ' more) :
    ArgsRun S Γ (e :: es) Γ' (Lower.firstOutput e ops ++ more) := by
  obtain ⟨hbound, hruns⟩ := he.firstOutput hp hne
  refine ⟨fun seen => ?_, fun w m hm => ?_⟩
  · rw [boundNamesAll_append, hbound, hes.bound]
  · rw [runOps_append]
    refine (hruns w m hm).bind fun w₁ m₁ ⟨hm₁, ⟨i, hi, hstack⟩, houtputs⟩ => ?_
    refine (hes.runs w₁ m₁ hm₁).mono fun w' m' ⟨hm', ⟨items, hlen, hsingle, hstack'⟩, houtputs'⟩ => ?_
    refine ⟨hm', ⟨i :: items, by simp [hlen], List.forall_mem_cons.2 ⟨hi, hsingle⟩, ?_⟩,
      houtputs'.trans houtputs⟩
    rw [hstack', hstack]
    simp

/-! ### Outputs and components -/

/-- Taking an output of a bundle runs, as the type says that the bundle has this output. What is
pushed is a single value. -/
theorem ExprRuns.output {e : TypedExpr} {i : Nat} {type : SocketType} {name : String} {t : Typing}
    {ops : List Op} (hp : e.varType.Proper) (hshape : e.shape = .bundle)
    (hi : e.types[i]? = some type) (ht : t.varType = ⟨[type], [name], .single⟩)
    (h : ExprRuns S Γ e Γ' ops) : ExprRuns S Γ (.output e i t) Γ' (ops ++ [.getOutput i]) := by
  have htwo : 2 ≤ e.types.length := hp.shape.1 hshape
  have hlt : i < e.types.length := (List.getElem?_eq_some_iff.1 hi).1
  refine ⟨fun seen => ?_, fun w m hm => ?_⟩
  · rw [boundNamesAll_append, h.bound]
    rfl
  · rw [runOps_append]
    refine (h.runs w m hm).step fun w' m' ⟨hm', hpushed, houtputs⟩ => ?_
    obtain ⟨item, hitem, hstack⟩ := hpushed.exists_of_pos (by omega)
    obtain ⟨items, rfl, hlen, hsingle⟩ := hitem.exists_bundle htwo
    have hget : items[i]? = some items[i] := List.getElem?_eq_getElem (by omega)
    refine ⟨_, run_bind_ok.2 ⟨_, getOutput_runs hstack hget, rfl⟩, hm'.frame ⟨rfl, rfl, rfl⟩, ?_,
      houtputs⟩
    have hone : (TypedExpr.output e i t).types.length = 1 := by
      change t.varType.types.length = 1
      rw [ht]
      rfl
    rw [hone]
    exact .inr ⟨items[i], .single (hsingle _ (List.getElem_mem _)), rfl⟩

/-- The names of temporary variables have a `#`. -/
theorem Lower.mem_temporary (base : String) (n : Nat) : '#' ∈ (s!"{base}#{n}").toList := by
  simp [toString]

theorem Setting.Runnable.not_spelled (hS : S.Runnable) {x : String} (hx : '#' ∈ x.toList) :
    ¬ S.spelled x := fun h => hS.plain x h hx

theorem boundNames_temporary {x : String} (hx : '#' ∈ x.toList) (seen : List String) :
    boundNames seen (.bindVar x) = seen := by
  simp [boundNames, hx]

/-- Reading a component runs. The vector is held in a temporary variable while a node splits it, and
the variable is removed again, so variables and widths agree as before. -/
theorem ExprRuns.component (hS : S.Runnable) {e : TypedExpr} {k : Component} {type : SocketType}
    {name : String} {t : Typing} {ops : List Op} {temp : String} (htemp : '#' ∈ temp.toList)
    (hp : e.varType.Proper) (hh : e.types.head? = some type) (hk : k.Of S.tree type)
    (ht : t.varType = ⟨[Component.type], [name], .single⟩) (h : ExprRuns S Γ e Γ' ops) :
    ∃ reading, k.readOps S.tree temp = .ok reading ∧
      ExprRuns S Γ (.component e k t) Γ'
        (Lower.firstOutput e ops ++ .bindVar temp :: reading ++ [.destroyVar temp]) := by
  have hne : e.types ≠ [] := by
    intro hnil
    rw [hnil] at hh
    cases hh
  obtain ⟨hbound, hruns⟩ := h.firstOutput hp hne
  have hother := hS.not_spelled htemp
  obtain ⟨reading, hread, hrb, hrr⟩ := readOps_run hk temp
  refine ⟨reading, hread, fun seen => ?_, fun w m hm => ?_⟩
  · have hreading : boundNamesAll seen (.bindVar temp :: reading) = seen := by
      rw [boundNamesAll, boundNames_temporary htemp, hrb]
    rw [boundNamesAll_append, boundNamesAll_append, hbound, hreading]
    rfl
  · rw [List.append_assoc, runOps_append]
    refine (hruns w m hm).step fun w' m₁ ⟨hm₁, ⟨i, hi, hstack⟩, houtputs⟩ => ?_
    let m₂ : Machine := { m₁ with stack := m.stack, env := m₁.env.insert temp i }
    obtain ⟨m₃, j, hrun, hj, hstack₃, hframe⟩ :=
      hrr m₂ i (by simp [m₂, Table.get?_insert]) hi
    refine ⟨{ m₃ with env := m₃.env.erase temp }, ?_, ?_, ?_, hframe.outputs.trans houtputs⟩
    · rw [List.cons_append]
      refine run_bind_ok.2 ⟨m₂, bindVar_runs hstack, ?_⟩
      rw [runOps_append]
      exact run_bind_ok.2 ⟨m₃, hrun, rfl⟩
    · refine ⟨hm₁.vars, ?_, ?_⟩
      · change EnvAgrees S.spelled w' (m₃.env.erase temp)
        rw [hframe.env]
        exact (hm₁.env.insert_other hother i).erase_other hother
      · change GroupsRun S m₃.groups
        rw [hframe.groups]
        exact hm₁.groups
    · have hone : (TypedExpr.component e k t).types.length = 1 := by
        change t.varType.types.length = 1
        rw [ht]
        rfl
      rw [hone]
      exact .inr ⟨j, .single hj, hstack₃⟩

/-! ### Nodes -/

/-- A node runs: its arguments are single values, and inputs that were left out are empty, which can
all be connected. Its outputs are pushed as one value of their number. -/
theorem ExprRuns.node {node : NodeSpec} {args : List TypedExpr} {t : Typing} {ops : List Op}
    (hl : args.length ≤ node.inputs.length) (ho : t.types.length = node.outputs.length)
    (h : ArgsRun S Γ args Γ' ops) :
    ExprRuns S Γ (.node node args t) Γ' (ops ++
      List.replicate (node.inputs.length - args.length) (.pushValue none) ++
      [.callBuiltin node t.types]) := by
  have hmissing : List.replicate (node.inputs.length - args.length) (Op.pushValue none) =
      (List.replicate (node.inputs.length - args.length) none).map .pushValue := by simp
  rw [hmissing]
  refine ⟨fun seen => ?_, fun w m hm => ?_⟩
  · rw [boundNamesAll_append, boundNamesAll_append, h.bound, boundNamesAll_pushValues]
    rfl
  · rw [List.append_assoc, runOps_append]
    refine (h.runs w m hm).step fun w' m₁ ⟨hm₁, ⟨items, hlen, hsingle, hstack⟩, houtputs⟩ => ?_
    let empties := (List.replicate (node.inputs.length - args.length) none).map itemOf
    have hargs : empties.reverse ++ m₁.stack = (items ++ empties).reverse ++ m.stack := by
      simp [hstack]
    have hcount : (items ++ empties).length = node.inputs.length := by
      simp only [empties, List.length_append, List.length_map, List.length_replicate, hlen]
      omega
    have hconnects : ∀ i ∈ items ++ empties, i = .empty ∨ i.Single := by
      intro i hi
      rcases List.mem_append.1 hi with hi | hi
      · exact .inr (hsingle i hi)
      · obtain ⟨o, -, rfl⟩ := List.mem_map.1 hi
        exact itemOf_connects o
    obtain ⟨m₂, -, hcall, hpushed, hframe, -, -⟩ := callBuiltin_runs
      { m₁ with stack := empties.reverse ++ m₁.stack } node t.types _ hargs hcount hconnects ho
    refine ⟨m₂, ?_, hm₁.frame ⟨hframe.env, hframe.outputs, hframe.groups⟩, hpushed,
      hframe.outputs.trans houtputs⟩
    rw [runOps_append, pushValues_run]
    exact run_bind_ok.2 ⟨_, rfl, run_bind_ok.2 ⟨_, hcall, rfl⟩⟩

/-! ### Calls -/

/-- The ops of a definition's body run to their end as foretold, and set every output. -/
def BodyRuns (S : Setting) (f : TypedFunction) (ops : List Op) : Prop :=
  ∀ m : Machine, EnvAgrees S.spelled (Widths.ofParams f.inputs) m.env → GroupsRun S m.groups →
    m.outputs.length = f.outputs.length → Ends f.widths (runOps ops m) fun _ m' =>
      GroupsRun S m'.groups ∧ m'.outputs.length = f.outputs.length ∧ ∀ i ∈ m'.outputs, i.Single

/-- A body starts with its parameters bound to single values. Where two parameters have one name, the
later one counts, for the widths as for the table. -/
theorem envAgrees_params (P : String → Prop) {params : List TypedParam}
    {pairs : List (String × Item)} (hnames : pairs.map (·.1) = params.map (·.name))
    (hsingle : ∀ p ∈ pairs, p.2.Single) :
    EnvAgrees P (Widths.ofParams params) (Table.ofList pairs) := by
  intro x _
  have hmem : params.any (·.name = x) = true ↔ x ∈ pairs.map (·.1) := by
    rw [hnames]
    simp [List.mem_map]
  rw [Table.get?_ofList, Widths.ofParams]
  cases hfind : pairs.reverse.find? fun p => p.1 = x with
  | some p =>
    have hp : p ∈ pairs := List.mem_reverse.1 (List.mem_of_find?_eq_some hfind)
    have hx : p.1 = x := by simpa using List.find?_some hfind
    rw [if_pos (hmem.2 (List.mem_map.2 ⟨p, hp, hx⟩))]
    exact .some (.single (hsingle p hp))
  | none =>
    rw [if_neg]
    · exact .none
    · intro h
      obtain ⟨p, hp, rfl⟩ := List.mem_map.1 (hmem.1 h)
      simpa using List.find?_eq_none.1 hfind p (List.mem_reverse.2 hp)

/-- A call of a function ends as the widths of its body foretell. It runs the body with variables of
its own, and the caller goes on with those it had. -/
theorem callFunction_ends {f : TypedFunction} {ops : List Op} {args rest : List Item} {w : Widths}
    {m : Machine} (hs : m.stack = args.reverse ++ rest) (hl : args.length = f.inputs.length)
    (ha : ∀ i ∈ args, i.Single) (hm : Agrees S Γ w m) (h : BodyRuns S f ops) :
    Ends (f.widths >>= fun _ => some w)
      (m.callFunction (f.inputs.map (·.name)) f.outputs.length (runOps ops)) fun w' m' =>
      Agrees S Γ w' m' ∧ Pushed f.outputs.length rest m' ∧ m'.outputs = m.outputs := by
  have hpop : m.popMany (f.inputs.map (·.name)).length = .ok (args, { m with stack := rest }) := by
    rw [List.length_map, ← hl]
    exact popMany_append hs
  unfold Machine.callFunction
  rw [bind_of_ok hpop]
  have henv : EnvAgrees S.spelled (Widths.ofParams f.inputs)
      (Table.ofList ((f.inputs.map (·.name)).zip args)) := by
    refine envAgrees_params S.spelled ?_ fun p hp => ha _ (List.of_mem_zip hp).2
    rw [List.map_fst_zip]
    simp [hl]
  have hrun := h { m with
    stack := []
    env := Table.ofList ((f.inputs.map (·.name)).zip args)
    outputs := List.replicate f.outputs.length .empty } henv hm.groups List.length_replicate
  refine hrun.bind fun _ inner ⟨hgroups, hlen, hsingle⟩ => ?_
  let back : Machine := { inner with stack := rest, env := m.env, outputs := m.outputs }
  have hframe := pushOutputs_frame back inner.outputs
  refine .ok ⟨⟨hm.vars, ?_, ?_⟩, ?_, hframe.outputs⟩
  · change EnvAgrees S.spelled w (back.pushOutputs inner.outputs).env
    rw [hframe.env]
    exact hm.env
  · change GroupsRun S (back.pushOutputs inner.outputs).groups
    rw [hframe.groups]
    exact hgroups
  · rw [← hlen]
    exact pushOutputs_pushed (m := back) hsingle

/-- The node of a finished group is added without fail and is fed its arguments, which are single
values. Nothing but the tree changes. -/
theorem groupNode_runs (m : Machine) (name : String) {args : List Item}
    (ha : ∀ i ∈ args, i.Single) :
    ∃ m₁ m₂, (m.addNode m.tree.kind.groupKey).2.modifyNode m.tree.nextId
        (fun n => { n with group := some name }) = .ok m₁ ∧
      m₁.connectAll m.tree.nextId (args.mapIdx fun i item => (i, item)) = .ok m₂ ∧
      m₂.stack = m.stack ∧ Frame m m₂ := by
  have hid : m.tree.nextId < (m.tree.addNode m.tree.kind.groupKey).nodes.size := by
    simp [NodeTree.nextId]
  have hmodify := modifyNode_runs (m := (m.addNode m.tree.kind.groupKey).2) hid
    fun n => { n with group := some name }
  have hfeeds : ∀ feed ∈ args.mapIdx fun i item => (i, item), feed.2 = .empty ∨ feed.2.Single := by
    intro feed hfeed
    obtain ⟨k, hk, rfl⟩ := List.mem_mapIdx.1 hfeed
    exact .inr (ha _ (List.getElem_mem hk))
  obtain ⟨t, hconnect, -⟩ := connectAll_runs _ m.tree.nextId _
    (Nat.lt_of_lt_of_le hid (modifyNode_extends hmodify).nodes) hfeeds
  exact ⟨_, _, hmodify, hconnect, rfl, rfl, rfl, rfl⟩

/-- Building a group runs its body on a tree of its own and connects its outputs. It ends as the
widths of the body foretell, and behind it the group is among those that were built. -/
theorem buildGroup_ends {f : TypedFunction} {ops : List Op} {m : Machine}
    (hgroups : GroupsRun S m.groups) (hS : S.Runnable) (hf : S.known f) (h : BodyRuns S f ops) :
    Ends f.widths (m.buildGroup f.name f.inputs f.outputs (runOps ops)) fun _ m' =>
      ∃ groups, m' = { m with groups } ∧ GroupsRun S groups := by
  unfold buildGroup
  have henv : EnvAgrees S.spelled (Widths.ofParams f.inputs)
      (Table.ofList (f.inputs.mapIdx fun i p => (p.name, Item.socket ⟨0, i, p.type⟩))) := by
    refine envAgrees_params S.spelled ?_ fun p hp => ?_
    · apply List.ext_getElem <;> simp
    · obtain ⟨k, hk, rfl⟩ := List.mem_mapIdx.1 hp
      exact .socket _
  have hrun := h
    { tree := groupTree f.name m.tree.kind f.inputs f.outputs
      groups := m.groups
      env := Table.ofList (f.inputs.mapIdx fun i p => (p.name, Item.socket ⟨0, i, p.type⟩))
      outputs := List.replicate f.outputs.length .empty } henv hgroups List.length_replicate
  cases hw : f.widths with
  | none =>
    rw [hw] at hrun
    have hx : runOps ops _ = .error .bundleToSocket := hrun
    change (runOps ops _ >>= _) = _
    rw [hx]
    rfl
  | some wf =>
    rw [hw] at hrun
    obtain ⟨inner, hinner, hgroups', -, hsingle⟩ := hrun
    have hext := runOps_extends ops _ _ hinner
    have hsize : 2 ≤ inner.tree.nodes.size := by simpa [groupTree] using hext.nodes
    have hfeeds : ∀ feed ∈ inner.outputs.mapIdx fun i item => (i, item),
        feed.2 = .empty ∨ feed.2.Single := by
      intro feed hfeed
      obtain ⟨k, hk, rfl⟩ := List.mem_mapIdx.1 hfeed
      exact .inr (hsingle _ (List.getElem_mem hk))
    obtain ⟨t, hconnect, -⟩ := connectAll_runs inner 1 _ hsize hfeeds
    have hname : t.name = f.name := (connectAll_extends hconnect).name.trans hext.name
    refine ⟨{ m with groups := inner.groups ++ [t] }, ?_, inner.groups ++ [t], rfl, ?_⟩
    · exact (bind_of_ok hinner _).trans ((bind_of_ok hconnect _).trans rfl)
    · intro g hg f' hf' hn
      rcases List.mem_append.1 hg with hg | hg
      · exact hgroups' g hg f' hf' hn
      · cases List.mem_singleton.1 hg
        -- No other definition has the name of this group.
        rw [hS.unique f' f hf' hf (hn.trans hname), hw]
        rfl

/-- A call of a group ends as the widths of its body foretell. A group that was built before is not
built again, and then its body had widths. -/
theorem callGroup_ends {f : TypedFunction} {ops : List Op} {args rest : List Item} {w : Widths}
    {m : Machine} (hS : S.Runnable) (hf : S.known f) (hs : m.stack = args.reverse ++ rest)
    (hl : args.length = f.inputs.length) (ha : ∀ i ∈ args, i.Single) (hm : Agrees S Γ w m)
    (h : BodyRuns S f ops) :
    Ends (f.widths >>= fun _ => some w) (m.callGroup f.name f.inputs f.outputs (runOps ops))
      fun w' m' => Agrees S Γ w' m' ∧ Pushed f.outputs.length rest m' ∧ m'.outputs = m.outputs := by
  have hpop : m.popMany f.inputs.length = .ok (args, { m with stack := rest }) := by
    rw [← hl]
    exact popMany_append hs
  -- Once the group is there, its node is added without fail.
  have hplace : ∀ m₁ : Machine, Agrees S Γ w m₁ → ∃ m₂ m₃ m',
      (m₁.addNode m₁.tree.kind.groupKey).2.modifyNode m₁.tree.nextId
        (fun n => { n with group := some f.name }) = .ok m₂ ∧
      m₂.connectAll m₁.tree.nextId (args.mapIdx fun i item => (i, item)) = .ok m₃ ∧
      m' = { m₃.pushOutputs (f.outputs.mapIdx fun i p => .socket ⟨m₁.tree.nextId, i, p.type⟩) with
        newest := some m₁.tree.nextId } ∧
      Agrees S Γ w m' ∧ Pushed f.outputs.length m₁.stack m' ∧ m'.outputs = m₁.outputs := by
    intro m₁ hm₁
    obtain ⟨m₂, m₃, hmodify, hconnect, hstack, hframe⟩ := groupNode_runs m₁ f.name ha
    have hpf := pushOutputs_frame m₃
      (f.outputs.mapIdx fun i p => .socket ⟨m₁.tree.nextId, i, p.type⟩)
    have hitems : ∀ item ∈ f.outputs.mapIdx fun i p => Item.socket ⟨m₁.tree.nextId, i, p.type⟩,
        item.Single := by
      intro item hitem
      obtain ⟨k, hk, rfl⟩ := List.mem_mapIdx.1 hitem
      exact .socket _
    have hpushed := pushOutputs_pushed (m := m₃) hitems
    rw [List.length_mapIdx, hstack] at hpushed
    exact ⟨m₂, m₃, _, hmodify, hconnect, rfl,
      (hm₁.frame hframe).frame ⟨hpf.env, hpf.outputs, hpf.groups⟩, hpushed,
      hpf.outputs.trans hframe.outputs⟩
  have hm' : Agrees S Γ w { m with stack := rest } := hm.frame ⟨rfl, rfl, rfl⟩
  unfold callGroup
  rw [bind_of_ok hpop]
  simp only
  split
  next hany =>
    obtain ⟨g, hg, hname⟩ := List.any_eq_true.1 hany
    have hsome : f.widths.isSome := hm.groups g hg f hf (by simpa using Eq.symm (eq_of_beq hname))
    obtain ⟨wf, hwf⟩ := Option.isSome_iff_exists.1 hsome
    obtain ⟨m₂, m₃, m', hmodify, hconnect, rfl, hagrees, hpushed, houtputs⟩ := hplace _ hm'
    rw [hwf]
    refine ⟨_, ?_, hagrees, hpushed, houtputs⟩
    exact (bind_of_ok hmodify _).trans ((bind_of_ok hconnect _).trans rfl)
  next =>
    refine (buildGroup_ends (m := { m with stack := rest }) hm.groups hS hf h).bind
      fun _ m₁ ⟨groups, hm₁, hgroups⟩ => ?_
    subst hm₁
    obtain ⟨m₂, m₃, m', hmodify, hconnect, rfl, hagrees, hpushed, houtputs⟩ :=
      hplace { m with stack := rest, groups } ⟨hm.vars, hm.env, hgroups⟩
    refine ⟨_, ?_, hagrees, hpushed, houtputs⟩
    exact (bind_of_ok hmodify _).trans ((bind_of_ok hconnect _).trans rfl)

/-- The call of a definition whose body runs. The arguments are followed by the defaults of those
that were left out, and the definition is a function or a group. -/
theorem ExprRuns.call (hS : S.Runnable) {f : TypedFunction} {args : List TypedExpr} {t : Typing}
    {ops body : List Op} (hf : S.known f) (hl : args.length ≤ f.inputs.length)
    (hd : ∀ p ∈ f.inputs.drop args.length, ∃ v, p.default = some v)
    (ht : t.types = f.outputs.map (·.type)) (hargs : ArgsRun S Γ args Γ' ops)
    (hbody : BodyRuns S f body) :
    ExprRuns S Γ (.call f args t) Γ'
      (ops ++ (f.inputs.drop args.length).map (fun p => .pushValue p.default) ++
        [Lower.callOp f.kind f.name f.inputs f.outputs body]) := by
  have hdefaults : (f.inputs.drop args.length).map (fun p => Op.pushValue p.default) =
      ((f.inputs.drop args.length).map (·.default)).map .pushValue := by
    rw [List.map_map]
    rfl
  rw [hdefaults]
  refine ⟨fun seen => ?_, fun w m hm => ?_⟩
  · rw [boundNamesAll_append, boundNamesAll_append, hargs.bound, boundNamesAll_pushValues]
    unfold Lower.callOp
    cases f.kind <;> rfl
  · have hwidths : (TypedExpr.call f args t).widths w =
        TypedExpr.widthsAll w args >>= fun w' => f.widths >>= fun _ => some w' := by
      cases f
      rfl
    rw [hwidths, List.append_assoc, runOps_append]
    refine (hargs.runs w m hm).bind fun w' m₁ ⟨hm₁, ⟨items, hlen, hsingle, hstack⟩, houtputs⟩ => ?_
    let defaults := ((f.inputs.drop args.length).map (·.default)).map itemOf
    have hall : ∀ i ∈ items ++ defaults, i.Single := by
      intro i hi
      rcases List.mem_append.1 hi with hi | hi
      · exact hsingle i hi
      · simp only [defaults, List.map_map, List.mem_map, Function.comp_apply] at hi
        obtain ⟨p, hp, rfl⟩ := hi
        obtain ⟨v, hv⟩ := hd p hp
        rw [hv]
        exact .constant v
    have hcount : (items ++ defaults).length = f.inputs.length := by
      simp only [defaults, List.length_append, List.length_map, List.length_drop, hlen]
      omega
    let m₂ : Machine := { m₁ with stack := defaults.reverse ++ m₁.stack }
    have hstack₂ : m₂.stack = (items ++ defaults).reverse ++ m.stack := by simp [m₂, hstack]
    have hm₂ : Agrees S Γ' w' m₂ := hm₁.frame ⟨rfl, rfl, rfl⟩
    have hwidth : (TypedExpr.call f args t).types.length = f.outputs.length := by
      change t.types.length = _
      rw [ht, List.length_map]
    have hcall : Ends (f.widths >>= fun _ => some w')
        (runOp (Lower.callOp f.kind f.name f.inputs f.outputs body) m₂) fun w' m' =>
        Agrees S Γ' w' m' ∧ Pushed f.outputs.length m.stack m' ∧ m'.outputs = m₂.outputs := by
      unfold Lower.callOp
      cases f.kind with
      | function => exact callFunction_ends hstack₂ hcount hall hm₂ hbody
      | group => exact callGroup_ends hS hf hstack₂ hcount hall hm₂ hbody
    rw [hwidth, runOps_append, pushValues_run]
    refine hcall.step fun w'' m' ⟨hm', hpushed, houtputs'⟩ => ⟨m', rfl, hm', hpushed, ?_⟩
    exact houtputs'.trans houtputs

end NodeFormula

import NodeFormula.Proofs.Graph.Feeding

/-!
# Function calls keep to their frame

The body of a function runs in the tree of its caller, with a stack, variables and outputs of its own. So
a call depends on nothing of its caller but the tree, the groups, the newest node and the arguments, and
it leaves the rest as it was: `callFunction_isolated` says this of any two callers that agree on the
former.

A call is the body between `enterCall` and `leaveCall` (`callFunction_eq`), and callers that agree enter
it in one state. The body may do anything, but the number of outputs that it starts with stays
(`runOps_length_outputs`), which is the number of results that a caller gets.
-/

namespace NodeFormula.Machine

variable {m m' m₁ m₂ : Machine}

/-! ### The number of outputs -/

/-- A step that leaves the number of outputs of the running definition. -/
def KeepsOutputCount (body : Machine → Except RunError Machine) : Prop :=
  ∀ m m', body m = .ok m' → m'.outputs.length = m.outputs.length

@[simp] theorem pushOutputs_outputs (m : Machine) (items : List Item) :
    (m.pushOutputs items).outputs = m.outputs := by
  unfold pushOutputs
  split <;> rfl

theorem zone_length_outputs {ops : List Op} {body : Machine → Except RunError Machine}
    (hbody : KeepsOutputCount body) (h : m.zone ops body = .ok m') :
    m'.outputs.length = m.outputs.length := by
  obtain ⟨count, rest, currents, inner, finals, -, -, hinner, -, rfl⟩ := zone_ok h
  exact hbody (m.zoneStart (m.carried ops) count currents) inner hinner

mutual

/-- Each op keeps the number of outputs, by induction on the op and its body. A call has outputs of
its own and puts those of the caller back. -/
theorem runOp_length_outputs : (op : Op) → KeepsOutputCount (runOp op)
  | .pushValue (some _), _, _, h | .pushValue none, _, _, h | .destroyVar _, _, _, h
  | .endOfStatement, _, _, h => by
    cases h
    rfl
  | .createVar _, _, _, h => by rw [createVar_ok h]
  | .getVar _, _, _, h => by
    obtain ⟨item, -, h⟩ := run_bind_ok.1 h
    cases h
    rfl
  | .bindVar _, _, _, h | .pop, _, _, h => by
    obtain ⟨⟨item, m₁⟩, hpop, h⟩ := run_bind_ok.1 h
    obtain ⟨rest, -, rfl⟩ := pop_ok hpop
    cases h
    rfl
  | .getOutput _, _, _, h => by
    obtain ⟨_, _, _, -, -, rfl⟩ := getOutput_ok h
    rfl
  | .setOutput _ _, _, _, h | .renameNode _, _, _, h => by
    obtain ⟨id, rfl⟩ := modifyNewest_ok h
    rfl
  | .setFunctionOut _, _, _, h => by
    obtain ⟨_, _, -, rfl⟩ := setFunctionOut_ok h
    exact List.length_set
  | .splitStruct, _, _, h => by
    obtain ⟨_, _, -, rfl⟩ := splitBundle_ok h
    rfl
  | .callBuiltin _ _, _, _, h => by
    obtain ⟨_, _, -, -, -, rfl⟩ := callBuiltin_ok h
    rw [pushOutputs_outputs]
  | .callFunction _ _ _ _, _, _, h => by
    obtain ⟨_, _, _, -, -, -, rfl⟩ := callFunction_ok h
    rw [pushOutputs_outputs]
  | .callGroup _ _ _ _, _, _, h => by
    obtain ⟨_, _, _, -, -, -, rfl⟩ := callGroup_built h
    rw [pushOutputs_outputs]
  | .zone body, _, _, h => zone_length_outputs (runOps_length_outputs body) h

/-- A run sets outputs of the running definition, but neither adds nor removes one. -/
theorem runOps_length_outputs : (ops : List Op) → KeepsOutputCount (runOps ops)
  | [], _, _, h => by
    cases h
    rfl
  | op :: ops, m, m', h => by
    obtain ⟨m₁, h₁, h⟩ := run_bind_ok.1 h
    exact (runOps_length_outputs ops m₁ m' h).trans (runOp_length_outputs op m m₁ h₁)

end

/-! ### Entering and leaving a call -/

/-- The machine in which the body of a function starts: it goes on with the tree of the caller, and has
the arguments in its variables. -/
def enterCall (m : Machine) (inputs : List String) (outputs : Nat) : Machine :=
  { m with
    stack := []
    env := Table.ofList (inputs.zip (m.stack.take inputs.length).reverse)
    outputs := List.replicate outputs .empty }

/-- The machine after a call with `n` inputs whose body ended in `inner`: the caller, with the tree of
the body and its outputs in place of the arguments. -/
def leaveCall (m : Machine) (n : Nat) (inner : Machine) : Machine :=
  ({ inner with stack := m.stack.drop n, env := m.env, outputs := m.outputs } : Machine).pushOutputs
    inner.outputs

/-- A call of a function is its body between entering and leaving, if there are enough arguments. -/
theorem callFunction_eq (m : Machine) (inputs : List String) (outputs : Nat)
    (body : Machine → Except RunError Machine) :
    m.callFunction inputs outputs body =
      if m.stack.length < inputs.length then .error (.fewArguments inputs.length m.stack.length)
      else (body (m.enterCall inputs outputs)).map (m.leaveCall inputs.length) := by
  unfold callFunction popMany
  split
  next => rfl
  next =>
    change (body (m.enterCall inputs outputs) >>= fun inner => pure (m.leaveCall inputs.length inner)) = _
    cases body (m.enterCall inputs outputs) with
    | error e => rfl
    | ok inner => rfl

/-! ### Callers that agree -/

/-- Two callers agree on what a call with `n` inputs may use: the tree, the groups, the newest node and
the arguments. -/
structure AgreeFor (n : Nat) (m₁ m₂ : Machine) : Prop where
  tree : m₁.tree = m₂.tree
  groups : m₁.groups = m₂.groups
  newest : m₁.newest = m₂.newest
  args : m₁.stack.take n = m₂.stack.take n

/-- A call with `n` inputs has replaced them by its results, and left the variables and the outputs of
its caller. -/
structure ReturnsTo (m : Machine) (n : Nat) (results : List Item) (m' : Machine) : Prop where
  env : m'.env = m.env
  outputs : m'.outputs = m.outputs
  stack : m'.stack = (Item.ofOutputs results).toList ++ m.stack.drop n

theorem AgreeFor.enterCall {inputs : List String} (h : AgreeFor inputs.length m₁ m₂) (outputs : Nat) :
    m₁.enterCall inputs outputs = m₂.enterCall inputs outputs := by
  unfold Machine.enterCall
  rw [h.tree, h.groups, h.newest, h.args]

/-- If one caller has too few arguments, then both have the same stack. -/
theorem AgreeFor.stack_of_lt {n : Nat} (h : AgreeFor n m₁ m₂) (hlt : m₁.stack.length < n) :
    m₂.stack = m₁.stack := by
  have hargs := h.args
  have hlen := congrArg List.length hargs
  rw [List.length_take, List.length_take, Nat.min_eq_right (Nat.le_of_lt hlt)] at hlen
  rwa [List.take_of_length_le (Nat.le_of_lt hlt), List.take_of_length_le (by omega), eq_comm] at hargs

theorem AgreeFor.symm {n : Nat} (h : AgreeFor n m₁ m₂) : AgreeFor n m₂ m₁ :=
  ⟨h.tree.symm, h.groups.symm, h.newest.symm, h.args.symm⟩

theorem returnsTo_leaveCall (m : Machine) (n : Nat) (inner : Machine) :
    m.ReturnsTo n inner.outputs (m.leaveCall n inner) := by
  unfold leaveCall pushOutputs
  split
  next h => exact ⟨rfl, rfl, by rw [h]; rfl⟩
  next item h => exact ⟨rfl, rfl, by rw [h]; rfl⟩

@[simp] theorem leaveCall_tree (m : Machine) (n : Nat) (inner : Machine) :
    (m.leaveCall n inner).tree = inner.tree := pushOutputs_tree ..

@[simp] theorem leaveCall_groups (m : Machine) (n : Nat) (inner : Machine) :
    (m.leaveCall n inner).groups = inner.groups := pushOutputs_groups ..

@[simp] theorem leaveCall_newest (m : Machine) (n : Nat) (inner : Machine) :
    (m.leaveCall n inner).newest = inner.newest := by
  unfold leaveCall pushOutputs
  split <;> rfl

/-- A call of a function from two callers that agree on the tree, the groups, the newest node and the
arguments fails in both with one error, or succeeds in both with one tree, the same groups, the same
newest node and the same results, one for each output. The variables of each caller, the outputs of its
own definition and its stack below the arguments stay as they are. -/
theorem callFunction_isolated (name : String) (inputs : List String) (outputs : Nat) (body : List Op)
    (h : AgreeFor inputs.length m₁ m₂) :
    (∃ e, runOp (.callFunction name inputs outputs body) m₁ = .error e ∧
      runOp (.callFunction name inputs outputs body) m₂ = .error e) ∨
    ∃ r₁ r₂ results, runOp (.callFunction name inputs outputs body) m₁ = .ok r₁ ∧
      runOp (.callFunction name inputs outputs body) m₂ = .ok r₂ ∧
      r₁.tree = r₂.tree ∧ r₁.groups = r₂.groups ∧ r₁.newest = r₂.newest ∧
      results.length = outputs ∧
      m₁.ReturnsTo inputs.length results r₁ ∧ m₂.ReturnsTo inputs.length results r₂ := by
  simp only [runOp, callFunction_eq, ← h.enterCall outputs]
  by_cases hlt : m₁.stack.length < inputs.length
  · rw [h.stack_of_lt hlt, if_pos hlt, if_pos hlt]
    exact .inl ⟨_, rfl, rfl⟩
  · have hlt₂ : ¬ m₂.stack.length < inputs.length := fun hlt₂ =>
      hlt (by rwa [h.symm.stack_of_lt hlt₂])
    rw [if_neg hlt, if_neg hlt₂]
    cases hrun : runOps body (m₁.enterCall inputs outputs) with
    | error e => exact .inl ⟨e, rfl, rfl⟩
    | ok inner =>
      have hcount : inner.outputs.length = outputs :=
        (runOps_length_outputs body _ _ hrun).trans List.length_replicate
      refine .inr ⟨_, _, inner.outputs, rfl, rfl, ?_, ?_, ?_, hcount, returnsTo_leaveCall ..,
        returnsTo_leaveCall ..⟩ <;> simp

/-- A caller in an empty tree, with an argument and nothing else. -/
def bareCaller : Machine where
  tree := { name := "frame", kind := .geometry }
  stack := [.constant (.float 1.0)]

/-- A caller with the same tree and argument, in the middle of a definition that has variables of the
names which `framedBody` uses. -/
def busyCaller : Machine where
  tree := { name := "frame", kind := .geometry }
  stack := [.constant (.float 1.0), .bundle [], .empty]
  env := .ofList [("a", .bundle []), ("x", .constant (.int 7))]
  outputs := [.constant (.bool true)]

/-- The body of a function that calls another, carries its input through a zone, forgets a variable that
it does not have, and ends with its stack cleared. -/
def framedBody : List Op :=
  [.getVar "a", .callFunction "same" ["b"] 1 [.destroyVar "x", .getVar "b", .setFunctionOut 0],
    .bindVar "a", .pushValue (some (.int 2)),
    .zone [.getVar "a", .callBuiltin ⟨"ShaderNodeMath", [0], [0], []⟩ [.float], .bindVar "a"],
    .getVar "a", .setFunctionOut 0, .destroyVar "x", .endOfStatement]

/-- Two callers with different stacks and variables that agree on the argument, and what the same
call does in both. -/
theorem callFunction_isolated_framedBody : ∃ r₁ r₂ results,
    AgreeFor 1 bareCaller busyCaller ∧
    runOp (.callFunction "framed" ["a"] 1 framedBody) bareCaller = .ok r₁ ∧
    runOp (.callFunction "framed" ["a"] 1 framedBody) busyCaller = .ok r₂ ∧
    r₁.tree = r₂.tree ∧ r₁.groups = r₂.groups ∧ r₁.newest = r₂.newest ∧ results.length = 1 ∧
    bareCaller.ReturnsTo 1 results r₁ ∧ busyCaller.ReturnsTo 1 results r₂ := by
  have hagree : AgreeFor 1 bareCaller busyCaller := ⟨rfl, rfl, rfl, rfl⟩
  have hrun : (runOp (.callFunction "framed" ["a"] 1 framedBody) bareCaller).toBool = true := by
    decide +kernel
  rcases callFunction_isolated "framed" ["a"] 1 framedBody hagree with ⟨e, he, -⟩ | ⟨r₁, r₂, results, h⟩
  · rw [he] at hrun
    cases hrun
  · exact ⟨r₁, r₂, results, hagree, h⟩

end NodeFormula.Machine

import NodeFormula.Proofs.FreeVariables.Lowering
import NodeFormula.Proofs.Pipeline

/-!
# Nodes of free variables

A free variable of a formula gets a node of its own in the tree, a reroute that is labelled with the
variable's name. A run adds one such node for each variable that its ops create, in their order, and
none in a group (`Op.Lowered.creates_run`). No other op makes or labels one: the catalog has no
reroutes, and a label goes to a node of the catalog that has just been added.

With the order of accesses in lowered ops this gives the main result: each free variable of an accepted
formula is created once, outside all bodies and before it is used, and has one node
(`Compilation.freeVariables_created_once`).
-/

namespace NodeFormula

/-- The label of a reroute, and nothing for another node. -/
def Node.reroute? (n : Node) : Option (Option String) :=
  if n.key = "NodeReroute" then some n.label else none

theorem Node.reroute?_eq_none {n : Node} (h : n.key ≠ "NodeReroute") : n.reroute? = none := if_neg h

/-! ### Reroutes of a tree -/

namespace NodeTree

/-- The labels of the reroutes of a tree, in the order in which they were added. -/
def reroutes (t : NodeTree) : List (Option String) := t.nodes.toList.filterMap Node.reroute?

theorem reroutes_push (t : NodeTree) (n : Node) :
    (t.push n).reroutes = t.reroutes ++ n.reroute?.toList := by
  cases h : n.reroute? <;> simp [reroutes, push, h]

theorem reroutes_push_other (t : NodeTree) {n : Node} (h : n.key ≠ "NodeReroute") :
    (t.push n).reroutes = t.reroutes := by
  rw [reroutes_push, Node.reroute?_eq_none h]
  exact List.append_nil _

theorem reroutes_addZone (t : NodeTree) (items : List RepeatItem) :
    (t.addZone items).reroutes = t.reroutes :=
  (reroutes_push_other _ (by simp)).trans (reroutes_push_other _ (by simp))

@[simp] theorem reroutes_feedAll (t : NodeTree) (node : NodeId) (feeds : List (Nat × Item)) :
    (t.feedAll node feeds).reroutes = t.reroutes :=
  filterMap_feedAll (fun _ _ => rfl) t node feeds

theorem reroutes_groupTree (name : String) (kind : TreeKind) (inputs outputs : List TypedParam) :
    (Machine.groupTree name kind inputs outputs).reroutes = [] :=
  (reroutes_push_other _ (by simp)).trans (reroutes_push_other _ (by simp))

/-- Feeding leaves the kinds of nodes alone. -/
theorem key_feedAll (t : NodeTree) (node : NodeId) (feeds : List (Nat × Item)) (k : NodeId) :
    (t.feedAll node feeds).nodes[k]?.map (·.key) = t.nodes[k]?.map (·.key) := by
  have hkeys := filterMap_feedAll (g := fun n => some n.key) (fun _ _ => rfl) t node feeds
  rw [List.filterMap_eq_map'] at hkeys
  simpa using congrArg (·[k]?) hkeys

end NodeTree

theorem Layout.reroutes_tree (t : NodeTree) : (tree t).reroutes = t.reroutes :=
  filterMap_tree (fun _ _ _ => rfl) t

/-! ### Steps -/

namespace Machine

variable {m m' m₁ : Machine}

/-- A run adds reroutes for the given variables to its tree, and builds no group with a reroute. -/
structure Creates (names : List String) (m m' : Machine) : Prop where
  tree : m'.tree.reroutes = m.tree.reroutes ++ names.map some
  groups : ∀ t ∈ m'.groups, t ∈ m.groups ∨ t.reroutes = []

theorem Creates.of_eq (htree : m'.tree.reroutes = m.tree.reroutes) (hgroups : m'.groups = m.groups) :
    Creates [] m m' where
  tree := htree.trans (List.append_nil _).symm
  groups _ ht := .inl (hgroups ▸ ht)

/-- What two steps in a row create is what the first creates and then what the second does. -/
theorem Creates.trans {xs ys : List String} (h₁ : Creates xs m m₁) (h₂ : Creates ys m₁ m') :
    Creates (xs ++ ys) m m' where
  tree := by rw [h₂.tree, h₁.tree, List.map_append, List.append_assoc]
  groups t ht := (h₂.groups t ht).elim (h₁.groups t) .inr

/-- An op that does nothing with variables adds no reroute and labels none. -/
theorem creates_idle {op : Op} (hop : op.Idle) (h : runOp op m = .ok m') : Creates [] m m' := by
  cases op with
  | pushValue v => cases v <;> cases h <;> exact .of_eq rfl rfl
  | destroyVar | endOfStatement =>
    cases h
    exact .of_eq rfl rfl
  | getOutput =>
    obtain ⟨_, _, _, -, -, rfl⟩ := getOutput_ok h
    exact .of_eq rfl rfl
  | setFunctionOut =>
    obtain ⟨_, _, -, rfl⟩ := setFunctionOut_ok h
    exact .of_eq rfl rfl
  | splitStruct =>
    obtain ⟨_, _, -, rfl⟩ := splitBundle_ok h
    exact .of_eq rfl rfl
  | pop =>
    obtain ⟨_, _, -, rfl⟩ := runOp_pop_ok h
    exact .of_eq rfl rfl
  | createVar | getVar | bindVar | setOutput | callBuiltin | callFunction | callGroup | renameNode
  | zone => exact hop.elim

theorem creates_createVar {x : String} (h : m.createVar x = .ok m') : Creates [x] m m' := by
  obtain rfl := createVar_ok h
  exact ⟨NodeTree.reroutes_push _ _, fun _ => .inl⟩

/-- The newest node is no reroute. -/
def NewestOther (m : Machine) : Prop :=
  ∀ id, m.newest = some id → ∀ n, m.tree.nodes[id]? = some n → n.key ≠ "NodeReroute"

/-- Changing the newest node, which is no reroute, changes no reroutes. Its key stays, so it is no
reroute afterwards either. -/
theorem NewestOther.modify (hm : m.NewestOther) {f : Node → Node} (h : m.modifyNewest f = .ok m')
    (hf : ∀ n, (f n).key = n.key) : m'.NewestOther ∧ Creates [] m m' := by
  unfold modifyNewest at h
  split at h
  next id hid =>
    obtain rfl := modifyNode_ok h
    refine ⟨fun k hk n hn => ?_, .of_eq (NodeTree.filterMap_modifyNode _ _ fun n hn => ?_) rfl⟩
    · cases hid.symm.trans hk
      have hmap : (m.tree.nodes[id]?).map f = some n := by
        simpa [NodeTree.modifyNode, Array.getElem?_modify] using hn
      obtain ⟨n₀, hn₀, rfl⟩ := Option.map_eq_some_iff.1 hmap
      rw [hf]
      exact hm id hid n₀ hn₀
    · have hkey := hm id hid n hn
      rw [Node.reroute?_eq_none hkey, Node.reroute?_eq_none ((hf n).trans_ne hkey)]
  next => cases h

/-- Labels and output values behind a node of the catalog go to that node, so no reroute is labelled
anew. -/
theorem NewestOther.creates_marks {marks : List Op} (hm : m.NewestOther)
    (hmarks : ∀ op ∈ marks, Marks op) (h : runOps marks m = .ok m') : Creates [] m m' := by
  induction marks generalizing m with
  | nil =>
    cases h
    exact .of_eq rfl rfl
  | cons op marks ih =>
    obtain ⟨hop, hmarks⟩ := List.forall_mem_cons.1 hmarks
    obtain ⟨m₁, h₁, h⟩ := runOps_cons_ok.1 h
    have hfirst : m₁.NewestOther ∧ Creates [] m m₁ := by
      cases hop with
      | setOutput | renameNode => exact hm.modify h₁ fun _ => rfl
    exact hfirst.2.trans (ih hfirst.1 hmarks h)

/-- A call of a builtin adds a node of the catalog, which is no reroute, and it is the newest
then. -/
theorem creates_callBuiltin {node : NodeSpec} {types : List SocketType}
    (hkey : node.key ≠ "NodeReroute") (h : m.callBuiltin node types = .ok m') :
    m'.NewestOther ∧ Creates [] m m' := by
  obtain ⟨args, rest, -, -, -, rfl⟩ := callBuiltin_ok h
  refine ⟨fun id hid n hn => ?_, .of_eq ?_ (pushOutputs_groups _ _)⟩
  · cases hid
    have heq : some n.key = some node.key := by
      rw [pushOutputs_tree] at hn
      rw [← Option.map_some (f := Node.key), ← hn, NodeTree.key_feedAll]
      simp [NodeTree.push]
    rwa [Option.some.inj heq]
  · rw [pushOutputs_tree, NodeTree.reroutes_feedAll]
    exact NodeTree.reroutes_push_other _ hkey

/-- A call of a function creates what its body does, because the body builds into the tree of the
caller. -/
theorem creates_callFunction {inputs : List String} {outputs : Nat} {names : List String}
    {body : Machine → Except RunError Machine}
    (hbody : ∀ {m m'}, body m = .ok m' → Creates names m m')
    (h : m.callFunction inputs outputs body = .ok m') : Creates names m m' := by
  obtain ⟨args, rest, inner, -, -, hinner, rfl⟩ := callFunction_ok h
  have hcreates := hbody hinner
  refine ⟨?_, ?_⟩
  · rw [pushOutputs_tree]
    exact hcreates.tree
  · rw [pushOutputs_groups]
    exact hcreates.groups

/-- A group whose body creates nothing has no reroute, and neither has the caller's tree a new one. A
group that was built before is left as it is. -/
theorem creates_callGroup {name : String} {inputs outputs : List TypedParam}
    {body : Machine → Except RunError Machine}
    (hbody : ∀ {m m'}, body m = .ok m' → Creates [] m m')
    (h : m.callGroup name inputs outputs body = .ok m') : Creates [] m m' := by
  obtain ⟨args, rest, groups, -, -, hbuilt, rfl⟩ := callGroup_built h
  have hgroups : ∀ t ∈ groups, t ∈ m.groups ∨ t.reroutes = [] := by
    rcases hbuilt with ⟨rfl, -⟩ | hbuild
    · exact fun t ht => .inl ht
    · obtain ⟨inner, hinner, heq⟩ := buildGroup_ok hbuild
      have hcreates := hbody hinner
      cases heq
      intro t ht
      rcases List.mem_append.1 ht with ht | ht
      · exact hcreates.groups t ht
      · cases List.mem_singleton.1 ht
        right
        rw [NodeTree.reroutes_feedAll, hcreates.tree]
        exact congrArg (· ++ []) (NodeTree.reroutes_groupTree ..)
  have hkey : m.tree.kind.groupKey ≠ "NodeReroute" := by
    cases m.tree.kind <;> decide
  refine ⟨?_, ?_⟩
  · rw [pushOutputs_tree, NodeTree.reroutes_feedAll, NodeTree.reroutes_push_other _ hkey]
    exact (List.append_nil _).symm
  · rw [pushOutputs_groups]
    exact hgroups

/-- A repeat zone creates what its body does. Its own nodes are no reroutes. -/
theorem creates_zone {ops : List Op} {names : List String}
    {body : Machine → Except RunError Machine}
    (hbody : ∀ {m m'}, body m = .ok m' → Creates names m m')
    (h : m.zone ops body = .ok m') : Creates names m m' := by
  obtain ⟨count, rest, currents, inner, finals, -, -, hinner, -, rfl⟩ := zone_ok h
  have hcreates := hbody hinner
  refine ⟨?_, hcreates.groups⟩
  rw [zoneEnd, NodeTree.reroutes_feedAll, hcreates.tree, zoneStart, NodeTree.reroutes_feedAll,
    NodeTree.reroutes_addZone]

end Machine

/-! ### Runs -/

open Machine

/-- A run of lowered ops adds one reroute for each variable that they create, in this order, and no
other. The induction is on the form of lowered ops. -/
theorem Op.Lowered.creates_run {free : Bool} {as : List Access} {ops : List Op}
    (h : Lowered free as ops) {m m' : Machine} (hrun : runOps ops m = .ok m') :
    Creates (allCreations ops) m m' := by
  induction h generalizing m m' with
  | nil =>
    cases hrun
    exact .of_eq rfl rfl
  | append _ _ iha ihb =>
    obtain ⟨m₁, ha, hb⟩ := runOps_append_ok.1 hrun
    rw [allCreations_append]
    exact (iha ha).trans (ihb hb)
  | idle hop =>
    rw [allCreations, hop.accesses_creations_eq_nil.2]
    exact creates_idle hop (runOps_singleton_ok hrun)
  | read | readTemporary =>
    obtain ⟨i, -, rfl⟩ := getVar_ok (runOps_singleton_ok hrun)
    exact .of_eq rfl rfl
  | bind | bindTemporary =>
    obtain ⟨_, _, -, rfl⟩ := bindVar_ok (runOps_singleton_ok hrun)
    exact .of_eq rfl rfl
  | create => exact creates_createVar (runOps_singleton_ok hrun)
  | node hkey hmarks =>
    obtain ⟨m₁, hcall, hrun⟩ := runOps_cons_ok.1 hrun
    obtain ⟨hnewest, hcreates⟩ := creates_callBuiltin hkey hcall
    have hnone := Op.allCreations_eq_nil fun op hop => (accesses_creations_of_marks (hmarks op hop)).2
    rw [allCreations, hnone]
    exact hcreates.trans (hnewest.creates_marks hmarks hrun)
  | function _ ih =>
    rw [allCreations, allCreations, List.append_nil]
    exact creates_callFunction ih (runOps_singleton_ok hrun)
  | group h ih =>
    rw [h.allCreations_eq_nil] at ih
    rw [allCreations, allCreations, List.append_nil, Op.creations, h.allCreations_eq_nil]
    exact creates_callGroup ih (runOps_singleton_ok hrun)
  | zone _ ih =>
    rw [allCreations, allCreations, List.append_nil]
    exact creates_zone ih (runOps_singleton_ok hrun)

/-- In the graph of lowered ops the tree has a reroute for each variable that they create. -/
theorem Op.Lowered.reroutes_ofOps {free : Bool} {as : List Access} {ops : List Op}
    (h : Lowered free as ops) {kind : TreeKind} {name : String} {g : NodeGraph}
    (hg : NodeGraph.ofOps kind name ops = .ok g) :
    g.tree.reroutes = (allCreations ops).map some ∧ ∀ t ∈ g.groups, t.reroutes = [] := by
  obtain ⟨m, hrun, hg⟩ := run_bind_ok.1 hg
  cases hg
  have hcreates := h.creates_run hrun
  refine ⟨hcreates.tree, fun t ht => (hcreates.groups t ht).resolve_left List.not_mem_nil⟩

/-! ### Accepted formulas -/

namespace Compilation

variable {source : Source} {options : CompileOptions} {stmts : List TypedStmt}

/-- The ops of an accepted formula have the form of lowered ops, with accesses in order. -/
theorem lowered_of_check (h : check source options = .ok stmts) :
    ∃ as ops, lower options.tree stmts = .ok ops ∧ Op.Lowered true as ops ∧
      as.Pairwise Access.MayPrecede := by
  obtain ⟨s, p, s', -, -, hcheck⟩ := check_ok h
  obtain ⟨known, Γ', hS, htyped⟩ := typed_of_check h (.inl trivial)
  obtain ⟨ops, hops, -⟩ := htyped.lower_ends hS rfl options.treeName
  obtain ⟨n, hlower⟩ := Lower.stmts_of_lower hops
  exact ⟨_, ops, hops, BlockTyped.lowered stmts hS htyped hlower, Checker.check_accesses hcheck⟩

/-- Each free variable of an accepted formula is created once, and first. Its ops create variables
outside all bodies only, each at most once, and before the variable is read or bound in the scope of
the formula, which bodies of zones belong to. In the graph, if there is one, the tree has a reroute with
the name of each variable that is created and no other reroutes, and groups have none. -/
theorem freeVariables_created_once (h : check source options = .ok stmts) :
    ∃ ops, lower options.tree stmts = .ok ops ∧
      (∀ op ∈ ops, (∃ x, op = .createVar x) ∨ op.creations = []) ∧
      (Op.allCreations ops).Nodup ∧
      (∀ pre x post, ops = pre ++ .createVar x :: post → ∀ a ∈ Op.allAccesses pre, a.name ≠ x) ∧
      ∀ result, compile source options = .ok result → result.ops = ops ∧
        result.graph.tree.reroutes = (Op.allCreations ops).map some ∧
        result.graph.tree.reroutes.Nodup ∧ ∀ t ∈ result.graph.groups, t.reroutes = [] := by
  obtain ⟨as, ops, hops, hlowered, has⟩ := lowered_of_check h
  have hnodup := hlowered.nodup_allCreations has
  refine ⟨ops, hops, fun op hop => ?_, hnodup, fun pre x post => hlowered.unused_before_create has, ?_⟩
  · exact (hlowered.createsOutside op hop).imp_left fun ⟨_, x, _, heq⟩ => ⟨x, heq⟩
  intro result hresult
  obtain ⟨stmts', g, hcheck, hlower, hg, hgraph⟩ := compile_ok hresult
  cases h.symm.trans hcheck
  have heq : result.ops = ops := Except.ok.inj (hlower.symm.trans hops)
  rw [heq] at hg
  obtain ⟨htree, hgroups⟩ := hlowered.reroutes_ofOps hg
  have hreroutes : result.graph.tree.reroutes = (Op.allCreations ops).map some := by
    rw [hgraph, ← htree]
    exact Layout.reroutes_tree g.tree
  refine ⟨heq, hreroutes, ?_, fun t ht => ?_⟩
  · rw [hreroutes]
    exact List.Pairwise.map _ (fun _ _ hne heq => hne (Option.some.inj heq)) hnodup
  · rw [hgraph] at ht
    obtain ⟨u, hu, rfl⟩ := List.mem_map.1 ht
    rw [Layout.reroutes_tree]
    exact hgroups u hu

/-- Free variables that are used again in a zone and in a loop, and parameters with the names of free
variables. -/
def sharedInputs : Source where
  name := "formula"
  text := "ng twice(x: float) -> b: float \x7b b = x * 2; \x7d
    fn step(a: float) -> z: float \x7b z = a + 1; \x7d
    y = step(x) + twice(z); repeat 3 \x7b y = y + x; \x7d
    loop i = 0 -> 2 \x7b y = y + w * z; \x7d"

/-- Three free variables that are used several times, also in a zone and in a loop. Each is created
once and has one reroute, and the group has none. -/
theorem freeVariables_created_once_sharedInputs : ∃ stmts ops result,
    check sharedInputs { tree := .geometry } = .ok stmts ∧
    lower .geometry stmts = .ok ops ∧ Op.allCreations ops = ["x", "z", "w"] ∧
    compile sharedInputs { tree := .geometry } = .ok result ∧
    result.graph.tree.reroutes = [some "x", some "z", some "w"] ∧
    result.graph.groups.map (·.reroutes) = [[]] := by
  obtain ⟨stmts, result, hcheck, hcompile, hyields⟩ := exists_of_yields sharedInputs
    { tree := .geometry } (fun _ result => Op.allCreations result.ops = ["x", "z", "w"] ∧
      result.graph.groups.length = 1) (yields_of_chars (by rfl) (by decide +kernel))
  obtain ⟨hcreations, hlen⟩ := of_decide_eq_true hyields
  obtain ⟨ops, hops, -, -, -, hgraph⟩ := freeVariables_created_once hcheck
  obtain ⟨rfl, hreroutes, -, hgroups⟩ := hgraph result hcompile
  refine ⟨stmts, result.ops, result, hcheck, hops, hcreations, hcompile, ?_, ?_⟩
  · rw [hreroutes, hcreations]
    rfl
  · obtain ⟨t, ht⟩ := List.length_eq_one_iff.1 hlen
    rw [ht] at hgroups ⊢
    exact congrArg (fun r => [r]) (hgroups t (.head _))

end Compilation

end NodeFormula

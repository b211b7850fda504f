import NodeFormula.Proofs.Graph.Edit

/-!
# Soundness of built graphs

Every run of ops builds its tree by edits (`runOps_built`), well typed or not. So the trees of every
graph that is built are well formed (`ofOps_wellFormed`) and without cycles (`ofOps_acyclic`).

A node is fed only while no link leaves it. For the node of a call this is clear: it is new. The output
node of a zone and the output node of a group are fed after the body, and what has to be shown is that
the body cannot get at their sockets. A run only gets at sockets that it was given and at those of the
nodes that it adds (`runOps_keepsSources`).
-/

namespace NodeFormula

mutual

/-- No node of a built-in function, at any depth, lists an input socket twice. -/
def Op.DistinctInputs : Op → Prop
  | .callBuiltin node _ => node.inputs.Nodup
  | .callFunction _ _ _ body | .callGroup _ _ _ body | .zone body => AllDistinctInputs body
  | _ => True

@[inherit_doc Op.DistinctInputs]
def Op.AllDistinctInputs : List Op → Prop
  | [] => True
  | op :: ops => op.DistinctInputs ∧ AllDistinctInputs ops

end

namespace Machine

variable {m m' m₁ : Machine} {P : NodeId → Prop}

/-! ### Where sockets come from -/

/-- Every socket of a machine, and every socket that a link leaves, is one of a node that satisfies
`P`. -/
structure SocketsFrom (P : NodeId → Prop) (m : Machine) : Prop where
  stack : ∀ i ∈ m.stack, i.From P
  env : ∀ x i, m.env.get? x = some i → i.From P
  outputs : ∀ i ∈ m.outputs, i.From P
  links : ∀ l ∈ m.tree.links, P l.fromNode

namespace SocketsFrom

theorem imp {Q : NodeId → Prop} (hPQ : ∀ k, P k → Q k) (hm : m.SocketsFrom P) : m.SocketsFrom Q :=
  ⟨fun i hi => (hm.stack i hi).imp hPQ, fun x i hi => (hm.env x i hi).imp hPQ,
    fun i hi => (hm.outputs i hi).imp hPQ, fun l hl => hPQ _ (hm.links l hl)⟩

/-- A machine with one more item, whose sockets are allowed, gets at allowed sockets only. -/
theorem push (hm : m.SocketsFrom P) {i : Item} (hi : i.From P) : (m.push i).SocketsFrom P :=
  ⟨List.forall_mem_cons.2 ⟨hi, hm.stack⟩, hm.env, hm.outputs, hm.links⟩

theorem pushOutputs (hm : m.SocketsFrom P) {items : List Item} (hi : ∀ i ∈ items, i.From P) :
    (m.pushOutputs items).SocketsFrom P := by
  unfold Machine.pushOutputs
  match items, hi with
  | [], _ => exact hm
  | [i], hi => exact hm.push (hi i (.head _))
  | i :: j :: rest, hi => exact hm.push (.bundle hi)

/-- The newest node plays no part. -/
theorem withNewest (hm : m.SocketsFrom P) (id : Option NodeId) :
    { m with newest := id }.SocketsFrom P :=
  ⟨hm.stack, hm.env, hm.outputs, hm.links⟩

theorem withStack (hm : m.SocketsFrom P) {stack : List Item} (hs : ∀ i ∈ stack, i.From P) :
    { m with stack }.SocketsFrom P :=
  ⟨hs, hm.env, hm.outputs, hm.links⟩

end SocketsFrom

/-- Links that start at allowed nodes still do after feeding, if what is fed is allowed. -/
theorem links_feedAll {t : NodeTree} {node : NodeId} {feeds : List (Nat × Item)}
    (ht : ∀ l ∈ t.links, P l.fromNode) (hfeeds : ∀ feed ∈ feeds, feed.2.From P) :
    ∀ l ∈ (t.feedAll node feeds).links, P l.fromNode := by
  induction feeds generalizing t with
  | nil => exact ht
  | cons feed feeds ih =>
    refine ih (fun l hl => ?_) fun other hother => hfeeds other (.tail _ hother)
    rcases NodeTree.mem_links_feed hl with hl | ⟨s, hs, rfl⟩
    · exact ht l hl
    · have hfrom := hfeeds feed (.head _)
      rw [hs] at hfrom
      cases hfrom with | socket hnode => exact hnode

theorem from_of_get?_insert {env : Table String Item} {x : String} {i : Item}
    (henv : ∀ x i, env.get? x = some i → i.From P) (hi : i.From P) {y : String} {j : Item}
    (h : (env.insert x i).get? y = some j) : j.From P := by
  rw [Table.get?_insert] at h
  split at h
  · cases h
    exact hi
  · exact henv y j h

theorem from_of_get?_insertAll {env : Table String Item} {pairs : List (String × Item)}
    (henv : ∀ x i, env.get? x = some i → i.From P) (hpairs : ∀ p ∈ pairs, p.2.From P) {x : String}
    {i : Item} (h : (env.insertAll pairs).get? x = some i) : i.From P := by
  rw [Table.get?_insertAll] at h
  rcases Option.or_eq_some_iff.1 h with h | ⟨-, h⟩
  · obtain ⟨p, hfind, rfl⟩ := Option.map_eq_some_iff.1 h
    exact hpairs p (List.mem_reverse.1 (List.mem_of_find?_eq_some hfind))
  · exact henv x i h

theorem from_of_mem_itemSockets {node : NodeId} (hnode : P node) {index : Nat}
    {items : List RepeatItem} : ∀ p ∈ itemSockets node index items, p.2.From P := by
  intro p hp
  obtain ⟨q, -, rfl⟩ := List.mem_map.1 hp
  exact .socket hnode

theorem mem_numbered {index : Nat} {items : List Item} {feed : Nat × Item}
    (h : feed ∈ numbered index items) : feed.2 ∈ items := by
  obtain ⟨p, hp, rfl⟩ := List.mem_map.1 h
  exact List.fst_mem_of_mem_zipIdx hp

theorem mem_mapIdx_pair {items : List Item} {feed : Nat × Item}
    (h : feed ∈ items.mapIdx fun i item => (i, item)) : feed.2 ∈ items := by
  obtain ⟨k, hk, rfl⟩ := List.mem_mapIdx.1 h
  exact List.getElem_mem hk

theorem Holds.forall_mem {env : Table String Item} {items : List RepeatItem} {currents : List Item}
    (h : Holds env items currents) {Q : Item → Prop} (henv : ∀ x i, env.get? x = some i → Q i) :
    ∀ i ∈ currents, Q i := by
  induction h with
  | nil => exact List.forall_mem_nil _
  | cons hitem _ ih => exact List.forall_mem_cons.2 ⟨henv _ _ hitem, ih⟩

/-- A step that gets at no sockets but those that it was given and those of new nodes. -/
def KeepsSources (body : Machine → Except RunError Machine) : Prop :=
  ∀ m m', body m = .ok m' → ∀ P : NodeId → Prop, (∀ k, m.tree.nodes.size ≤ k → P k) →
    m.SocketsFrom P → m'.SocketsFrom P

/-- A call of a builtin gets at what it was given and at the outputs of its new node. -/
theorem SocketsFrom.callBuiltin (hm : m.SocketsFrom P) (hP : ∀ k, m.tree.nodes.size ≤ k → P k)
    {node : NodeSpec} {types : List SocketType} (h : m.callBuiltin node types = .ok m') :
    m'.SocketsFrom P := by
  obtain ⟨args, rest, hs, -, -, rfl⟩ := callBuiltin_ok h
  have hstack := hm.stack
  rw [hs] at hstack
  refine .withNewest (.pushOutputs ⟨?_, ?_, ?_, ?_⟩ ?_) _
  · exact fun i hi => hstack i (List.mem_append_right _ hi)
  · exact hm.env
  · exact hm.outputs
  · refine links_feedAll hm.links fun feed hfeed => hstack _ (List.mem_append_left _ ?_)
    exact List.mem_reverse.2 (List.of_mem_zip hfeed).2
  · intro item hitem
    obtain ⟨i, t, rfl⟩ := mem_nodeOutputs hitem
    exact .socket (hP _ (Nat.le_refl _))

theorem SocketsFrom.createVar (hm : m.SocketsFrom P) (hP : ∀ k, m.tree.nodes.size ≤ k → P k)
    {name : String} (h : m.createVar name = .ok m') : m'.SocketsFrom P := by
  obtain rfl := createVar_ok h
  refine ⟨hm.stack, fun x i hi => ?_, hm.outputs, hm.links⟩
  exact from_of_get?_insert hm.env (.socket (hP _ (Nat.le_refl _))) hi

/-- A call of a function gets at what it was given and at what its body adds. It is the arguments
that the body starts from. -/
theorem SocketsFrom.callFunction (hm : m.SocketsFrom P) (hP : ∀ k, m.tree.nodes.size ≤ k → P k)
    {inputs : List String} {outputs : Nat} {body : Machine → Except RunError Machine}
    (hbody : KeepsSources body) (h : m.callFunction inputs outputs body = .ok m') :
    m'.SocketsFrom P := by
  obtain ⟨args, rest, inner, hs, -, hinner, rfl⟩ := callFunction_ok h
  have hstack := hm.stack
  rw [hs] at hstack
  have hin : inner.SocketsFrom P := by
    refine hbody _ _ hinner P hP ⟨List.forall_mem_nil _, fun x i hi => ?_, fun i hi => ?_, hm.links⟩
    · refine from_of_get?_insertAll (by simp) (fun p hp => hstack _ (List.mem_append_left _ ?_)) hi
      exact List.mem_reverse.2 (List.of_mem_zip hp).2
    · rw [List.eq_of_mem_replicate hi]
      exact .empty
  refine .pushOutputs ⟨?_, ?_, ?_, ?_⟩ hin.outputs
  · exact fun i hi => hstack i (List.mem_append_right _ hi)
  · exact hm.env
  · exact hm.outputs
  · exact hin.links

/-- A call of a group gets at the outputs of its new node. The body is run in another tree and its
sockets are left behind there. -/
theorem SocketsFrom.callGroup (hm : m.SocketsFrom P) (hP : ∀ k, m.tree.nodes.size ≤ k → P k)
    {name : String} {inputs outputs : List TypedParam} {body : Machine → Except RunError Machine}
    (h : m.callGroup name inputs outputs body = .ok m') : m'.SocketsFrom P := by
  obtain ⟨args, rest, groups, hs, -, -, rfl⟩ := callGroup_built h
  have hstack := hm.stack
  rw [hs] at hstack
  refine .withNewest (.pushOutputs ⟨?_, ?_, ?_, ?_⟩ ?_) _
  · exact fun i hi => hstack i (List.mem_append_right _ hi)
  · exact hm.env
  · exact hm.outputs
  · refine links_feedAll hm.links fun feed hfeed => hstack _ (List.mem_append_left _ ?_)
    exact List.mem_reverse.2 (mem_mapIdx_pair hfeed)
  · intro item hitem
    obtain ⟨k, hk, rfl⟩ := List.mem_mapIdx.1 hitem
    exact .socket (hP _ (Nat.le_refl _))

/-- Where the body of a zone starts. -/
theorem SocketsFrom.zoneStart (hm : m.SocketsFrom P) (hfirst : P m.tree.nodes.size)
    {items : List RepeatItem} {count : Item} {currents : List Item} (hcount : count.From P)
    (hcurrents : ∀ i ∈ currents, i.From P) : (m.zoneStart items count currents).SocketsFrom P := by
  refine ⟨List.forall_mem_nil _, fun x i hi => ?_, hm.outputs, ?_⟩
  · exact from_of_get?_insertAll hm.env (from_of_mem_itemSockets hfirst) hi
  · refine links_feedAll hm.links fun feed hfeed => ?_
    exact List.forall_mem_cons.2 ⟨hcount, hcurrents⟩ _ (mem_numbered hfeed)

/-- A repeat zone gets at what its body gets at and at the sockets of its two nodes. In the body the
output node is out of reach, since its sockets are bound behind the body only. -/
theorem SocketsFrom.zone (hm : m.SocketsFrom P) (hP : ∀ k, m.tree.nodes.size ≤ k → P k)
    {ops : List Op} {body : Machine → Except RunError Machine} (hbody : KeepsSources body)
    (h : m.zone ops body = .ok m') : m'.SocketsFrom P := by
  obtain ⟨count, rest, currents, inner, finals, hs, hcurrents, hinner, hfinals, rfl⟩ := zone_ok h
  have hstack := hm.stack
  rw [hs] at hstack
  have hstart : (m.zoneStart (m.carried ops) count currents).SocketsFrom P :=
    hm.zoneStart (hP _ (Nat.le_refl _)) (hstack _ (.head _)) (hcurrents.forall_mem hm.env)
  have hin : inner.SocketsFrom P := by
    refine hbody _ _ hinner P (fun k hk => hP k ?_) hstart
    simp only [Machine.zoneStart, NodeTree.size_nodes_feedAll, NodeTree.size_nodes_addZone] at hk
    exact Nat.le_trans (Nat.le_add_right _ 2) hk
  refine ⟨fun i hi => hstack i (.tail _ hi), fun x i hi => ?_, hin.outputs, ?_⟩
  · exact from_of_get?_insertAll hin.env (from_of_mem_itemSockets (hP _ (Nat.le_succ _))) hi
  · exact links_feedAll hin.links fun feed hfeed =>
      hfinals.forall_mem hin.env _ (mem_numbered hfeed)

mutual

/-- An op gets at sockets that the run was given and at those of nodes that it adds, and at no
others. The induction is on the op and its body, where a body starts from sockets of this kind. -/
theorem runOp_keepsSources : (op : Op) → KeepsSources (runOp op)
  | .pushValue (some v), _, _, h, _, _, hm => by cases h; exact hm.push (.constant v)
  | .pushValue none, _, _, h, _, _, hm => by cases h; exact hm.push .empty
  | .createVar _, _, _, h, _, hP, hm => hm.createVar hP h
  | .getVar _, _, _, h, _, _, hm => by
    obtain ⟨item, hget, h⟩ := run_bind_ok.1 h
    cases h
    exact hm.push (hm.env _ _ (get_ok hget))
  | .bindVar x, _, _, h, _, _, hm => by
    obtain ⟨⟨item, m₁⟩, hpop, h⟩ := run_bind_ok.1 h
    obtain ⟨rest, hs, rfl⟩ := pop_ok hpop
    cases h
    have hstack := hm.stack
    rw [hs] at hstack
    refine ⟨fun i hi => hstack i (.tail _ hi), fun y i hi => ?_, hm.outputs, hm.links⟩
    exact from_of_get?_insert hm.env (hstack _ (.head _)) hi
  | .destroyVar x, m, _, h, _, _, hm => by
    cases h
    refine ⟨hm.stack, fun y i hi => hm.env y i ?_, hm.outputs, hm.links⟩
    change (m.env.erase x).get? y = some i at hi
    rw [Table.get?_erase] at hi
    split at hi
    · cases hi
    · exact hi
  | .getOutput _, _, _, h, _, _, hm => by
    obtain ⟨items, rest, part, hs, hp, rfl⟩ := getOutput_ok h
    have hstack := hm.stack
    rw [hs] at hstack
    cases hstack _ (.head _) with
    | bundle hitems =>
      exact hm.withStack (List.forall_mem_cons.2 ⟨hitems _ (List.mem_of_getElem? hp),
        fun i hi => hstack i (.tail _ hi)⟩)
  | .setOutput _ _, _, _, h, _, _, hm | .renameNode _, _, _, h, _, _, hm => by
    obtain ⟨id, rfl⟩ := modifyNewest_ok h
    exact ⟨hm.stack, hm.env, hm.outputs, hm.links⟩
  | .setFunctionOut _, _, _, h, _, _, hm => by
    obtain ⟨item, rest, hs, rfl⟩ := setFunctionOut_ok h
    have hstack := hm.stack
    rw [hs] at hstack
    refine ⟨fun i hi => hstack i (.tail _ hi), hm.env, fun i hi => ?_, hm.links⟩
    rcases List.mem_or_eq_of_mem_set hi with hi | rfl
    · exact hm.outputs i hi
    · exact hstack _ (.head _)
  | .splitStruct, _, _, h, _, _, hm => by
    obtain ⟨items, rest, hs, rfl⟩ := splitBundle_ok h
    have hstack := hm.stack
    rw [hs] at hstack
    cases hstack _ (.head _) with
    | bundle hitems =>
      refine hm.withStack fun i hi => ?_
      rcases List.mem_append.1 hi with hi | hi
      · exact hitems i (List.mem_reverse.1 hi)
      · exact hstack i (.tail _ hi)
  | .pop, _, _, h, _, _, hm => by
    obtain ⟨⟨item, m₁⟩, hpop, h⟩ := run_bind_ok.1 h
    obtain ⟨rest, hs, rfl⟩ := pop_ok hpop
    cases h
    have hstack := hm.stack
    rw [hs] at hstack
    exact hm.withStack fun i hi => hstack i (.tail _ hi)
  | .callBuiltin _ _, _, _, h, _, hP, hm => hm.callBuiltin hP h
  | .callFunction _ _ _ body, _, _, h, _, hP, hm =>
    hm.callFunction hP (runOps_keepsSources body) h
  | .callGroup _ _ _ _, _, _, h, _, hP, hm => hm.callGroup hP h
  | .zone body, _, _, h, _, hP, hm => hm.zone hP (runOps_keepsSources body) h
  | .endOfStatement, _, _, h, _, _, hm => by
    cases h
    exact hm.withStack (List.forall_mem_nil _)

/-- A run gets at no sockets but those that it was given and those of the nodes that it adds. -/
theorem runOps_keepsSources : (ops : List Op) → KeepsSources (runOps ops)
  | [], _, _, h, _, _, hm => by cases h; exact hm
  | op :: ops, m, m', h, P, hP, hm => by
    obtain ⟨m₁, h₁, h⟩ := run_bind_ok.1 h
    refine runOps_keepsSources ops m₁ m' h P (fun k hk => hP k ?_)
      (runOp_keepsSources op m m₁ h₁ P hP hm)
    exact Nat.le_trans (runOp_extends op m m₁ h₁).nodes hk

end

/-! ### Runs are edits -/

/-- The names of the groups that a machine has built. -/
abbrev groupNames (m : Machine) : List String := m.groups.map (·.name)

/-- What a run does: it builds the tree by edits of new nodes, and adds groups that are sound. -/
structure Built (strict : Prop) (m m' : Machine) : Prop where
  tree : NodeTree.Building strict m.tree.nodes.size m'.groupNames m.tree m'.tree
  names : m.groupNames ⊆ m'.groupNames
  groups : (∀ g ∈ m.groups, g.Sound strict m.groupNames) → ∀ g ∈ m'.groups, g.Sound strict m'.groupNames

variable {strict : Prop}

/-- A step that does what a run does, on machines in range. -/
def Builds (strict : Prop) (body : Machine → Except RunError Machine) : Prop :=
  ∀ m m', body m = .ok m' → m.InRange → Built strict m m'

/-- A step that leaves the groups alone. -/
theorem Built.of_tree
    (ht : NodeTree.Building strict m.tree.nodes.size m.groupNames m.tree m'.tree)
    (hg : m'.groups = m.groups) : Built strict m m' := by
  have hnames : m'.groupNames = m.groupNames := by rw [groupNames, hg]
  refine ⟨hnames ▸ ht, hnames ▸ List.Subset.refl _, ?_⟩
  rw [hg, hnames]
  exact id

/-- What is built by two runs in a row is built by the edits of the first and then by those of the
second, with no fewer groups finished. -/
theorem Built.trans (h₁ : Built strict m m₁) (h₂ : Built strict m₁ m') : Built strict m m' where
  tree := (h₁.tree.mono (Nat.le_refl _) h₂.names).trans
    (h₂.tree.mono h₁.tree.size_le (List.Subset.refl _))
  names := List.Subset.trans h₁.names h₂.names
  groups h := h₂.groups (h₁.groups h)

/-- A new node is fed with items from before it. This is one edit that adds the node and then one for
each item, and none of them closes a cycle. -/
theorem InRange.building_push (hm : m.InRange) {groups : List String} {n : Node}
    {feeds : List (Nat × Item)} (hid : n.id = m.tree.nodes.size) (hpair : n.pairedWith = none)
    (hgroup : ∀ g, n.group = some g → g ∈ groups) (hinputs : n.inputs = ∅)
    (hfeeds : ∀ feed ∈ feeds, feed.2.Below m.tree.nodes.size)
    (hnodup : strict → (feeds.map (·.1)).Nodup) :
    NodeTree.Building strict m.tree.nodes.size groups m.tree
      ((m.tree.push n).feedAll m.tree.nodes.size feeds) := by
  have hfresh : (m.tree.push n).Fresh m.tree.nodes.size := by
    refine .of_new hm.links rfl (Nat.le_refl _) fun n' hn' => ?_
    rw [NodeTree.getElem?_push, if_pos rfl] at hn'
    cases hn'
    exact hinputs
  refine .head (.add m.tree hid hpair hgroup) (hfresh.building (Nat.le_refl _) (by simp) ?_ hnodup)
  exact fun feed hfeed => (hfeeds feed hfeed).from_old (by simp) (Nat.le_refl _)

theorem nodup_numbers (items : List Item) :
    ((items.mapIdx fun i item => (i, item)).map (·.1)).Nodup := by
  have heq : (items.mapIdx fun i item => (i, item)).map (·.1) = List.range items.length := by
    apply List.ext_getElem <;> simp
  rw [heq]
  exact List.nodup_range

theorem InRange.stack_append (hm : m.InRange) {args rest : List Item}
    (hs : m.stack = args.reverse ++ rest) :
    (∀ i ∈ args, i.Below m.tree.nodes.size) ∧ ∀ i ∈ rest, i.Below m.tree.nodes.size := by
  have hstack := hm.stack
  rw [hs] at hstack
  exact ⟨fun i hi => hstack i (List.mem_append_left _ (List.mem_reverse.2 hi)),
    fun i hi => hstack i (List.mem_append_right _ hi)⟩

/-- A call of a builtin is built by edits: the new node is pushed and then fed, while no link leaves
it. If building is strict then its inputs have distinct numbers. -/
theorem Built.callBuiltin (hm : m.InRange) {node : NodeSpec} {types : List SocketType}
    (hnode : strict → node.inputs.Nodup) (h : m.callBuiltin node types = .ok m') :
    Built strict m m' := by
  obtain ⟨args, rest, hs, hlen, -, rfl⟩ := callBuiltin_ok h
  refine .of_tree ?_ (pushOutputs_groups ..)
  rw [pushOutputs_tree]
  refine hm.building_push rfl rfl (by simp) rfl ?_ fun hstrict => ?_
  · exact fun feed hfeed => (hm.stack_append hs).1 _ (List.of_mem_zip hfeed).2
  · rw [List.map_fst_zip (Nat.le_of_eq hlen.symm)]
    exact hnode hstrict

theorem Built.createVar {name : String} (h : m.createVar name = .ok m') :
    Built strict m m' := by
  obtain rfl := createVar_ok h
  exact .of_tree (.single (.add m.tree rfl rfl (by simp))) rfl

/-- A call of a function is built by the edits of its body, since the body builds into the tree of
the caller and the call itself adds no node. -/
theorem Built.callFunction (hm : m.InRange) {inputs : List String} {outputs : Nat}
    {body : Machine → Except RunError Machine} (hbody : Builds strict body)
    (h : m.callFunction inputs outputs body = .ok m') : Built strict m m' := by
  obtain ⟨args, rest, inner, hs, -, hinner, rfl⟩ := callFunction_ok h
  have hin := hbody _ _ hinner ⟨List.forall_mem_nil _, fun x i hi => ?_, fun i hi => ?_, hm.links,
    hm.groups⟩
  · refine ⟨?_, ?_, ?_⟩
    · rw [pushOutputs_tree, groupNames, pushOutputs_groups]
      exact hin.tree
    · rw [groupNames, groupNames, pushOutputs_groups]
      exact hin.names
    · rw [groupNames, groupNames, pushOutputs_groups]
      exact hin.groups
  · exact below_of_get?_ofList (fun p hp => (hm.stack_append hs).1 _ (List.of_mem_zip hp).2) hi
  · rw [List.eq_of_mem_replicate hi]
    exact .empty

theorem InRange.sources (hm : m.InRange) : m.SocketsFrom (· < m.tree.nodes.size) :=
  ⟨fun i hi => Item.from_iff_below.2 (hm.stack i hi),
    fun x i hi => Item.from_iff_below.2 (hm.env x i hi),
    fun i hi => Item.from_iff_below.2 (hm.outputs i hi), fun l hl => (hm.links l hl).1⟩

theorem InRange.of_sources (h : m.SocketsFrom (· < m.tree.nodes.size)) (hl : m.tree.LinksInRange)
    (hg : ∀ g ∈ m.groups, g.LinksInRange) : m.InRange :=
  ⟨fun i hi => Item.from_iff_below.1 (h.stack i hi),
    fun x i hi => Item.from_iff_below.1 (h.env x i hi),
    fun i hi => Item.from_iff_below.1 (h.outputs i hi), hl, hg⟩

/-- What the body of a zone starts from: the zone's input node is fed, its output node is not, and no
socket of the output node is in reach. -/
theorem InRange.zoneStart (hm : m.InRange) (strict : Prop) (groups : List String)
    {items : List RepeatItem} {count : Item} {currents : List Item}
    (hcount : count.Below m.tree.nodes.size)
    (hcurrents : ∀ i ∈ currents, i.Below m.tree.nodes.size) :
    (m.zoneStart items count currents).InRange ∧
      NodeTree.Building strict m.tree.nodes.size groups m.tree
        (m.zoneStart items count currents).tree ∧
      (m.zoneStart items count currents).tree.Fresh (m.tree.nodes.size + 1) ∧
      (m.zoneStart items count currents).SocketsFrom (· ≠ m.tree.nodes.size + 1) := by
  have hfeeds : ∀ feed ∈ numbered 0 (count :: currents), feed.2.Below m.tree.nodes.size :=
    fun feed hfeed => List.forall_mem_cons.2 ⟨hcount, hcurrents⟩ _ (mem_numbered hfeed)
  have hfirst : (m.tree.addZone items).Fresh m.tree.nodes.size := by
    refine .of_new hm.links rfl (Nat.le_refl _) fun n hn => ?_
    rw [NodeTree.getElem?_addZone, if_neg (Nat.ne_of_lt (Nat.lt_succ_self _)), if_pos rfl] at hn
    cases hn
    rfl
  have hlast : (m.tree.addZone items).Fresh (m.tree.nodes.size + 1) := by
    refine .of_new hm.links rfl (Nat.le_succ _) fun n hn => ?_
    rw [NodeTree.getElem?_addZone, if_pos rfl] at hn
    cases hn
    rfl
  have hbuild : NodeTree.Building strict m.tree.nodes.size groups m.tree
      (m.zoneStart items count currents).tree := by
    refine .head (.zone m.tree items) (hfirst.building (Nat.le_refl _) (by simp) ?_ fun _ => ?_)
    · exact fun feed hfeed => (hfeeds feed hfeed).from_old (by simp) (Nat.le_refl _)
    · exact nodup_numbered 0 (count :: currents)
  have hold : m.SocketsFrom fun k => k < m.tree.nodes.size + 2 ∧ k ≠ m.tree.nodes.size + 1 :=
    hm.sources.imp fun k hk =>
      ⟨Nat.lt_of_lt_of_le hk (Nat.le_add_right _ 2), Nat.ne_of_lt (Nat.lt_succ_of_lt hk)⟩
  have hsources : (m.zoneStart items count currents).SocketsFrom
      fun k => k < m.tree.nodes.size + 2 ∧ k ≠ m.tree.nodes.size + 1 :=
    hold.zoneStart ⟨Nat.lt_add_of_pos_right Nat.two_pos, Nat.ne_of_lt (Nat.lt_succ_self _)⟩
      (hcount.from_old (Nat.le_add_right _ 2) (Nat.le_succ _))
      fun i hi => (hcurrents i hi).from_old (Nat.le_add_right _ 2) (Nat.le_succ _)
  refine ⟨.of_sources (hsources.imp fun k hk => ?_) (hbuild.linksInRange hm.links) hm.groups, hbuild,
    hlast.feedAll (Nat.ne_of_lt (Nat.lt_succ_self _)) fun feed hfeed => ?_,
    hsources.imp fun k hk => hk.2⟩
  · rw [size_zoneStart]
    exact hk.1
  · exact ((hfeeds feed hfeed).from_old (Nat.le_refl _) (Nat.le_succ _)).imp fun k hk => hk.2

/-- A body leaves a node alone that it cannot get at. -/
theorem Built.fresh {body : Machine → Except RunError Machine} (hsources : KeepsSources body)
    {start inner : Machine} (hinner : body start = .ok inner) (h : Built strict start inner)
    {node : NodeId} (hnode : node < start.tree.nodes.size) (hfresh : start.tree.Fresh node)
    (hstart : start.SocketsFrom (· ≠ node)) :
    inner.tree.Fresh node ∧ inner.SocketsFrom (· ≠ node) := by
  have hinner := hsources _ _ hinner (· ≠ node)
    (fun k hk => Nat.ne_of_gt (Nat.lt_of_lt_of_le hnode hk)) hstart
  exact ⟨⟨hinner.links, fun input => h.tree.unfed hnode hnode (hfresh.unfed input)⟩, hinner⟩

/-- A repeat zone is built by edits: its nodes are added, the input node is fed, the body is built,
and then the output node is fed. Then still no link leaves the output node, because the body cannot
get at its sockets. -/
theorem Built.zone (hm : m.InRange) {ops : List Op} {body : Machine → Except RunError Machine}
    (hsources : KeepsSources body) (hrange : KeepsRange body) (hbody : Builds strict body)
    (h : m.zone ops body = .ok m') : Built strict m m' := by
  obtain ⟨count, rest, currents, inner, finals, hs, hcurrents, hinner, hfinals, rfl⟩ := zone_ok h
  have hstack := hm.stack
  rw [hs] at hstack
  obtain ⟨hstart, hbuild, hfresh, hreach⟩ := hm.zoneStart strict inner.groupNames
    (hstack _ (.head _)) (hcurrents.forall_mem hm.env)
  have hin := hbody _ _ hinner hstart
  have hlt : m.tree.nodes.size + 1 < inner.tree.nodes.size := by
    have hsize := hin.tree.size_le
    rw [size_zoneStart] at hsize
    exact hsize
  obtain ⟨hfresh, hreach⟩ := hin.fresh hsources hinner
    (by rw [size_zoneStart]; exact Nat.lt_succ_self _) hfresh hreach
  have hend : NodeTree.Building strict m.tree.nodes.size inner.groupNames inner.tree
      (inner.tree.feedAll (m.tree.nodes.size + 1) (numbered 0 finals)) := by
    refine hfresh.building (Nat.le_succ _) hlt (fun feed hfeed => ?_) fun _ => nodup_numbered 0 finals
    have hmem := mem_numbered hfeed
    exact (hfinals.forall_mem hreach.env _ hmem).and_below
      (hfinals.forall_mem (hrange _ _ hinner hstart).env _ hmem)
  refine ⟨?_, hin.names, hin.groups⟩
  refine hbuild.trans (.trans (hin.tree.mono ?_ (List.Subset.refl _)) hend)
  exact hbuild.size_le

/-- What the body of a group starts from: a tree of two nodes, of which only the first is in reach.
So no link of the body leaves the second, which is the node for the outputs. -/
theorem groupStart_reach (m : Machine) (hg : ∀ g ∈ m.groups, g.LinksInRange) (name : String)
    (inputs outputs : List TypedParam) :
    (m.groupStart name inputs outputs).InRange ∧
      (m.groupStart name inputs outputs).tree.Fresh 1 ∧
      (m.groupStart name inputs outputs).SocketsFrom (· ≠ 1) := by
  have hlinks : (m.groupStart name inputs outputs).tree.links = #[] := rfl
  have hsize : (m.groupStart name inputs outputs).tree.nodes.size = 2 := rfl
  have hsources : (m.groupStart name inputs outputs).SocketsFrom (· = 0) := by
    refine ⟨List.forall_mem_nil _, fun x i hi => ?_, fun i hi => ?_, by simp [hlinks]⟩
    · refine from_of_get?_insertAll (by simp) (fun p hp => ?_) hi
      obtain ⟨k, hk, rfl⟩ := List.mem_mapIdx.1 hp
      exact .socket rfl
    · rw [List.eq_of_mem_replicate hi]
      exact .empty
  have hfresh : (m.groupStart name inputs outputs).tree.Fresh 1 := by
    refine ⟨by simp [NodeTree.Sink, hlinks], fun input => ⟨by simp [hlinks], fun n hn => ?_⟩⟩
    cases hn
    rfl
  refine ⟨.of_sources (hsources.imp fun k hk => ?_) ?_ hg, hfresh, hsources.imp fun k hk => ?_⟩
  · rw [hk, hsize]
    exact Nat.two_pos
  · simp [NodeTree.LinksInRange, hlinks]
  · rw [hk]
    exact Nat.zero_ne_one

theorem sound_groupTree (name : String) (kind : TreeKind) (inputs outputs : List TypedParam)
    (groups : List String) : (groupTree name kind inputs outputs).Sound strict groups :=
  ((NodeTree.sound_of_empty rfl rfl).addNode _).addNode _

/-- A group that is built is sound, and stands beside those that its body builds. It is built by
edits from the tree of its two interface nodes, and the groups that it refers to are finished
before. -/
theorem sound_buildGroup (hg : ∀ g ∈ m.groups, g.LinksInRange) {name : String}
    {inputs outputs : List TypedParam} {body : Machine → Except RunError Machine}
    (hsources : KeepsSources body) (hrange : KeepsRange body) (hgrow : OnlyExtends body)
    (hbody : Builds strict body) (h : m.buildGroup name inputs outputs body = .ok m') :
    name ∈ m'.groupNames ∧ m.groupNames ⊆ m'.groupNames ∧
      ((∀ g ∈ m.groups, g.Sound strict m.groupNames) →
        ∀ g ∈ m'.groups, g.Sound strict m'.groupNames) := by
  obtain ⟨inner, hinner, rfl⟩ := buildGroup_ok h
  obtain ⟨hstart, hfresh, hreach⟩ := m.groupStart_reach hg name inputs outputs
  have hin := hbody _ _ hinner hstart
  obtain ⟨hfresh, hreach⟩ := hin.fresh hsources hinner Nat.one_lt_two hfresh hreach
  have hname : inner.tree.name = name := (hgrow _ _ hinner).name
  have hsub : inner.groupNames ⊆ inner.groupNames ++ [name] := List.subset_append_left ..
  have hnames : ((inner.groups ++ [inner.tree.feedAll 1
      (inner.outputs.mapIdx fun i item => (i, item))]).map (·.name)) = inner.groupNames ++ [name] := by
    simp [hname]
  have hsize : 1 < inner.tree.nodes.size := hin.tree.size_le
  simp only [groupNames, hnames]
  refine ⟨List.mem_append_right _ (List.mem_singleton_self _), List.Subset.trans hin.names hsub,
    fun hall g hmem => ?_⟩
  rcases List.mem_append.1 hmem with hmem | hmem
  · exact (hin.groups hall g hmem).mono hsub
  · cases List.mem_singleton.1 hmem
    have hbody := hin.tree.sound (sound_groupTree name m.tree.kind inputs outputs _)
    have hend : NodeTree.Building strict 0 (inner.groupNames ++ [name]) inner.tree
        (inner.tree.feedAll 1 (inner.outputs.mapIdx fun i item => (i, item))) := by
      refine hfresh.building (Nat.zero_le _) hsize (fun feed hfeed => ?_) fun _ =>
        nodup_numbers inner.outputs
      have hmem := mem_mapIdx_pair hfeed
      exact (hreach.outputs _ hmem).and_below ((hrange _ _ hinner hstart).outputs _ hmem)
    exact hend.sound (hbody.mono hsub)

/-- A call of a group is built by edits. At the first call the tree of the group is built and its
output node is fed, from which no link leaves, as the body cannot get at it. -/
theorem Built.callGroup (hm : m.InRange) {name : String} {inputs outputs : List TypedParam}
    {body : Machine → Except RunError Machine} (hsources : KeepsSources body)
    (hrange : KeepsRange body) (hgrow : OnlyExtends body) (hbody : Builds strict body)
    (h : m.callGroup name inputs outputs body = .ok m') : Built strict m m' := by
  obtain ⟨args, rest, groups, hs, -, hgroups, rfl⟩ := callGroup_built h
  have hbuilt : name ∈ groups.map (·.name) ∧ m.groupNames ⊆ groups.map (·.name) ∧
      ((∀ g ∈ m.groups, g.Sound strict m.groupNames) →
        ∀ g ∈ groups, g.Sound strict (groups.map (·.name))) := by
    rcases hgroups with ⟨rfl, hname⟩ | hbuild
    · exact ⟨hname, List.Subset.refl _, id⟩
    · have hold : ∀ g ∈ ({ m with stack := rest } : Machine).groups, g.LinksInRange := hm.groups
      exact sound_buildGroup hold hsources hrange hgrow hbody hbuild
  obtain ⟨hname, hsub, hsound⟩ := hbuilt
  refine ⟨?_, ?_, ?_⟩
  · rw [pushOutputs_tree, groupNames, pushOutputs_groups]
    refine hm.building_push rfl rfl (fun g hg => ?_) rfl (fun feed hfeed => ?_) fun _ =>
      nodup_numbers args
    · cases hg
      exact hname
    · exact (hm.stack_append hs).1 _ (mem_mapIdx_pair hfeed)
  · rw [groupNames, groupNames, pushOutputs_groups]
    exact hsub
  · rw [groupNames, groupNames, pushOutputs_groups]
    exact hsound

theorem Built.modifyNewest {f : Node → Node} (h : m.modifyNewest f = .ok m')
    (hrole : ∀ n, (f n).role = n.role) (hinputs : ∀ n, (f n).inputs = n.inputs) :
    Built strict m m' := by
  obtain ⟨id, rfl⟩ := modifyNewest_ok h
  exact .of_tree (.single (.change m.tree id hrole hinputs)) rfl

mutual

/-- Each op builds its tree by edits that keep it sound, by induction on the op and its body. A zone
is an edit that adds its two nodes, then those of its body, and then the links of the end. -/
theorem runOp_built : (op : Op) → (strict → op.DistinctInputs) → Builds strict (runOp op)
  | .pushValue (some _), _, m, _, h, _ | .pushValue none, _, m, _, h, _
  | .destroyVar _, _, m, _, h, _ | .endOfStatement, _, m, _, h, _ => by
    cases h
    exact .of_tree .refl rfl
  | .createVar _, _, _, _, h, _ => .createVar h
  | .getVar _, _, _, _, h, _ => by
    obtain ⟨item, -, h⟩ := run_bind_ok.1 h
    cases h
    exact .of_tree .refl rfl
  | .bindVar _, _, _, _, h, _ | .pop, _, _, _, h, _ => by
    obtain ⟨⟨item, m₁⟩, hpop, h⟩ := run_bind_ok.1 h
    obtain ⟨rest, -, rfl⟩ := pop_ok hpop
    cases h
    exact .of_tree .refl rfl
  | .getOutput _, _, _, _, h, _ => by
    obtain ⟨_, _, _, -, -, rfl⟩ := getOutput_ok h
    exact .of_tree .refl rfl
  | .setOutput _ _, _, _, _, h, _ => .modifyNewest h (fun _ => rfl) fun _ => rfl
  | .renameNode _, _, _, _, h, _ => .modifyNewest h (fun _ => rfl) fun _ => rfl
  | .setFunctionOut _, _, _, _, h, _ => by
    obtain ⟨_, _, -, rfl⟩ := setFunctionOut_ok h
    exact .of_tree .refl rfl
  | .splitStruct, _, _, _, h, _ => by
    obtain ⟨_, _, -, rfl⟩ := splitBundle_ok h
    exact .of_tree .refl rfl
  | .callBuiltin _ _, hd, _, _, h, hm => .callBuiltin hm hd h
  | .callFunction _ _ _ body, hd, _, _, h, hm => .callFunction hm (runOps_built body hd) h
  | .callGroup _ _ _ body, hd, _, _, h, hm =>
    .callGroup hm (runOps_keepsSources body) (runOps_inRange body) (runOps_extends body)
      (runOps_built body hd) h
  | .zone body, hd, _, _, h, hm =>
    .zone hm (runOps_keepsSources body) (runOps_inRange body) (runOps_built body hd) h

/-- Every run builds its tree by edits of the nodes that it adds. -/
theorem runOps_built : (ops : List Op) → (strict → Op.AllDistinctInputs ops) →
    Builds strict (runOps ops)
  | [], _, _, _, h, _ => by
    cases h
    exact .of_tree .refl rfl
  | op :: ops, hd, m, m', h, hm => by
    obtain ⟨m₁, h₁, h⟩ := run_bind_ok.1 h
    exact (runOp_built op (fun hs => (hd hs).1) m m₁ h₁ hm).trans
      (runOps_built ops (fun hs => (hd hs).2) m₁ m' h (runOp_inRange op m m₁ h₁ hm))

end

end Machine

/-! ### Built graphs -/

variable {kind : TreeKind} {name : String} {ops : List Op} {g : NodeGraph} {strict : Prop}

theorem sound_of_ofOps (hd : strict → Op.AllDistinctInputs ops)
    (h : NodeGraph.ofOps kind name ops = .ok g) :
    ∀ t ∈ g.trees, t.Sound strict (g.groups.map (·.name)) := by
  obtain ⟨m, hm, h⟩ := Machine.run_bind_ok.1 h
  cases h
  have hbuilt := Machine.runOps_built ops hd _ m hm (Machine.inRange_start name kind)
  refine List.forall_mem_cons.2 ⟨hbuilt.tree.sound (NodeTree.sound_of_empty rfl rfl), ?_⟩
  exact hbuilt.groups (List.forall_mem_nil _)

/-- Every tree that is built is well formed: nodes are numbered by position, links join nodes of the
tree and no two of them enter one socket, zones are pairs of nodes with the same items, and group nodes
stand for trees of the graph. If no node lists an input socket twice, no socket has both a link and a
value. -/
theorem ofOps_wellFormed (h : NodeGraph.ofOps kind name ops = .ok g) :
    (∀ t ∈ g.trees, t.WellFormed (g.groups.map (·.name))) ∧
      (Op.AllDistinctInputs ops → ∀ t ∈ g.trees, t.FedOnce) :=
  ⟨fun t ht => (sound_of_ofOps False.elim h t ht).wellFormed,
    fun hd t ht => (sound_of_ofOps (fun _ => hd) h t ht).fedOnce trivial⟩

/-- A zone in a zone, which carry a variable through a call of a group and of a function. -/
def carryingOps : List Op :=
  [.createVar "x", .pushValue (some (.int 3)),
    .zone [.getVar "x", .callGroup "same" [⟨"a", .float, none⟩] [⟨"b", .float, none⟩]
        [.getVar "a", .setFunctionOut 0], .bindVar "x", .pushValue (some (.int 2)),
      .zone [.getVar "x", .callFunction "negative" ["a"] 1 [.getVar "a", .pushValue (some (.int 1)),
        .callBuiltin ⟨"ShaderNodeMath", [0, 1], [0], []⟩ [.float], .setFunctionOut 0], .bindVar "x"]]]

/-- Ops with a zone that carries a variable, and that the trees of their graph are well formed with
each input fed once. -/
theorem carryingOps_wellFormed : ∃ g, NodeGraph.ofOps .geometry "zones" carryingOps = .ok g ∧
    (∀ t ∈ g.trees, t.WellFormed (g.groups.map (·.name))) ∧ ∀ t ∈ g.trees, t.FedOnce := by
  have hrun : (NodeGraph.ofOps .geometry "zones" carryingOps).toBool = true := by decide +kernel
  cases h : NodeGraph.ofOps .geometry "zones" carryingOps with
  | error e =>
    rw [h] at hrun
    cases hrun
  | ok g =>
    obtain ⟨hformed, honce⟩ := ofOps_wellFormed h
    exact ⟨g, rfl, hformed, honce (by simp [carryingOps, Op.AllDistinctInputs, Op.DistinctInputs])⟩

/-- No path of links in a tree that is built leads back to where it starts, in the tree of the ops
and in those of the groups. Each edit feeds only a node that no link leaves, and no edit feeds one
from itself. -/
theorem ofOps_acyclic (h : NodeGraph.ofOps kind name ops = .ok g) : ∀ t ∈ g.trees, t.Acyclic :=
  fun t ht => (sound_of_ofOps False.elim h t ht).acyclic

/-- Ops with a zone that carries a variable, and that the trees of their graph have no cycle. The way
from the end of a zone's body back to its start is no link. -/
theorem carryingOps_acyclic : ∃ g, NodeGraph.ofOps .geometry "zones" carryingOps = .ok g ∧
    ∀ t ∈ g.trees, t.Acyclic := by
  have hrun : (NodeGraph.ofOps .geometry "zones" carryingOps).toBool = true := by decide +kernel
  cases h : NodeGraph.ofOps .geometry "zones" carryingOps with
  | error e =>
    rw [h] at hrun
    cases hrun
  | ok g => exact ⟨g, rfl, ofOps_acyclic h⟩

end NodeFormula

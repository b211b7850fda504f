import NodeFormula.Proofs.Graph.Edit

/-!
# Runs only append

A run adds nodes, links and finished groups behind those that are there. Of the nodes that were there
when it started it changes at most the label and the output values, and these only of the node that was
the newest (`runOps_grows`). A step feeds nodes of its own only, so it takes no link from a node that was
there.

`NodeTree.Grows` says this of trees and `Machine.Grows` of machines. The steps that add nodes leave every
older node as it is; for them the lemmas hold whatever node may be marked.
-/

namespace NodeFormula

namespace NodeTree

/-- Every link enters a node of the tree. -/
def LinksEnter (t : NodeTree) : Prop := ∀ l ∈ t.links, l.toNode < t.nodes.size

/-- A tree that starts with the nodes and the links of another. Only the node `marked` may have got
another label or other output values, and only links that enter none of the nodes may be gone. -/
structure Grows (marked : Option NodeId) (t t' : NodeTree) : Prop where
  nodes : ∀ (i : NodeId) (n : Node), t.nodes[i]? = some n → ∃ n' : Node, t'.nodes[i]? = some n' ∧
    n' = { n with label := n'.label, outputs := n'.outputs } ∧ (marked ≠ some i → n' = n)
  links : ∃ kept : Link → Bool, (∀ l, l.toNode < t.nodes.size → kept l = true) ∧
    t.links.toList.filter kept <+: t'.links.toList

/-- In a tree with links in range every link enters a node that exists. -/
theorem LinksInRange.enter {t : NodeTree} (h : t.LinksInRange) : t.LinksEnter :=
  fun l hl => (h l hl).2

namespace Grows

variable {marked marked' : Option NodeId} {t t' t₁ : NodeTree}

/-- A tree grows into itself, whatever node is marked. -/
theorem refl (t : NodeTree) : t.Grows marked t := by
  refine ⟨fun _ n hn => ⟨n, hn, rfl, fun _ => rfl⟩, fun _ => true, fun _ _ => rfl, [], ?_⟩
  rw [List.filter_true, List.append_nil]

/-- Links that enter nodes are the first ones later. -/
theorem links_prefix (h : t.Grows marked t') (ht : t.LinksEnter) :
    t.links.toList <+: t'.links.toList := by
  obtain ⟨kept, hkept, hlinks⟩ := h.links
  have hall : t.links.toList.filter kept = t.links.toList :=
    List.filter_eq_self.2 fun l hl => hkept l (ht l (Array.mem_toList_iff.1 hl))
  rwa [hall] at hlinks

theorem mem_links (h : t.Grows marked t') {l : Link} (hl : l ∈ t.links)
    (hlt : l.toNode < t.nodes.size) : l ∈ t'.links := by
  obtain ⟨kept, hkept, hlinks⟩ := h.links
  have hmem : l ∈ t.links.toList.filter kept :=
    List.mem_filter.2 ⟨Array.mem_toList_iff.2 hl, hkept l hlt⟩
  exact Array.mem_toList_iff.1 (hlinks.mem hmem)

theorem size_le (h : t.Grows marked t') : t.nodes.size ≤ t'.nodes.size := by
  by_contra hlt
  have hnode := Array.getElem?_eq_getElem (Nat.lt_of_not_le hlt)
  obtain ⟨n', hn', -⟩ := h.nodes _ _ hnode
  exact absurd (lt_size_of_getElem? hn') (Nat.lt_irrefl _)

/-- Growth in two steps, where the second marks no other of the first nodes. -/
theorem trans (h₁ : t.Grows marked t₁) (h₂ : t₁.Grows marked' t')
    (hmarked : ∀ i < t.nodes.size, marked' = some i → marked = some i) : t.Grows marked t' := by
  refine ⟨fun i n hn => ?_, ?_⟩
  · obtain ⟨n₁, hn₁, heq₁, hsame₁⟩ := h₁.nodes i n hn
    obtain ⟨n', hn', heq, hsame⟩ := h₂.nodes i n₁ hn₁
    refine ⟨n', hn', ?_, fun hne => ?_⟩
    · rw [heq, heq₁]
    · have hne' : marked' ≠ some i := fun h => hne (hmarked i (lt_size_of_getElem? hn) h)
      rw [hsame hne', hsame₁ hne]
  · obtain ⟨kept₁, hkept₁, hlinks₁⟩ := h₁.links
    obtain ⟨kept₂, hkept₂, hlinks₂⟩ := h₂.links
    refine ⟨fun l => kept₂ l && kept₁ l, fun l hl => ?_, ?_⟩
    · exact Bool.and_eq_true_iff.2 ⟨hkept₂ l (Nat.lt_of_lt_of_le hl h₁.size_le), hkept₁ l hl⟩
    · rw [← List.filter_filter]
      exact (hlinks₁.filter kept₂).trans hlinks₂

/-! ### Edits behind the nodes of the start -/

/-- A new node behind the nodes of the start keeps a tree grown. -/
theorem push (h : t.Grows marked t') (n : Node) : t.Grows marked (t'.push n) := by
  refine ⟨fun i k hk => ?_, h.links⟩
  obtain ⟨n', hn', hrest⟩ := h.nodes i k hk
  exact ⟨n', (getElem?_push_of_lt (lt_size_of_getElem? hn')).trans hn', hrest⟩

theorem addZone (h : t.Grows marked t') (items : List RepeatItem) :
    t.Grows marked (t'.addZone items) :=
  (h.push _).push _

/-- A node that was not there at the start may be fed. The link that is taken away and the one that
is added enter this node, and so none of the start's nodes. -/
theorem feed (h : t.Grows marked t') {node : NodeId} (hnew : t.nodes.size ≤ node) (input : Nat)
    (i : Item) : t.Grows marked (t'.feed node input i) := by
  cases i with
  | empty | bundle => exact h
  | constant v =>
    refine ⟨fun k n hn => ?_, h.links⟩
    obtain ⟨n', hn', hrest⟩ := h.nodes k n hn
    have hne : node ≠ k := Nat.ne_of_gt (Nat.lt_of_lt_of_le (lt_size_of_getElem? hn) hnew)
    refine ⟨n', ?_, hrest⟩
    simp only [NodeTree.feed, modifyNode, Array.getElem?_modify, if_neg hne]
    exact hn'
  | socket s =>
    refine ⟨h.nodes, ?_⟩
    obtain ⟨kept, hkept, hlinks⟩ := h.links
    refine ⟨fun l => !l.enters node input && kept l, fun l hl => ?_, ?_⟩
    · -- The link that the socket may have had enters a newer node.
      have hne : l.toNode ≠ node := Nat.ne_of_lt (Nat.lt_of_lt_of_le hl hnew)
      simp [Link.enters, hne, hkept l hl]
    · rw [← List.filter_filter]
      simp only [NodeTree.feed, link, Array.toList_push, Array.toList_filter]
      exact (hlinks.filter _).trans (List.prefix_append ..)

theorem feedAll (h : t.Grows marked t') {node : NodeId} (hnew : t.nodes.size ≤ node)
    (feeds : List (Nat × Item)) : t.Grows marked (t'.feedAll node feeds) := by
  induction feeds generalizing t' with
  | nil => exact h
  | cons feed feeds ih => exact ih (h.feed hnew feed.1 feed.2)

/-- A node may get another label or other output values if it is new or the marked one. -/
theorem mark (h : t.Grows marked t') {id : NodeId} {f : Node → Node}
    (hf : ∀ n, f n = { n with label := (f n).label, outputs := (f n).outputs })
    (hid : id < t.nodes.size → marked = some id) : t.Grows marked (t'.modifyNode id f) := by
  refine ⟨fun i n hn => ?_, h.links⟩
  obtain ⟨n', hn', heq, hsame⟩ := h.nodes i n hn
  simp only [modifyNode, Array.getElem?_modify, hn']
  by_cases hi : id = i
  · refine ⟨f n', if_pos hi, ?_, fun hne => ?_⟩
    · rw [hf n', heq]
    · subst hi
      exact absurd (hid (lt_size_of_getElem? hn)) hne
  · exact ⟨n', if_neg hi, heq, hsame⟩

end Grows

end NodeTree

namespace Machine

variable {m m' m₁ : Machine} {marked : Option NodeId}

/-- A machine whose tree and finished groups start with those of another. -/
structure Appends (marked : Option NodeId) (m m' : Machine) : Prop where
  tree : m.tree.Grows marked m'.tree
  groups : m.groups <+: m'.groups

/-- What a run does to the nodes, links and groups it starts with. The node that may be marked is the
newest one, and an older node never becomes the newest again. -/
structure Grows (m m' : Machine) : Prop extends Appends m.newest m m' where
  newest : ∀ i < m.tree.nodes.size, m'.newest = some i → m.newest = some i

/-- A step that leaves the tree and the groups. -/
theorem Appends.of_eq (htree : m'.tree = m.tree) (hgroups : m'.groups = m.groups) :
    Appends marked m m' := by
  refine ⟨?_, [], by rw [hgroups, List.append_nil]⟩
  rw [htree]
  exact .refl _

/-- Appending composes, if no old node may be changed on either stretch. -/
theorem Appends.trans (h₁ : Appends none m m₁) (h₂ : Appends none m₁ m') : Appends none m m' :=
  ⟨h₁.tree.trans h₂.tree (by simp), h₁.groups.trans h₂.groups⟩

theorem Appends.pushOutputs (h : Appends marked m m') (items : List Item) :
    Appends marked m (m'.pushOutputs items) := by
  refine ⟨?_, ?_⟩
  · rw [pushOutputs_tree]
    exact h.tree
  · rw [pushOutputs_groups]
    exact h.groups

namespace Grows

/-- A step that leaves the tree, the groups and the newest node. -/
theorem of_eq (htree : m'.tree = m.tree) (hgroups : m'.groups = m.groups)
    (hnewest : m'.newest = m.newest) : m.Grows m' :=
  ⟨.of_eq htree hgroups, fun _ _ h => hnewest ▸ h⟩

/-- Growth of machines composes. The second run may mark the newest node of its own start, which is
either new or the one that the first run may mark. -/
theorem trans (h₁ : m.Grows m₁) (h₂ : m₁.Grows m') : m.Grows m' :=
  ⟨⟨h₁.tree.trans h₂.tree h₁.newest, h₁.groups.trans h₂.groups⟩, fun i hi h =>
    h₁.newest i hi (h₂.newest i (Nat.lt_of_lt_of_le hi h₁.tree.size_le) h)⟩

/-- A step that makes a node it adds the newest. -/
theorem of_new {id : NodeId} (h : Appends m.newest m m') (hid : m.tree.nodes.size ≤ id)
    (hnewest : m'.newest = some id) : m.Grows m' := by
  refine ⟨h, fun i hi hi' => ?_⟩
  rw [hnewest] at hi'
  cases hi'
  exact absurd hi (Nat.not_lt_of_le hid)

end Grows

/-! ### Single steps -/

/-- A call of a builtin only appends: the node that is fed is new. -/
theorem Appends.callBuiltin {node : NodeSpec} {types : List SocketType}
    (h : m.callBuiltin node types = .ok m') : Appends marked m m' := by
  obtain ⟨args, rest, -, -, -, rfl⟩ := callBuiltin_ok h
  have htree : m.tree.Grows marked (m.tree.push {
      id := m.tree.nodes.size
      key := node.key
      props := Table.insertAll ∅ node.props }) := (NodeTree.Grows.refl m.tree).push _
  refine ⟨?_, [], by rw [pushOutputs_groups, List.append_nil]⟩
  rw [pushOutputs_tree]
  exact htree.feedAll (Nat.le_refl _) _

theorem Appends.createVar {x : String} (h : m.createVar x = .ok m') : Appends marked m m' := by
  obtain rfl := createVar_ok h
  exact ⟨(NodeTree.Grows.refl m.tree).push _, List.prefix_rfl⟩

/-- A step that only adds groups behind those that are finished. -/
def AppendsGroups (body : Machine → Except RunError Machine) : Prop :=
  ∀ m m', body m = .ok m' → m.groups <+: m'.groups

theorem AppendsGroups.buildGroup {name : String} {inputs outputs : List TypedParam}
    {body : Machine → Except RunError Machine} (hbody : AppendsGroups body)
    (h : m.buildGroup name inputs outputs body = .ok m') : m.groups <+: m'.groups := by
  obtain ⟨inner, hinner, rfl⟩ := buildGroup_ok h
  exact (hbody (m.groupStart name inputs outputs) inner hinner).trans (List.prefix_append ..)

/-- A call of a group only appends, to the tree a node and to the finished groups those that are
built for it. -/
theorem Appends.callGroup {name : String} {inputs outputs : List TypedParam}
    {body : Machine → Except RunError Machine} (hbody : AppendsGroups body)
    (h : m.callGroup name inputs outputs body = .ok m') : Appends marked m m' := by
  obtain ⟨args, rest, groups, -, -, hbuilt, rfl⟩ := callGroup_built h
  have htree : m.tree.Grows marked (m.tree.push {
      id := m.tree.nodes.size
      key := m.tree.kind.groupKey
      group := some name }) := (NodeTree.Grows.refl m.tree).push _
  have hgroups : m.groups <+: groups := by
    rcases hbuilt with ⟨rfl, -⟩ | hbuild
    · exact List.prefix_rfl
    · exact hbody.buildGroup hbuild
  refine ⟨?_, ?_⟩
  · rw [pushOutputs_tree]
    exact htree.feedAll (Nat.le_refl _) _
  · rw [pushOutputs_groups]
    exact hgroups

theorem Appends.zoneStart (m : Machine) (items : List RepeatItem) (count : Item)
    (currents : List Item) : Appends marked m (m.zoneStart items count currents) := by
  have htree : m.tree.Grows marked (m.tree.addZone items) := (NodeTree.Grows.refl m.tree).addZone items
  exact ⟨htree.feedAll (Nat.le_refl _) _, List.prefix_rfl⟩

/-- The end of a zone feeds the output node, which was added where the zone started. -/
theorem Appends.zoneEnd {inner : Machine} (h : Appends marked m inner) (items : List RepeatItem)
    (finals rest : List Item) :
    Appends marked m (inner.zoneEnd (m.tree.nodes.size + 1) items finals rest) :=
  ⟨h.tree.feedAll (Nat.le_succ _) _, h.groups⟩

/-- The newest node gets another label or other output values. -/
theorem modifyNewest_grows {f : Node → Node}
    (hf : ∀ n, f n = { n with label := (f n).label, outputs := (f n).outputs })
    (h : m.modifyNewest f = .ok m') : m.Grows m' := by
  unfold modifyNewest at h
  split at h
  next id hid =>
    obtain rfl := modifyNode_ok h
    exact ⟨⟨(NodeTree.Grows.refl m.tree).mark hf fun _ => hid, List.prefix_rfl⟩, fun _ _ h => h⟩
  next => cases h

/-! ### Runs -/

/-- A step that does to its tree and groups what a run does. -/
def Growing (body : Machine → Except RunError Machine) : Prop :=
  ∀ m m', body m = .ok m' → m.Grows m'

theorem Growing.appendsGroups {body : Machine → Except RunError Machine} (h : Growing body) :
    AppendsGroups body :=
  fun m m' hrun => (h m m' hrun).groups

/-- A call of a function grows the machine as its body does, since the body builds into the tree of
the caller. -/
theorem Grows.callFunction {inputs : List String} {outputs : Nat}
    {body : Machine → Except RunError Machine} (hbody : Growing body)
    (h : m.callFunction inputs outputs body = .ok m') : m.Grows m' := by
  obtain ⟨args, rest, inner, -, -, hinner, rfl⟩ := callFunction_ok h
  have hin := hbody { m with
    stack := []
    env := Table.ofList (inputs.zip args)
    outputs := List.replicate outputs .empty } inner hinner
  let back : Machine := { inner with stack := rest, env := m.env, outputs := m.outputs }
  have hback : Appends m.newest m back := ⟨hin.tree, hin.groups⟩
  refine ⟨hback.pushOutputs _, ?_⟩
  unfold Machine.pushOutputs
  split <;> exact hin.newest

/-- A repeat zone grows the machine: behind the body it feeds its output node, which is no node of
the start. -/
theorem Grows.zone {ops : List Op} {body : Machine → Except RunError Machine}
    (hbody : Growing body) (h : m.zone ops body = .ok m') : m.Grows m' := by
  obtain ⟨count, rest, currents, inner, finals, -, -, hinner, -, rfl⟩ := zone_ok h
  have hstart : m.Grows (m.zoneStart (m.carried ops) count currents) :=
    ⟨.zoneStart m _ _ _, fun _ _ h => h⟩
  have hin := hbody _ _ hinner
  have happends := (hstart.trans hin).toAppends
  exact .of_new (happends.zoneEnd _ _ _) (Nat.le_succ _) rfl

mutual

/-- Each op grows the machine, by induction on the op and its body. Setting a label or an output
value is what may change an old node, and only the newest. -/
theorem runOp_grows : (op : Op) → Growing (runOp op)
  | .pushValue (some _), _, _, h | .pushValue none, _, _, h | .destroyVar _, _, _, h
  | .endOfStatement, _, _, h => by
    cases h
    exact .of_eq rfl rfl rfl
  | .createVar _, _, _, h => by
    refine .of_new (.createVar h) (Nat.le_refl _) ?_
    rw [createVar_ok h]
  | .getVar _, _, _, h => by
    obtain ⟨item, -, h⟩ := run_bind_ok.1 h
    cases h
    exact .of_eq rfl rfl rfl
  | .bindVar _, _, _, h | .pop, _, _, h => by
    obtain ⟨⟨item, m₁⟩, hpop, h⟩ := run_bind_ok.1 h
    obtain ⟨rest, -, rfl⟩ := pop_ok hpop
    cases h
    exact .of_eq rfl rfl rfl
  | .getOutput _, _, _, h => by
    obtain ⟨_, _, _, -, -, rfl⟩ := getOutput_ok h
    exact .of_eq rfl rfl rfl
  | .setOutput _ _, _, _, h | .renameNode _, _, _, h =>
    modifyNewest_grows (fun _ => rfl) h
  | .setFunctionOut _, _, _, h => by
    obtain ⟨_, _, -, rfl⟩ := setFunctionOut_ok h
    exact .of_eq rfl rfl rfl
  | .splitStruct, _, _, h => by
    obtain ⟨_, _, -, rfl⟩ := splitBundle_ok h
    exact .of_eq rfl rfl rfl
  | .callBuiltin _ _, _, _, h => by
    refine .of_new (.callBuiltin h) (Nat.le_refl _) ?_
    obtain ⟨_, _, -, -, -, rfl⟩ := callBuiltin_ok h
    rfl
  | .callFunction _ _ _ body, _, _, h => .callFunction (runOps_grows body) h
  | .callGroup _ _ _ body, _, _, h => by
    refine .of_new (.callGroup (runOps_grows body).appendsGroups h) (Nat.le_refl _) ?_
    obtain ⟨_, _, _, -, -, -, rfl⟩ := callGroup_built h
    rfl
  | .zone body, _, _, h => .zone (runOps_grows body) h

/-- A run appends to its tree and to the finished groups. -/
theorem runOps_grows : (ops : List Op) → Growing (runOps ops)
  | [], _, _, h => by
    cases h
    exact .of_eq rfl rfl rfl
  | op :: ops, m, m', h => by
    obtain ⟨m₁, h₁, h⟩ := run_bind_ok.1 h
    have hgrows := runOp_grows op m m₁ h₁
    exact hgrows.trans (runOps_grows ops m₁ m' h)

end

end Machine

/-! ### Graphs of op lists -/

/-- If ops build a graph, then so do the ops of every start of the list, and the graph of the start is
the start of the graph: its groups, its links and its nodes are the first ones, and at most one of these
nodes has got another label or other output values since. -/
theorem ofOps_append {kind : TreeKind} {name : String} {a b : List Op} {g : NodeGraph}
    (h : NodeGraph.ofOps kind name (a ++ b) = .ok g) :
    ∃ g₀, NodeGraph.ofOps kind name a = .ok g₀ ∧ g₀.groups <+: g.groups ∧
      g₀.tree.links.toList <+: g.tree.links.toList ∧
      ∃ marked : Option NodeId, ∀ (i : NodeId) (n : Node), g₀.tree.nodes[i]? = some n →
        ∃ n' : Node, g.tree.nodes[i]? = some n' ∧
          n' = { n with label := n'.label, outputs := n'.outputs } ∧ (marked ≠ some i → n' = n) := by
  obtain ⟨m, hrun, hg⟩ := Machine.run_bind_ok.1 h
  cases hg
  rw [Machine.runOps_append] at hrun
  obtain ⟨m₀, hrun₀, hrun⟩ := Machine.run_bind_ok.1 hrun
  have hstart := Machine.runOps_inRange a _ _ hrun₀ (Machine.inRange_start name kind)
  have hgrows := Machine.runOps_grows b m₀ m hrun
  refine ⟨⟨m₀.tree, m₀.groups⟩, ?_, hgrows.groups, hgrows.tree.links_prefix hstart.links.enter,
    m₀.newest, hgrows.tree.nodes⟩
  rw [NodeGraph.ofOps, hrun₀]
  rfl

/-- A zone that carries a variable. -/
def doublingZone : List Op :=
  [.createVar "x", .pushValue (some (.int 3)),
    .zone [.getVar "x", .getVar "x", .callBuiltin ⟨"ShaderNodeMath", [0, 1], [0], []⟩ [.float],
      .bindVar "x"]]

/-- Ops that label the newest node, which they have not added, and call a group. -/
def labelAndCall : List Op :=
  [.renameNode "doubled", .getVar "x", .callGroup "same" [⟨"a", .float, none⟩] [⟨"b", .float, none⟩]
    [.getVar "a", .setFunctionOut 0]]

/-- A zone that carries a variable, and further ops that label its output node and call a group. What
was there before stays, but for the label. -/
theorem ofOps_append_doublingZone :
    ∃ g, NodeGraph.ofOps .geometry "zone" (doublingZone ++ labelAndCall) = .ok g ∧
      ∃ g₀, NodeGraph.ofOps .geometry "zone" doublingZone = .ok g₀ ∧ g₀.groups <+: g.groups ∧
        g₀.tree.links.toList <+: g.tree.links.toList ∧
        ∃ marked : Option NodeId, ∀ (i : NodeId) (n : Node), g₀.tree.nodes[i]? = some n →
          ∃ n' : Node, g.tree.nodes[i]? = some n' ∧
            n' = { n with label := n'.label, outputs := n'.outputs } ∧ (marked ≠ some i → n' = n) := by
  have hrun : (NodeGraph.ofOps .geometry "zone" (doublingZone ++ labelAndCall)).toBool = true := by
    decide +kernel
  cases h : NodeGraph.ofOps .geometry "zone" (doublingZone ++ labelAndCall) with
  | error e =>
    rw [h] at hrun
    cases hrun
  | ok g => exact ⟨g, rfl, ofOps_append h⟩

end NodeFormula

import Mathlib.Data.List.Forall2
import NodeFormula.Proofs.Graph.Machine

/-!
# What the steps of a run do

The steps of the machine, inverted: if a step succeeds, then the machine after it is the one given
here. What a step does to the tree is said by functions on trees. `feed` and `feedAll` feed the inputs
of a node, and `addZone` adds the two nodes of a repeat zone with its items, so that the steps need
not be opened again where something is proved of runs.
-/

namespace NodeFormula

namespace NodeTree

/-- Feed an input socket of a node: set its value, link it, or leave it. -/
def feed (t : NodeTree) (node : NodeId) (input : Nat) : Item → NodeTree
  | .constant v => t.modifyNode node fun n => { n with inputs := n.inputs.insert input v }
  | .socket s => t.link ⟨s.node, s.index, node, input⟩
  | .empty => t
  | .bundle _ => t

/-- Feed input sockets of a node, each with the item beside it. -/
def feedAll (t : NodeTree) (node : NodeId) (feeds : List (Nat × Item)) : NodeTree :=
  feeds.foldl (fun t feed => t.feed node feed.1 feed.2) t

/-- Add a node that is given whole. -/
def push (t : NodeTree) (n : Node) : NodeTree := { t with nodes := t.nodes.push n }

/-- Add the input node and the output node of a zone with the given items. -/
def addZone (t : NodeTree) (items : List RepeatItem) : NodeTree :=
  let first : Node := {
    id := t.nodes.size
    key := "GeometryNodeRepeatInput"
    pairedWith := some (t.nodes.size + 1)
    repeatItems := items }
  let last : Node := {
    id := t.nodes.size + 1
    key := "GeometryNodeRepeatOutput"
    repeatItems := items }
  (t.push first).push last

@[simp] theorem size_nodes_push (t : NodeTree) (n : Node) :
    (t.push n).nodes.size = t.nodes.size + 1 := by
  simp [push]

@[simp] theorem size_nodes_feed (t : NodeTree) (node : NodeId) (input : Nat) (i : Item) :
    (t.feed node input i).nodes.size = t.nodes.size := by
  cases i with
  | constant v => exact size_nodes_modifyNode ..
  | empty | socket | bundle => rfl

@[simp] theorem size_nodes_feedAll (t : NodeTree) (node : NodeId) (feeds : List (Nat × Item)) :
    (t.feedAll node feeds).nodes.size = t.nodes.size := by
  induction feeds generalizing t with
  | nil => rfl
  | cons feed feeds ih => exact (ih _).trans (size_nodes_feed ..)

@[simp] theorem name_feed (t : NodeTree) (node : NodeId) (input : Nat) (i : Item) :
    (t.feed node input i).name = t.name := by
  cases i with
  | empty | constant | socket | bundle => rfl

@[simp] theorem name_feedAll (t : NodeTree) (node : NodeId) (feeds : List (Nat × Item)) :
    (t.feedAll node feeds).name = t.name := by
  induction feeds generalizing t with
  | nil => rfl
  | cons feed feeds ih => exact (ih _).trans (name_feed ..)

@[simp] theorem size_nodes_addZone (t : NodeTree) (items : List RepeatItem) :
    (t.addZone items).nodes.size = t.nodes.size + 2 := by
  simp [addZone]

/-- A node that is added and then changed. -/
theorem modifyNode_push (t : NodeTree) (n : Node) (f : Node → Node) :
    (t.push n).modifyNode t.nodes.size f = t.push (f n) := by
  simp only [modifyNode, push, mk.injEq, true_and, and_true]
  apply Array.ext_getElem?
  intro k
  simp only [Array.getElem?_modify, Array.getElem?_push]
  by_cases hk : k = t.nodes.size
  · simp [hk]
  · simp [hk, Ne.symm hk]

theorem modifyNode_addNode (t : NodeTree) (key : String) (f : Node → Node) :
    (t.addNode key).modifyNode t.nodes.size f = t.push (f { id := t.nodes.size, key }) :=
  modifyNode_push t _ f

/-- What is picked from the nodes of a tree stays when a node changes in other respects. -/
theorem filterMap_modifyNode {α : Type} {g : Node → Option α} (t : NodeTree) (id : NodeId)
    {f : Node → Node} (h : ∀ n, t.nodes[id]? = some n → g (f n) = g n) :
    (t.modifyNode id f).nodes.toList.filterMap g = t.nodes.toList.filterMap g := by
  have hlist : ∀ (nodes : List Node) (k : Nat), (∀ n, nodes[k]? = some n → g (f n) = g n) →
      (nodes.modify k f).filterMap g = nodes.filterMap g := by
    intro nodes
    induction nodes with
    | nil =>
      intro k _
      rw [List.modify_nil]
    | cons n nodes ih =>
      intro k hk
      cases k with
      | zero => rw [List.modify_zero_cons, List.filterMap_cons, List.filterMap_cons, hk n rfl]
      | succ k => rw [List.modify_succ_cons, List.filterMap_cons, List.filterMap_cons, ih k hk]
  simp only [modifyNode, Array.toList_modify]
  exact hlist _ id fun n hn => h n (by rwa [Array.getElem?_toList] at hn)

theorem filterMap_feed {α : Type} {g : Node → Option α}
    (hg : ∀ n inputs, g { n with inputs := inputs } = g n) (t : NodeTree) (node : NodeId)
    (input : Nat) (i : Item) :
    (t.feed node input i).nodes.toList.filterMap g = t.nodes.toList.filterMap g := by
  cases i with
  | constant v => exact filterMap_modifyNode t node fun n _ => hg n (n.inputs.insert input v)
  | empty | socket | bundle => rfl

theorem filterMap_feedAll {α : Type} {g : Node → Option α}
    (hg : ∀ n inputs, g { n with inputs := inputs } = g n) (t : NodeTree) (node : NodeId)
    (feeds : List (Nat × Item)) :
    (t.feedAll node feeds).nodes.toList.filterMap g = t.nodes.toList.filterMap g := by
  induction feeds generalizing t with
  | nil => rfl
  | cons feed feeds ih => exact (ih _).trans (filterMap_feed hg ..)

/-- A change of a node that leaves its input values alone may be made before or after feeding it. -/
theorem modifyNode_feed (t : NodeTree) (node id : NodeId) (input : Nat) (i : Item) {f : Node → Node}
    (hf : ∀ n inputs, f { n with inputs := inputs } = { f n with inputs := inputs })
    (hi : ∀ n, (f n).inputs = n.inputs) :
    (t.feed node input i).modifyNode id f = (t.modifyNode id f).feed node input i := by
  cases i with
  | empty | socket | bundle => rfl
  | constant v =>
    simp only [feed, modifyNode, mk.injEq, true_and, and_true]
    apply Array.ext_getElem?
    intro k
    simp only [Array.getElem?_modify]
    by_cases hk : node = k
    · by_cases hk' : id = k
      · simp only [if_pos hk, if_pos hk', Option.map_map]
        refine Option.map_congr fun n _ => (hf n _).trans ?_
        simp only [Function.comp_apply, hi]
      · simp [hk, hk']
    · simp [hk]

theorem setItems_feed (t : NodeTree) (node id : NodeId) (input : Nat) (i : Item)
    (items : List RepeatItem) :
    ((t.feed node input i).modifyNode id fun n => { n with repeatItems := items }) =
      (t.modifyNode id fun n => { n with repeatItems := items }).feed node input i :=
  modifyNode_feed t node id input i (fun _ _ => rfl) fun _ => rfl

/-- The nodes of a zone as they are made: two nodes, of which the first is paired with the second, and
both get the items. -/
theorem addZone_eq (t : NodeTree) (items : List RepeatItem) :
    t.addZone items = ((((t.addNode "GeometryNodeRepeatInput").addNode
      "GeometryNodeRepeatOutput").modifyNode t.nodes.size
        fun n => { n with pairedWith := some (t.nodes.size + 1) }).modifyNode t.nodes.size
        fun n => { n with repeatItems := items }).modifyNode (t.nodes.size + 1)
        fun n => { n with repeatItems := items } := by
  simp only [addZone, push, addNode, modifyNode, mk.injEq, true_and, and_true]
  apply Array.ext_getElem?
  intro k
  simp only [Array.getElem?_modify, Array.getElem?_push, Array.size_push]
  rcases Nat.lt_trichotomy k t.nodes.size with hk | hk | hk
  · simp [Nat.ne_of_gt hk, Nat.ne_of_gt (Nat.lt_succ_of_lt hk), Nat.ne_of_lt hk,
      Nat.ne_of_lt (Nat.lt_succ_of_lt hk)]
  · simp [hk]
  · by_cases hk' : k = t.nodes.size + 1
    · simp [hk']
    · simp [hk', Nat.ne_of_gt hk, Nat.ne_of_lt hk, Ne.symm hk']

end NodeTree

namespace Machine

variable {m m' : Machine}

/-! ### Feeding -/

theorem connect_ok {node : NodeId} {input : Nat} {i : Item} (h : m.connect node input i = .ok m') :
    m' = { m with tree := m.tree.feed node input i } := by
  cases i with
  | empty => cases h; rfl
  | constant v => exact modifyNode_ok h
  | socket s => cases h; rfl
  | bundle items => cases h

theorem connectAll_ok {node : NodeId} {feeds : List (Nat × Item)}
    (h : m.connectAll node feeds = .ok m') : m' = { m with tree := m.tree.feedAll node feeds } := by
  induction feeds generalizing m with
  | nil => cases h; rfl
  | cons feed feeds ih =>
    obtain ⟨m₁, h₁, h⟩ := run_bind_ok.1 h
    obtain rfl := connect_ok h₁
    exact ih h

/-- Items with the numbers of the sockets that they feed, from `index` on. -/
def numbered (index : Nat) (items : List Item) : List (Nat × Item) :=
  (items.zipIdx index).map Prod.swap

theorem nodup_numbered (index : Nat) (items : List Item) :
    ((numbered index items).map (·.1)).Nodup := by
  have heq : (numbered index items).map (·.1) = List.range' index items.length := by
    apply List.ext_getElem <;> simp [numbered]
  rw [heq]
  exact List.nodup_range'

/-- The variables of a zone's items, bound to sockets of a node from `index` on. -/
def itemSockets (node : NodeId) (index : Nat) (items : List RepeatItem) : List (String × Item) :=
  (items.zipIdx index).map fun p => (p.1.name, .socket ⟨node, p.2, p.1.type⟩)

/-- What the variables of a zone's items stand for. -/
def Holds (env : Table String Item) : List RepeatItem → List Item → Prop :=
  List.Forall₂ fun item i => env.get? item.name = some i

theorem Holds.of_insert {env : Table String Item} {x : String} {i : Item} {items : List RepeatItem}
    {currents : List Item} (h : Holds (env.insert x i) items currents)
    (hx : x ∉ items.map (·.name)) : Holds env items currents := by
  induction h with
  | nil => exact .nil
  | @cons item current items currents hitem _ ih =>
    rw [List.map_cons, List.mem_cons, not_or] at hx
    rw [Table.get?_insert, if_neg (Ne.symm hx.1)] at hitem
    exact .cons hitem (ih hx.2)

/-- Connecting the variables of a zone with distinct names feeds the node with what they hold, and
binds them to its sockets. Each reads its own variable, which the ones before have not bound. -/
theorem threadItems_ok {node : NodeId} {index : Nat} {items : List RepeatItem}
    (hnames : (items.map (·.name)).Nodup) (h : m.threadItems node index items = .ok m') :
    ∃ currents, Holds m.env items currents ∧ m' = { m with
      tree := m.tree.feedAll node (numbered index currents)
      env := m.env.insertAll (itemSockets node index items) } := by
  induction items generalizing m index with
  | nil =>
    cases h
    exact ⟨[], .nil, rfl⟩
  | cons item items ih =>
    simp only [threadItems, run_bind_ok] at h
    obtain ⟨current, hget, m₁, h₁, h⟩ := h
    obtain rfl := connect_ok h₁
    obtain ⟨hitem, hnames⟩ := List.nodup_cons.1 hnames
    obtain ⟨currents, hholds, rfl⟩ := ih hnames h
    -- The names differ, so binding the first leaves what the others stand for.
    exact ⟨current :: currents, .cons (get_ok hget) (hholds.of_insert hitem), rfl⟩

/-! ### Calls -/

/-- As many items are popped as were asked for. -/
theorem length_of_popMany {n : Nat} {items : List Item} (h : m.popMany n = .ok (items, m')) :
    items.length = n := by
  unfold popMany at h
  split at h
  next => cases h
  next hlen =>
    cases h
    simp only [List.length_reverse, List.length_take]
    omega

/-- The outputs of a node, of the given types. -/
def nodeItems (id : NodeId) (sockets : List Nat) (types : List SocketType) : List Item :=
  List.zipWith (fun i t => .socket ⟨id, i, t⟩) sockets types

/-- What a call of a builtin does: its arguments are popped, the new node is pushed and fed with
them, and its outputs are pushed. The number of outputs is that of their types. -/
theorem callBuiltin_ok {node : NodeSpec} {types : List SocketType}
    (h : m.callBuiltin node types = .ok m') : ∃ args rest,
      m.stack = args.reverse ++ rest ∧ args.length = node.inputs.length ∧
      types.length = node.outputs.length ∧
      m' = { ({ m with
          stack := rest
          tree := (m.tree.push {
            id := m.tree.nodes.size
            key := node.key
            props := Table.insertAll ∅ node.props }).feedAll m.tree.nodes.size
              (node.inputs.zip args) } : Machine).pushOutputs
            (nodeItems m.tree.nodes.size node.outputs types) with
        newest := some m.tree.nodes.size } := by
  simp only [callBuiltin, run_bind_ok] at h
  obtain ⟨⟨args, m₁⟩, hpop, m₂, hmodify, m₃, hconnect, h⟩ := h
  obtain ⟨rest, hs, rfl⟩ := popMany_ok hpop
  obtain rfl := modifyNode_ok hmodify
  obtain rfl := connectAll_ok hconnect
  split at h
  next => cases h
  next hlen =>
    cases h
    refine ⟨args, rest, hs, length_of_popMany hpop, by simpa using hlen, ?_⟩
    rw [← NodeTree.modifyNode_addNode m.tree node.key
      fun n => { n with props := n.props.insertAll node.props }]
    rfl

theorem createVar_ok {x : String} (h : m.createVar x = .ok m') : m' = { m with
    tree := m.tree.push { id := m.tree.nodes.size, key := "NodeReroute", label := some x }
    env := m.env.insert x (.socket ⟨m.tree.nodes.size, 0, .float⟩)
    newest := some m.tree.nodes.size } := by
  simp only [createVar, run_bind_ok] at h
  obtain ⟨m₁, hmodify, h⟩ := h
  obtain rfl := modifyNode_ok hmodify
  cases h
  rw [← NodeTree.modifyNode_addNode m.tree "NodeReroute" fun n => { n with label := some x }]
  rfl

/-- What a call of a function does: its arguments are popped, the body is run with them as variables,
and its outputs are pushed on the caller's stack. -/
theorem callFunction_ok {inputs : List String} {outputs : Nat}
    {body : Machine → Except RunError Machine} (h : m.callFunction inputs outputs body = .ok m') :
    ∃ args rest inner, m.stack = args.reverse ++ rest ∧ args.length = inputs.length ∧
      body { m with
        stack := []
        env := Table.ofList (inputs.zip args)
        outputs := List.replicate outputs .empty } = .ok inner ∧
      m' = ({ inner with stack := rest, env := m.env, outputs := m.outputs } : Machine).pushOutputs
        inner.outputs := by
  simp only [callFunction, run_bind_ok] at h
  obtain ⟨⟨args, m₁⟩, hpop, inner, hinner, h⟩ := h
  obtain ⟨rest, hs, rfl⟩ := popMany_ok hpop
  cases h
  exact ⟨args, rest, inner, hs, length_of_popMany hpop, hinner, rfl⟩

/-- A machine that starts to build a group. -/
def groupStart (m : Machine) (name : String) (inputs outputs : List TypedParam) : Machine where
  tree := groupTree name m.tree.kind inputs outputs
  groups := m.groups
  env := Table.ofList (inputs.mapIdx fun i p => (p.name, .socket ⟨0, i, p.type⟩))
  outputs := List.replicate outputs.length .empty

theorem buildGroup_ok {name : String} {inputs outputs : List TypedParam}
    {body : Machine → Except RunError Machine} (h : m.buildGroup name inputs outputs body = .ok m') :
    ∃ inner, body (m.groupStart name inputs outputs) = .ok inner ∧
      m' = { m with groups := inner.groups ++
        [inner.tree.feedAll 1 (inner.outputs.mapIdx fun i item => (i, item))] } := by
  simp only [buildGroup, run_bind_ok] at h
  obtain ⟨inner, hinner, inner', hconnect, h⟩ := h
  obtain rfl := connectAll_ok hconnect
  cases h
  exact ⟨inner, hinner, rfl⟩

/-- A call of a group uses the group of its name or builds it, and then adds a node for it. Said as
one equation for the machine after it, with the arguments that it pops and the groups that there are
then. -/
theorem callGroup_built {name : String} {inputs outputs : List TypedParam}
    {body : Machine → Except RunError Machine} (h : m.callGroup name inputs outputs body = .ok m') :
    ∃ (args rest : List Item) (groups : List NodeTree),
      m.stack = args.reverse ++ rest ∧ args.length = inputs.length ∧
      ((groups = m.groups ∧ name ∈ m.groups.map (·.name)) ∨
        ({ m with stack := rest } : Machine).buildGroup name inputs outputs body =
          .ok { m with stack := rest, groups }) ∧
      m' = { ({ m with
          stack := rest
          groups
          tree := (m.tree.push {
            id := m.tree.nodes.size
            key := m.tree.kind.groupKey
            group := some name }).feedAll m.tree.nodes.size
              (args.mapIdx fun i item => (i, item)) } : Machine).pushOutputs
            (outputs.mapIdx fun i p => .socket ⟨m.tree.nodes.size, i, p.type⟩) with
        newest := some m.tree.nodes.size } := by
  simp only [callGroup, run_bind_ok] at h
  obtain ⟨⟨args, m₁⟩, hpop, h⟩ := h
  obtain ⟨rest, hs, rfl⟩ := popMany_ok hpop
  split at h
  next hany =>
    simp only [run_bind_ok] at h
    obtain ⟨m₂, hm₂, m₃, hmodify, m₄, hconnect, h⟩ := h
    cases hm₂
    obtain rfl := modifyNode_ok hmodify
    obtain rfl := connectAll_ok hconnect
    cases h
    have hname : name ∈ m.groups.map (·.name) := by
      obtain ⟨g, hg, heq⟩ := List.any_eq_true.1 hany
      exact List.mem_map.2 ⟨g, hg, eq_of_beq heq⟩
    refine ⟨args, rest, m.groups, hs, length_of_popMany hpop, .inl ⟨rfl, hname⟩, ?_⟩
    rw [← NodeTree.modifyNode_addNode m.tree m.tree.kind.groupKey
      fun n => { n with group := some name }]
    rfl
  next =>
    simp only [run_bind_ok] at h
    obtain ⟨m₂, hbuild, m₃, hmodify, m₄, hconnect, h⟩ := h
    obtain ⟨inner, -, rfl⟩ := buildGroup_ok hbuild
    obtain rfl := modifyNode_ok hmodify
    obtain rfl := connectAll_ok hconnect
    cases h
    refine ⟨args, rest, _, hs, length_of_popMany hpop, .inr hbuild, ?_⟩
    rw [← NodeTree.modifyNode_addNode m.tree m.tree.kind.groupKey
      fun n => { n with group := some name }]
    rfl

/-! ### Zones -/

mutual

/-- The names that an op binds are collected without repetition, by induction on the op. -/
theorem nodup_boundNames : (op : Op) → ∀ {seen : List String}, seen.Nodup →
    (boundNames seen op).Nodup
  | .bindVar n, seen, h => by
    rw [boundNames]
    split
    next => exact h
    next hn =>
      have hmem : n ∉ seen := by simp_all
      exact List.nodup_append.2 ⟨h, by simp, fun a ha b hb => by
        cases List.mem_singleton.1 hb
        rintro rfl
        exact hmem ha⟩
  | .zone body, _, h => nodup_boundNamesAll body h
  | .pushValue _, _, h | .createVar _, _, h | .getVar _, _, h | .destroyVar _, _, h
  | .getOutput _, _, h | .setOutput _ _, _, h | .setFunctionOut _, _, h | .splitStruct, _, h
  | .pop, _, h | .callBuiltin _ _, _, h | .callFunction _ _ _ _, _, h | .callGroup _ _ _ _, _, h
  | .renameNode _, _, h | .endOfStatement, _, h => by simpa only [boundNames] using h

theorem nodup_boundNamesAll : (ops : List Op) → ∀ {seen : List String}, seen.Nodup →
    (boundNamesAll seen ops).Nodup
  | [], _, h => h
  | op :: ops, _, h => nodup_boundNamesAll ops (nodup_boundNames op h)

end

/-- No two items of a zone are for one variable. The items are those of the names that the body binds
which hold a single value, and each of these names is collected once. -/
theorem nodup_carried (m : Machine) (ops : List Op) : ((m.carried ops).map (·.name)).Nodup := by
  have hsub : ∀ names : List String, List.Sublist
      ((names.filterMap fun n => ((m.env.get? n).bind Item.type?).map fun t =>
        (⟨n, t⟩ : RepeatItem)).map (·.name)) names := by
    intro names
    induction names with
    | nil => exact .slnil
    | cons n names ih =>
      rw [List.filterMap_cons]
      cases (m.env.get? n).bind Item.type? with
      | none => exact ih.cons n
      | some t => exact ih.cons_cons n
  exact (nodup_boundNamesAll ops List.nodup_nil).sublist (hsub _)

/-- The machine where the body of a zone starts: the zone has its nodes, and the variables that it
carries are sockets of the first. -/
def zoneStart (m : Machine) (items : List RepeatItem) (count : Item) (currents : List Item) :
    Machine :=
  { m with
    stack := []
    tree := (m.tree.addZone items).feedAll m.tree.nodes.size (numbered 0 (count :: currents))
    env := m.env.insertAll (itemSockets m.tree.nodes.size 1 items) }

theorem size_zoneStart (m : Machine) (items : List RepeatItem) (count : Item)
    (currents : List Item) :
    (m.zoneStart items count currents).tree.nodes.size = m.tree.nodes.size + 2 := by
  simp [zoneStart]

/-- The machine after a zone whose output node is `last`: the variables that the zone carries are
sockets of that node. -/
def zoneEnd (inner : Machine) (last : NodeId) (items : List RepeatItem) (finals rest : List Item) :
    Machine :=
  { inner with
    stack := rest
    tree := inner.tree.feedAll last (numbered 0 finals)
    env := inner.env.insertAll (itemSockets last 0 items)
    newest := some last }

/-- What a repeat zone does: the count is popped, the two nodes are added and the input node is fed
with the count and the variables that are carried. The body is run from there, and the output node is
fed with what the variables hold then. -/
theorem zone_ok {ops : List Op} {body : Machine → Except RunError Machine}
    (h : m.zone ops body = .ok m') : ∃ count rest currents inner finals,
      m.stack = count :: rest ∧ Holds m.env (m.carried ops) currents ∧
      body (m.zoneStart (m.carried ops) count currents) = .ok inner ∧
      Holds inner.env (m.carried ops) finals ∧
      m' = inner.zoneEnd (m.tree.nodes.size + 1) (m.carried ops) finals rest := by
  simp only [zone, run_bind_ok] at h
  obtain ⟨⟨count, m₁⟩, hpop, m₂, hpair, m₃, hcount, m₄, hfirst, m₅, hlast, m₆, henter, inner, hinner,
    m₇, hleave, h⟩ := h
  obtain ⟨rest, hs, rfl⟩ := pop_ok hpop
  obtain rfl := modifyNode_ok hpair
  obtain rfl := connect_ok hcount
  obtain rfl := modifyNode_ok hfirst
  obtain rfl := modifyNode_ok hlast
  obtain ⟨currents, hcurrents, rfl⟩ := threadItems_ok (nodup_carried _ _) henter
  obtain ⟨finals, hfinals, rfl⟩ := threadItems_ok (nodup_carried _ _) hleave
  cases h
  have hsecond : (m.tree.addNode "GeometryNodeRepeatInput").nextId = m.tree.nodes.size + 1 :=
    NodeTree.size_nodes_addNode ..
  -- The items are set after the count is connected; `addZone` has them from the start.
  have htree : ((((((m.tree.addNode "GeometryNodeRepeatInput").addNode
      "GeometryNodeRepeatOutput").modifyNode m.tree.nextId
        fun n => { n with pairedWith := some (m.tree.addNode "GeometryNodeRepeatInput").nextId }).feed
        m.tree.nextId 0 count).modifyNode m.tree.nextId
        fun n => { n with repeatItems := m.carried ops }).modifyNode
        (m.tree.addNode "GeometryNodeRepeatInput").nextId
        fun n => { n with repeatItems := m.carried ops }) =
      (m.tree.addZone (m.carried ops)).feed m.tree.nodes.size 0 count := by
    rw [NodeTree.setItems_feed, NodeTree.setItems_feed, hsecond, NodeTree.addZone_eq]
    rfl
  refine ⟨count, rest, currents, inner, finals, hs, hcurrents, ?_, hfinals, ?_⟩
  · have hstart : (m.tree.addZone (m.carried ops)).feedAll m.tree.nodes.size
        (numbered 0 (count :: currents)) =
        ((m.tree.addZone (m.carried ops)).feed m.tree.nodes.size 0 count).feedAll m.tree.nodes.size
          (numbered 1 currents) := rfl
    refine Eq.trans ?_ hinner
    unfold zoneStart
    rw [hstart, ← htree]
    rfl
  · rw [← hsecond]
    rfl

end Machine

end NodeFormula

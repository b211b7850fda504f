import NodeFormula.Graph.Build

/-!
# Nodes and links of a run

What holds of every run of ops, well typed or not. A run only adds nodes to its tree and groups to the
finished ones (`runOps_extends`). Sockets that lie on the stack or in variables are sockets of nodes
that exist, and so both ends of every link are nodes of its tree (`runOps_inRange`).
-/

namespace NodeFormula

/-- Both ends of every link are nodes of the tree. -/
def NodeTree.LinksInRange (t : NodeTree) : Prop :=
  ∀ l ∈ t.links, l.fromNode < t.nodes.size ∧ l.toNode < t.nodes.size

/-- A tree with the name of another and at least its nodes. -/
structure NodeTree.Extends (t t' : NodeTree) : Prop where
  nodes : t.nodes.size ≤ t'.nodes.size
  name : t'.name = t.name

namespace NodeTree.Extends

variable {t t' t₁ : NodeTree}

/-- A tree extends itself. -/
theorem refl (t : NodeTree) : t.Extends t := ⟨Nat.le_refl _, rfl⟩

/-- Growth of a tree composes along a run. -/
theorem trans (h₁ : t.Extends t₁) (h₂ : t₁.Extends t') : t.Extends t' :=
  ⟨Nat.le_trans h₁.nodes h₂.nodes, h₂.name.trans h₁.name⟩

theorem addNode (t : NodeTree) (key : String) : t.Extends (t.addNode key) := ⟨by simp, rfl⟩

end NodeTree.Extends

/-- The sockets of an item belong to the first `n` nodes. -/
inductive Item.Below (n : Nat) : Item → Prop where
  | empty : Below n .empty
  | constant (v : Constant) : Below n (.constant v)
  | socket {s : Socket} : s.node < n → Below n (.socket s)
  | bundle {items : List Item} : (∀ i ∈ items, Below n i) → Below n (.bundle items)

theorem Item.Below.mono {n k : Nat} (hk : n ≤ k) {i : Item} (h : i.Below n) : i.Below k := by
  induction h with
  | empty => exact .empty
  | constant v => exact .constant v
  | socket h => exact .socket (Nat.lt_of_lt_of_le h hk)
  | bundle _ ih => exact .bundle ih

namespace Machine

theorem run_bind_ok {ε α β : Type} {x : Except ε α} {f : α → Except ε β} {b : β} :
    (x >>= f) = .ok b ↔ ∃ a, x = .ok a ∧ f a = .ok b := by
  cases x with
  | error e => exact ⟨nofun, nofun⟩
  | ok a => exact ⟨fun h => ⟨a, rfl, h⟩, fun ⟨_, h, h'⟩ => by cases h; exact h'⟩

theorem bind_of_ok {α β : Type} {x : Except RunError α} {a : α} (h : x = .ok a)
    (f : α → Except RunError β) : (x >>= f) = f a := by
  rw [h]
  rfl

variable {m m' : Machine}

/-! ### What single steps do -/

theorem pop_ok {i : Item} (h : m.pop = .ok (i, m')) :
    ∃ rest, m.stack = i :: rest ∧ m' = { m with stack := rest } := by
  unfold pop at h
  cases hs : m.stack with
  | nil => rw [hs] at h; cases h
  | cons j rest => rw [hs] at h; cases h; exact ⟨rest, rfl, rfl⟩

theorem popMany_ok {n : Nat} {items : List Item} (h : m.popMany n = .ok (items, m')) :
    ∃ rest, m.stack = items.reverse ++ rest ∧ m' = { m with stack := rest } := by
  unfold popMany at h
  split at h
  · cases h
  · cases h
    exact ⟨m.stack.drop n, by simp, rfl⟩

theorem get_ok {x : String} {i : Item} (h : m.get x = .ok i) : m.env.get? x = some i := by
  unfold get at h
  cases hx : m.env.get? x with
  | none => rw [hx] at h; cases h
  | some j => rw [hx] at h; cases h; rfl

theorem modifyNode_ok {id : NodeId} {f : Node → Node} (h : m.modifyNode id f = .ok m') :
    m' = { m with tree := m.tree.modifyNode id f } := by
  unfold modifyNode at h
  split at h
  next => cases h; rfl
  next => cases h

theorem modifyNewest_ok {f : Node → Node} (h : m.modifyNewest f = .ok m') :
    ∃ id, m' = { m with tree := m.tree.modifyNode id f } := by
  unfold modifyNewest at h
  split at h
  next id _ => exact ⟨id, modifyNode_ok h⟩
  next => cases h

/-- Taking an output replaces the bundle on top of the stack by one of its parts. -/
theorem getOutput_ok {index : Nat} (h : m.getOutput index = .ok m') :
    ∃ items rest part, m.stack = .bundle items :: rest ∧ items[index]? = some part ∧
      m' = { m with stack := part :: rest } := by
  simp only [getOutput, run_bind_ok] at h
  obtain ⟨⟨item, m₁⟩, hpop, h⟩ := h
  obtain ⟨rest, hs, rfl⟩ := pop_ok hpop
  cases item with
  | bundle items =>
    simp only at h
    split at h
    next part hp => cases h; exact ⟨items, rest, part, hs, hp, rfl⟩
    next => cases h
  | empty | constant | socket => cases h

theorem splitBundle_ok (h : m.splitBundle = .ok m') :
    ∃ items rest, m.stack = .bundle items :: rest ∧
      m' = { m with stack := items.reverse ++ rest } := by
  simp only [splitBundle, run_bind_ok] at h
  obtain ⟨⟨item, m₁⟩, hpop, h⟩ := h
  obtain ⟨rest, hs, rfl⟩ := pop_ok hpop
  cases item with
  | bundle items => cases h; exact ⟨items, rest, hs, rfl⟩
  | empty | constant | socket => cases h

theorem setFunctionOut_ok {index : Nat} (h : m.setFunctionOut index = .ok m') :
    ∃ item rest, m.stack = item :: rest ∧
      m' = { m with stack := rest, outputs := m.outputs.set index item } := by
  simp only [setFunctionOut, run_bind_ok] at h
  obtain ⟨⟨item, m₁⟩, hpop, h⟩ := h
  obtain ⟨rest, hs, rfl⟩ := pop_ok hpop
  split at h
  · cases h; exact ⟨item, rest, hs, rfl⟩
  · cases h

@[simp] theorem pushOutputs_tree (m : Machine) (items : List Item) :
    (m.pushOutputs items).tree = m.tree := by
  unfold pushOutputs
  split <;> rfl

@[simp] theorem pushOutputs_groups (m : Machine) (items : List Item) :
    (m.pushOutputs items).groups = m.groups := by
  unfold pushOutputs
  split <;> rfl

/-! ### Nodes are only added -/

theorem popMany_tree {n : Nat} {items : List Item} (h : m.popMany n = .ok (items, m')) :
    m'.tree = m.tree := by
  obtain ⟨_, -, rfl⟩ := popMany_ok h
  rfl

theorem modifyNode_extends {id : NodeId} {f : Node → Node} (h : m.modifyNode id f = .ok m') :
    m.tree.Extends m'.tree := by
  obtain rfl := modifyNode_ok h
  exact ⟨by simp, rfl⟩

theorem connect_extends {node : NodeId} {input : Nat} {i : Item}
    (h : m.connect node input i = .ok m') : m.tree.Extends m'.tree := by
  cases i with
  | empty => cases h; exact .refl _
  | constant v => exact modifyNode_extends h
  | socket s => cases h; exact ⟨Nat.le_refl _, rfl⟩
  | bundle items => cases h

theorem connectAll_extends {node : NodeId} {feeds : List (Nat × Item)}
    (h : m.connectAll node feeds = .ok m') : m.tree.Extends m'.tree := by
  induction feeds generalizing m with
  | nil => cases h; exact .refl _
  | cons feed feeds ih =>
    obtain ⟨m₁, h₁, h⟩ := run_bind_ok.1 h
    exact (connect_extends h₁).trans (ih h)

/-- Connecting the variables of a zone adds no node and takes none away, by induction on the
items. -/
theorem threadItems_extends {node : NodeId} {index : Nat} {items : List RepeatItem}
    (h : m.threadItems node index items = .ok m') : m.tree.Extends m'.tree := by
  induction items generalizing m index with
  | nil => cases h; exact .refl _
  | cons item items ih =>
    simp only [threadItems, run_bind_ok] at h
    obtain ⟨current, -, m₁, h₁, h⟩ := h
    have hrest := ih h
    exact (connect_extends h₁).trans hrest

/-- A call of a builtin adds one node, and feeding it keeps the tree growing. -/
theorem callBuiltin_extends {node : NodeSpec} {types : List SocketType}
    (h : m.callBuiltin node types = .ok m') : m.tree.Extends m'.tree := by
  simp only [callBuiltin, run_bind_ok] at h
  obtain ⟨⟨args, m₁⟩, hpop, m₂, hmodify, m₃, hconnect, h⟩ := h
  split at h
  · cases h
  · cases h
    rw [← popMany_tree hpop]
    simp only [pushOutputs_tree]
    exact .trans (.addNode m₁.tree node.key) <| (modifyNode_extends hmodify).trans <|
      connectAll_extends hconnect

theorem createVar_extends {name : String} (h : m.createVar name = .ok m') :
    m.tree.Extends m'.tree := by
  simp only [createVar, run_bind_ok] at h
  obtain ⟨m₁, hmodify, h⟩ := h
  cases h
  have hm := modifyNode_extends hmodify
  exact .trans (.addNode m.tree "NodeReroute") hm

/-- A step that only adds nodes. -/
def OnlyExtends (body : Machine → Except RunError Machine) : Prop :=
  ∀ m m', body m = .ok m' → m.tree.Extends m'.tree

/-- A call of a function extends the tree as its body does, because the body builds into the tree of
the caller. -/
theorem callFunction_extends {inputs : List String} {outputs : Nat}
    {body : Machine → Except RunError Machine} (hbody : OnlyExtends body)
    (h : m.callFunction inputs outputs body = .ok m') : m.tree.Extends m'.tree := by
  simp only [callFunction, run_bind_ok] at h
  obtain ⟨⟨args, m₁⟩, hpop, inner, hinner, h⟩ := h
  cases h
  rw [← popMany_tree hpop]
  simp only [pushOutputs_tree]
  have hin := hbody _ _ hinner
  exact hin

theorem buildGroup_tree {name : String} {inputs outputs : List TypedParam}
    {body : Machine → Except RunError Machine} (h : m.buildGroup name inputs outputs body = .ok m') :
    m'.tree = m.tree := by
  simp only [buildGroup, run_bind_ok] at h
  obtain ⟨inner, -, inner', -, h⟩ := h
  cases h
  rfl

/-- A call of a group pops its arguments, builds the group if there is none of its name, and then
adds a node for it, which is fed the arguments and whose outputs are pushed. -/
theorem callGroup_ok {name : String} {inputs outputs : List TypedParam}
    {body : Machine → Except RunError Machine} (h : m.callGroup name inputs outputs body = .ok m') :
    ∃ args m₁ m₂ m₃ m₄, m.popMany inputs.length = .ok (args, m₁) ∧
      (m₁ = m₂ ∨ m₁.buildGroup name inputs outputs body = .ok m₂) ∧
      (m₂.addNode m₂.tree.kind.groupKey).2.modifyNode m₂.tree.nextId
        (fun n => { n with group := some name }) = .ok m₃ ∧
      m₃.connectAll m₂.tree.nextId (args.mapIdx fun i item => (i, item)) = .ok m₄ ∧
      m' = { m₄.pushOutputs (outputs.mapIdx fun i p => .socket ⟨m₂.tree.nextId, i, p.type⟩) with
        newest := some m₂.tree.nextId } := by
  simp only [callGroup, run_bind_ok] at h
  obtain ⟨⟨args, m₁⟩, hpop, h⟩ := h
  split at h
  · simp only [run_bind_ok] at h
    obtain ⟨m₂, hm₂, m₃, hmodify, m₄, hconnect, h⟩ := h
    cases h
    cases hm₂
    exact ⟨args, m₁, _, m₃, m₄, hpop, .inl rfl, hmodify, hconnect, rfl⟩
  · simp only [run_bind_ok] at h
    obtain ⟨m₂, hbuild, m₃, hmodify, m₄, hconnect, h⟩ := h
    cases h
    exact ⟨args, m₁, m₂, m₃, m₄, hpop, .inr hbuild, hmodify, hconnect, rfl⟩

/-- A call of a group adds one node to the tree of the caller, built or not. -/
theorem callGroup_extends {name : String} {inputs outputs : List TypedParam}
    {body : Machine → Except RunError Machine} (h : m.callGroup name inputs outputs body = .ok m') :
    m.tree.Extends m'.tree := by
  obtain ⟨args, m₁, m₂, m₃, m₄, hpop, hbuild, hmodify, hconnect, rfl⟩ := callGroup_ok h
  have hb : m₂.tree = m.tree := by
    rw [← popMany_tree hpop]
    rcases hbuild with rfl | hbuild
    · rfl
    · exact buildGroup_tree hbuild
  simp only [pushOutputs_tree]
  rw [← hb]
  exact .trans (.addNode m₂.tree _) <| (modifyNode_extends hmodify).trans <|
    connectAll_extends hconnect

theorem pop_tree {i : Item} (h : m.pop = .ok (i, m')) : m'.tree = m.tree := by
  obtain ⟨_, -, rfl⟩ := pop_ok h
  rfl

/-- A repeat zone adds its two nodes and what its body adds. The links at its start and its end
change no nodes. -/
theorem zone_extends {ops : List Op} {body : Machine → Except RunError Machine}
    (hbody : OnlyExtends body) (h : m.zone ops body = .ok m') : m.tree.Extends m'.tree := by
  simp only [zone, run_bind_ok] at h
  obtain ⟨⟨count, m₁⟩, hpop, m₂, hpair, m₃, hcount, m₄, hfirst, m₅, hlast, m₆, henter, inner, hinner,
    m₇, hleave, h⟩ := h
  cases h
  rw [← pop_tree hpop]
  have hbetween := hbody _ _ hinner
  have hleave := threadItems_extends hleave
  exact .trans (.addNode m₁.tree "GeometryNodeRepeatInput") <|
    .trans (.addNode _ "GeometryNodeRepeatOutput") <| (modifyNode_extends hpair).trans <|
    (connect_extends hcount).trans <| (modifyNode_extends hfirst).trans <|
    (modifyNode_extends hlast).trans <| (threadItems_extends henter).trans <| hbetween.trans hleave

mutual

/-- Running an op only adds nodes: there are at least as many afterwards, and the tree has the same
name. The induction is on the op and the ops in its body. -/
theorem runOp_extends : (op : Op) → OnlyExtends (runOp op)
  | .pushValue (some _), _, _, h | .pushValue none, _, _, h | .destroyVar _, _, _, h
  | .endOfStatement, _, _, h => by cases h; exact .refl _
  | .createVar _, _, _, h => createVar_extends h
  | .getVar _, _, _, h => by
    obtain ⟨item, -, h⟩ := run_bind_ok.1 h
    cases h
    exact .refl _
  | .bindVar _, _, _, h | .pop, _, _, h => by
    obtain ⟨⟨item, m₁⟩, hpop, h⟩ := run_bind_ok.1 h
    obtain ⟨rest, -, rfl⟩ := pop_ok hpop
    cases h
    exact .refl _
  | .getOutput _, _, _, h => by
    obtain ⟨_, _, _, -, -, rfl⟩ := getOutput_ok h
    exact .refl _
  | .setOutput _ _, _, _, h | .renameNode _, _, _, h => by
    obtain ⟨id, rfl⟩ := modifyNewest_ok h
    exact ⟨by simp, rfl⟩
  | .setFunctionOut _, _, _, h => by
    obtain ⟨_, _, -, rfl⟩ := setFunctionOut_ok h
    exact .refl _
  | .splitStruct, _, _, h => by
    obtain ⟨_, _, -, rfl⟩ := splitBundle_ok h
    exact .refl _
  | .callBuiltin _ _, _, _, h => callBuiltin_extends h
  | .callFunction _ _ _ body, _, _, h => callFunction_extends (runOps_extends body) h
  | .callGroup _ _ _ _, _, _, h => callGroup_extends h
  | .zone body, _, _, h => zone_extends (runOps_extends body) h

/-- Running ops only adds nodes. -/
theorem runOps_extends : (ops : List Op) → OnlyExtends (runOps ops)
  | [], _, _, h => by cases h; exact .refl _
  | op :: ops, m, m', h => by
    obtain ⟨m₁, h₁, h⟩ := run_bind_ok.1 h
    exact (runOp_extends op m m₁ h₁).trans (runOps_extends ops m₁ m' h)

end

/-! ### Links stay in range -/

/-- Every socket of a machine is one of a node that exists, and so are the ends of every link. -/
structure InRange (m : Machine) : Prop where
  stack : ∀ i ∈ m.stack, i.Below m.tree.nodes.size
  env : ∀ x i, m.env.get? x = some i → i.Below m.tree.nodes.size
  outputs : ∀ i ∈ m.outputs, i.Below m.tree.nodes.size
  links : m.tree.LinksInRange
  groups : ∀ g ∈ m.groups, g.LinksInRange

namespace InRange

/-- Another tree with more nodes keeps a machine in range. -/
theorem withTree (hm : m.InRange) {t : NodeTree} (hn : m.tree.nodes.size ≤ t.nodes.size)
    (hl : t.LinksInRange) : { m with tree := t }.InRange where
  stack i hi := (hm.stack i hi).mono hn
  env x i hi := (hm.env x i hi).mono hn
  outputs i hi := (hm.outputs i hi).mono hn
  links := hl
  groups := hm.groups

theorem addNode (hm : m.InRange) (key : String) : (m.addNode key).2.InRange := by
  refine hm.withTree (by simp) fun l hl => ?_
  obtain ⟨h₁, h₂⟩ := hm.links l hl
  rw [NodeTree.size_nodes_addNode]
  exact ⟨Nat.lt_succ_of_lt h₁, Nat.lt_succ_of_lt h₂⟩

theorem modifyNode (hm : m.InRange) {id : NodeId} {f : Node → Node}
    (h : m.modifyNode id f = .ok m') : m'.InRange := by
  obtain rfl := modifyNode_ok h
  exact hm.withTree (by simp) fun l hl => by simpa using hm.links l hl

/-- Pushing an item whose sockets are in range keeps the machine in range. -/
theorem push (hm : m.InRange) {i : Item} (hi : i.Below m.tree.nodes.size) : (m.push i).InRange :=
  ⟨List.forall_mem_cons.2 ⟨hi, hm.stack⟩, hm.env, hm.outputs, hm.links, hm.groups⟩

theorem pushOutputs (hm : m.InRange) {items : List Item}
    (hi : ∀ i ∈ items, i.Below m.tree.nodes.size) : (m.pushOutputs items).InRange := by
  unfold Machine.pushOutputs
  match items, hi with
  | [], _ => exact hm
  | [i], hi => exact hm.push (hi i (.head _))
  | i :: j :: rest, hi => exact hm.push (.bundle hi)

/-- Binding a variable to an item whose sockets are in range keeps the machine in range. -/
theorem bind (hm : m.InRange) (x : String) {i : Item} (hi : i.Below m.tree.nodes.size) :
    (m.bind x i).InRange := by
  refine ⟨hm.stack, fun y j hj => ?_, hm.outputs, hm.links, hm.groups⟩
  change (m.env.insert x i).get? y = some j at hj
  rw [Table.get?_insert] at hj
  split at hj
  · cases hj; exact hi
  · exact hm.env y j hj

/-- Connecting an item in range to a node that exists adds a link in range, or sets a value and adds
none. -/
theorem connect (hm : m.InRange) {node : NodeId} {input : Nat} {i : Item}
    (hn : node < m.tree.nodes.size) (hi : i.Below m.tree.nodes.size)
    (h : m.connect node input i = .ok m') : m'.InRange := by
  cases hi with
  | empty => cases h; exact hm
  | constant v => exact hm.modifyNode h
  | @socket s hs =>
    cases h
    refine hm.withTree (Nat.le_refl _) fun l hl => ?_
    rcases Array.mem_push.1 hl with hl | rfl
    · exact hm.links l (Array.mem_filter.1 hl).1
    · exact ⟨hs, hn⟩
  | bundle => cases h

/-- Feeding several inputs of a node that exists keeps the machine in range, by induction on the
inputs. -/
theorem connectAll (hm : m.InRange) {node : NodeId} {feeds : List (Nat × Item)}
    (hn : node < m.tree.nodes.size) (hi : ∀ feed ∈ feeds, feed.2.Below m.tree.nodes.size)
    (h : m.connectAll node feeds = .ok m') : m'.InRange := by
  induction feeds generalizing m with
  | nil => cases h; exact hm
  | cons feed feeds ih =>
    obtain ⟨m₁, h₁, h⟩ := run_bind_ok.1 h
    have hsize := (connect_extends h₁).nodes
    refine ih (hm.connect hn (hi feed (.head _)) h₁) (Nat.lt_of_lt_of_le hn hsize) ?_ h
    exact fun f hf => (hi f (.tail _ hf)).mono hsize

/-- Connecting the variables of a zone to one of its nodes keeps the machine in range: they are bound
to sockets of that node, which exists. -/
theorem threadItems (hm : m.InRange) {node : NodeId} {index : Nat} {items : List RepeatItem}
    (hn : node < m.tree.nodes.size) (h : m.threadItems node index items = .ok m') : m'.InRange := by
  induction items generalizing m index with
  | nil => cases h; exact hm
  | cons item items ih =>
    simp only [Machine.threadItems, run_bind_ok] at h
    obtain ⟨current, hget, m₁, h₁, h⟩ := h
    have hn₁ := Nat.lt_of_lt_of_le hn (connect_extends h₁).nodes
    have hm₁ := hm.connect hn (hm.env _ _ (get_ok hget)) h₁
    exact ih (hm₁.bind item.name (.socket hn₁)) hn₁ h

theorem popMany (hm : m.InRange) {n : Nat} {items : List Item}
    (h : m.popMany n = .ok (items, m')) :
    m'.InRange ∧ ∀ i ∈ items, i.Below m'.tree.nodes.size := by
  obtain ⟨rest, hs, rfl⟩ := popMany_ok h
  have hstack := hm.stack
  rw [hs] at hstack
  refine ⟨⟨fun i hi => hstack i (List.mem_append_right _ hi), hm.env, hm.outputs, hm.links,
    hm.groups⟩, fun i hi => hstack i (List.mem_append_left _ (List.mem_reverse.2 hi))⟩

theorem pop (hm : m.InRange) {i : Item} (h : m.pop = .ok (i, m')) :
    m'.InRange ∧ i.Below m'.tree.nodes.size := by
  obtain ⟨rest, hs, rfl⟩ := pop_ok h
  have hstack := hm.stack
  rw [hs] at hstack
  exact ⟨⟨fun i hi => hstack i (.tail _ hi), hm.env, hm.outputs, hm.links, hm.groups⟩,
    hstack i (.head _)⟩

/-- The newest node plays no part. -/
theorem withNewest (hm : m.InRange) (id : Option NodeId) : { m with newest := id }.InRange :=
  ⟨hm.stack, hm.env, hm.outputs, hm.links, hm.groups⟩

end InRange

theorem mem_nodeOutputs {id : NodeId} {sockets : List Nat} {types : List SocketType} {item : Item}
    (h : item ∈ List.zipWith (fun i t => Item.socket ⟨id, i, t⟩) sockets types) :
    ∃ i t, item = .socket ⟨id, i, t⟩ := by
  rw [← List.map_uncurry_zip_eq_zipWith] at h
  obtain ⟨p, -, rfl⟩ := List.mem_map.1 h
  exact ⟨p.1, p.2, rfl⟩

/-- A step that keeps machines in range. -/
def KeepsRange (body : Machine → Except RunError Machine) : Prop :=
  ∀ m m', body m = .ok m' → m.InRange → m'.InRange

/-- A call of a builtin keeps the machine in range: the links go from the arguments to the new node,
and the outputs are sockets of it. -/
theorem InRange.callBuiltin (hm : m.InRange) {node : NodeSpec} {types : List SocketType}
    (h : m.callBuiltin node types = .ok m') : m'.InRange := by
  simp only [Machine.callBuiltin, run_bind_ok] at h
  obtain ⟨⟨args, m₁⟩, hpop, m₂, hmodify, m₃, hconnect, h⟩ := h
  obtain ⟨hm₁, hargs⟩ := hm.popMany hpop
  have hid : m₁.tree.nextId < (m₁.addNode node.key).2.tree.nodes.size := by
    simp [NodeTree.nextId, Machine.addNode]
  have hsize := (NodeTree.Extends.addNode m₁.tree node.key).nodes
  have hsize₂ := (modifyNode_extends hmodify).nodes
  have hm₃ : m₃.InRange := by
    refine ((hm₁.addNode node.key).modifyNode hmodify).connectAll ?_ ?_ hconnect
    · exact Nat.lt_of_lt_of_le hid hsize₂
    · intro feed hfeed
      have hmem := (List.of_mem_zip hfeed).2
      exact ((hargs _ hmem).mono hsize).mono hsize₂
  have hid₃ := Nat.lt_of_lt_of_le hid (Nat.le_trans hsize₂ (connectAll_extends hconnect).nodes)
  split at h
  · cases h
  · cases h
    have hitems : ∀ item ∈ List.zipWith (fun i t => Item.socket ⟨m₁.tree.nextId, i, t⟩)
        node.outputs types, item.Below m₃.tree.nodes.size := by
      intro item hitem
      obtain ⟨i, t, rfl⟩ := mem_nodeOutputs hitem
      exact .socket hid₃
    exact (hm₃.pushOutputs hitems).withNewest _

theorem InRange.createVar (hm : m.InRange) {name : String} (h : m.createVar name = .ok m') :
    m'.InRange := by
  simp only [Machine.createVar, run_bind_ok] at h
  obtain ⟨m₁, hmodify, h⟩ := h
  cases h
  have hid : m.tree.nextId < m₁.tree.nodes.size := by
    refine Nat.lt_of_lt_of_le ?_ (modifyNode_extends hmodify).nodes
    simp [NodeTree.nextId, Machine.addNode]
  exact (((hm.addNode _).modifyNode hmodify).bind name (.socket hid)).withNewest _

theorem below_of_get?_ofList {pairs : List (String × Item)} {n : Nat}
    (hp : ∀ p ∈ pairs, p.2.Below n) {x : String} {i : Item}
    (h : (Table.ofList pairs).get? x = some i) : i.Below n := by
  rw [Table.get?_ofList] at h
  obtain ⟨p, hfind, rfl⟩ := Option.map_eq_some_iff.1 h
  exact hp p (List.mem_reverse.1 (List.mem_of_find?_eq_some hfind))

/-- A call of a function keeps the machine in range if its body does. The caller's stack and
variables come back after the tree has grown, so their sockets are still in range. -/
theorem InRange.callFunction (hm : m.InRange) {inputs : List String} {outputs : Nat}
    {body : Machine → Except RunError Machine} (hbody : KeepsRange body) (hgrow : OnlyExtends body)
    (h : m.callFunction inputs outputs body = .ok m') : m'.InRange := by
  simp only [Machine.callFunction, run_bind_ok] at h
  obtain ⟨⟨args, m₁⟩, hpop, inner, hinner, h⟩ := h
  cases h
  obtain ⟨hm₁, hargs⟩ := hm.popMany hpop
  have hin : inner.InRange := by
    refine hbody _ _ hinner ⟨fun i hi => (nomatch hi), fun x i hi => ?_, fun i hi => ?_, hm₁.links,
      hm₁.groups⟩
    · exact below_of_get?_ofList (fun p hp => hargs _ (List.of_mem_zip hp).2) hi
    · rw [List.eq_of_mem_replicate hi]
      exact .empty
  have hsize : m₁.tree.nodes.size ≤ inner.tree.nodes.size := (hgrow _ _ hinner).nodes
  have hback : { inner with stack := m₁.stack, env := m₁.env, outputs := m₁.outputs }.InRange :=
    ⟨fun i hi => (hm₁.stack i hi).mono hsize, fun x i hi => (hm₁.env x i hi).mono hsize,
      fun i hi => (hm₁.outputs i hi).mono hsize, hin.links, hin.groups⟩
  exact hback.pushOutputs hin.outputs

/-- Building a group keeps the machine in range: the body runs in a tree of its own, whose links are
in range when it is finished. -/
theorem InRange.buildGroup (hm : m.InRange) {name : String} {inputs outputs : List TypedParam}
    {body : Machine → Except RunError Machine} (hbody : KeepsRange body) (hgrow : OnlyExtends body)
    (h : m.buildGroup name inputs outputs body = .ok m') : m'.InRange := by
  simp only [Machine.buildGroup, run_bind_ok] at h
  obtain ⟨inner, hinner, inner', hconnect, h⟩ := h
  cases h
  have hsize : 2 ≤ inner.tree.nodes.size := by
    have := (hgrow _ _ hinner).nodes
    simpa [groupTree] using this
  have hin : inner.InRange := by
    refine hbody _ _ hinner ⟨fun i hi => (nomatch hi), fun x i hi => ?_, fun i hi => ?_, ?_, hm.groups⟩
    · refine below_of_get?_ofList (fun p hp => ?_) hi
      obtain ⟨k, hk, rfl⟩ := List.mem_mapIdx.1 hp
      exact .socket (by simp [groupTree])
    · rw [List.eq_of_mem_replicate hi]
      exact .empty
    · intro l hl
      simp [groupTree, NodeTree.addNode] at hl
  have hin' : inner'.InRange := by
    refine hin.connectAll hsize (fun feed hfeed => ?_) hconnect
    obtain ⟨k, hk, rfl⟩ := List.mem_mapIdx.1 hfeed
    exact hin.outputs _ (List.getElem_mem hk)
  refine ⟨hm.stack, hm.env, hm.outputs, hm.links, fun g hg => ?_⟩
  rcases List.mem_append.1 hg with hg | hg
  · exact hin'.groups g hg
  · cases List.mem_singleton.1 hg
    exact hin'.links

/-- A call of a group keeps the machine in range, whether the group is built or was there. Its body
runs on a tree of its own, and the new node of the caller is fed from sockets that were in range. -/
theorem InRange.callGroup (hm : m.InRange) {name : String} {inputs outputs : List TypedParam}
    {body : Machine → Except RunError Machine} (hbody : KeepsRange body) (hgrow : OnlyExtends body)
    (h : m.callGroup name inputs outputs body = .ok m') : m'.InRange := by
  obtain ⟨args, m₁, m₂, m₃, m₄, hpop, hbuild, hmodify, hconnect, rfl⟩ := callGroup_ok h
  obtain ⟨hm₁, hargs⟩ := hm.popMany hpop
  have htree : m₂.tree = m₁.tree := by
    rcases hbuild with rfl | hbuild
    · rfl
    · exact buildGroup_tree hbuild
  have hm₂ : m₂.InRange := by
    rcases hbuild with rfl | hbuild
    · exact hm₁
    · exact hm₁.buildGroup hbody hgrow hbuild
  have hsize := (NodeTree.Extends.addNode m₂.tree m₂.tree.kind.groupKey).nodes
  have hsize₃ := (modifyNode_extends hmodify).nodes
  have hid : m₂.tree.nextId < m₃.tree.nodes.size := by
    refine Nat.lt_of_lt_of_le ?_ hsize₃
    simp [NodeTree.nextId, Machine.addNode]
  have hm₄ : m₄.InRange := by
    refine ((hm₂.addNode _).modifyNode hmodify).connectAll hid (fun feed hfeed => ?_) hconnect
    obtain ⟨k, hk, rfl⟩ := List.mem_mapIdx.1 hfeed
    have := hargs _ (List.getElem_mem hk)
    rw [← htree] at this
    exact (this.mono hsize).mono hsize₃
  have hid₄ := Nat.lt_of_lt_of_le hid (connectAll_extends hconnect).nodes
  refine (hm₄.pushOutputs fun item hitem => ?_).withNewest _
  obtain ⟨k, hk, rfl⟩ := List.mem_mapIdx.1 hitem
  exact .socket hid₄

/-- A repeat zone keeps the machine in range if its body does. Its links start at variables and at
the count, which have sockets in range, and end at its two nodes. -/
theorem InRange.zone (hm : m.InRange) {ops : List Op} {body : Machine → Except RunError Machine}
    (hbody : KeepsRange body) (hgrow : OnlyExtends body) (h : m.zone ops body = .ok m') :
    m'.InRange := by
  simp only [Machine.zone, run_bind_ok] at h
  obtain ⟨⟨count, m₁⟩, hpop, m₂, hpair, m₃, hcount, m₄, hfirst, m₅, hlast, m₆, henter, inner, hinner,
    m₇, hleave, h⟩ := h
  cases h
  obtain ⟨hm₁, hc⟩ := hm.pop hpop
  have h₁₂ := (modifyNode_extends hpair).nodes
  have h₂₃ := (connect_extends hcount).nodes
  have h₃₅ := Nat.le_trans (modifyNode_extends hfirst).nodes (modifyNode_extends hlast).nodes
  have h₅₆ := (threadItems_extends henter).nodes
  have h₆ : m₆.tree.nodes.size ≤ inner.tree.nodes.size := (hgrow _ _ hinner).nodes
  have hadd : m₁.tree.nodes.size + 2 ≤ m₂.tree.nodes.size := by
    simp only [Machine.addNode, NodeTree.size_nodes_addNode] at h₁₂
    omega
  have hid₂ : m₁.tree.nodes.size < m₂.tree.nodes.size := by omega
  have hid₅ : m₁.tree.nodes.size < m₅.tree.nodes.size := by omega
  have hout : (m₁.addNode "GeometryNodeRepeatInput").2.tree.nodes.size < inner.tree.nodes.size := by
    simp only [Machine.addNode, NodeTree.size_nodes_addNode]
    omega
  have hm₂ : m₂.InRange := ((hm₁.addNode _).addNode _).modifyNode hpair
  have hm₃ : m₃.InRange := hm₂.connect hid₂ (hc.mono (Nat.le_of_lt hid₂)) hcount
  have hm₆ : m₆.InRange := ((hm₃.modifyNode hfirst).modifyNode hlast).threadItems hid₅ henter
  have hin : inner.InRange := hbody _ _ hinner
    ⟨fun i hi => (nomatch hi), hm₆.env, hm₆.outputs, hm₆.links, hm₆.groups⟩
  have hback : { inner with stack := m₆.stack }.InRange :=
    ⟨fun i hi => (hm₆.stack i hi).mono h₆, hin.env, hin.outputs, hin.links, hin.groups⟩
  exact (hback.threadItems hout hleave).withNewest _

mutual

/-- Running an op keeps a machine in range: links and all sockets on the stack, in variables and in
outputs belong to nodes of the tree. The induction is on the op and its body. -/
theorem runOp_inRange : (op : Op) → KeepsRange (runOp op)
  | .pushValue (some v), _, _, h, hm => by cases h; exact hm.push (.constant v)
  | .pushValue none, _, _, h, hm => by cases h; exact hm.push .empty
  | .createVar _, _, _, h, hm => hm.createVar h
  | .getVar _, _, _, h, hm => by
    obtain ⟨item, hget, h⟩ := run_bind_ok.1 h
    cases h
    exact hm.push (hm.env _ _ (get_ok hget))
  | .bindVar x, _, _, h, hm => by
    obtain ⟨⟨item, m₁⟩, hpop, h⟩ := run_bind_ok.1 h
    cases h
    obtain ⟨hm₁, hi⟩ := hm.pop hpop
    exact hm₁.bind x hi
  | .destroyVar x, m, _, h, hm => by
    cases h
    refine ⟨hm.stack, fun y i hi => hm.env y i ?_, hm.outputs, hm.links, hm.groups⟩
    change (m.env.erase x).get? y = some i at hi
    rw [Table.get?_erase] at hi
    split at hi
    · cases hi
    · exact hi
  | .getOutput _, _, _, h, hm => by
    obtain ⟨items, rest, part, hs, hp, rfl⟩ := getOutput_ok h
    have hstack := hm.stack
    rw [hs] at hstack
    cases hstack _ (.head _) with
    | bundle hitems =>
      exact ⟨List.forall_mem_cons.2 ⟨hitems _ (List.mem_of_getElem? hp),
        fun i hi => hstack i (.tail _ hi)⟩, hm.env, hm.outputs, hm.links, hm.groups⟩
  | .setOutput _ _, _, _, h, hm | .renameNode _, _, _, h, hm => by
    obtain ⟨id, rfl⟩ := modifyNewest_ok h
    exact hm.withTree (by simp) fun l hl => by simpa using hm.links l hl
  | .setFunctionOut _, _, _, h, hm => by
    obtain ⟨item, rest, hs, rfl⟩ := setFunctionOut_ok h
    have hstack := hm.stack
    rw [hs] at hstack
    refine ⟨fun i hi => hstack i (.tail _ hi), hm.env, fun i hi => ?_, hm.links, hm.groups⟩
    rcases List.mem_or_eq_of_mem_set hi with hi | rfl
    · exact hm.outputs i hi
    · exact hstack _ (.head _)
  | .splitStruct, _, _, h, hm => by
    obtain ⟨items, rest, hs, rfl⟩ := splitBundle_ok h
    have hstack := hm.stack
    rw [hs] at hstack
    cases hstack _ (.head _) with
    | bundle hitems =>
      refine ⟨fun i hi => ?_, hm.env, hm.outputs, hm.links, hm.groups⟩
      rcases List.mem_append.1 hi with hi | hi
      · exact hitems i (List.mem_reverse.1 hi)
      · exact hstack i (.tail _ hi)
  | .pop, _, _, h, hm => by
    obtain ⟨⟨item, m₁⟩, hpop, h⟩ := run_bind_ok.1 h
    cases h
    exact (hm.pop hpop).1
  | .callBuiltin _ _, _, _, h, hm => hm.callBuiltin h
  | .callFunction _ _ _ body, _, _, h, hm =>
    hm.callFunction (runOps_inRange body) (runOps_extends body) h
  | .callGroup _ _ _ body, _, _, h, hm =>
    hm.callGroup (runOps_inRange body) (runOps_extends body) h
  | .zone body, _, _, h, hm => hm.zone (runOps_inRange body) (runOps_extends body) h
  | .endOfStatement, _, _, h, hm => by
    cases h
    exact ⟨fun i hi => (nomatch hi), hm.env, hm.outputs, hm.links, hm.groups⟩

/-- Running ops keeps a machine in range. -/
theorem runOps_inRange : (ops : List Op) → KeepsRange (runOps ops)
  | [], _, _, h, hm => by cases h; exact hm
  | op :: ops, m, m', h, hm => by
    obtain ⟨m₁, h₁, h⟩ := run_bind_ok.1 h
    exact runOps_inRange ops m₁ m' h (runOp_inRange op m m₁ h₁ hm)

end

theorem inRange_start (name : String) (kind : TreeKind) : InRange { tree := { name, kind } } where
  stack _ h := nomatch h
  env _ _ h := nomatch h
  outputs _ h := nomatch h
  links _ h := by simp at h
  groups _ h := nomatch h

end Machine

end NodeFormula

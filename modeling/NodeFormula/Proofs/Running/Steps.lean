import NodeFormula.Op.Lowering
import NodeFormula.Proofs.Graph.Machine
import NodeFormula.Proofs.Running.Widths

/-!
# Runs that succeed

What the machine does on a stack and with variables of the right widths. A value of width one is a
constant or a socket, and one of a greater width is a bundle of such. Each lemma here says of one op,
or of the ops for one purpose, that they run, what they push, and that all else of the machine but its
tree is unchanged (`Frame`).
-/

namespace NodeFormula

/-! ### Widths of items -/

/-- A constant or a socket. -/
inductive Item.Single : Item → Prop where
  | constant (v : Constant) : Single (.constant v)
  | socket (s : Socket) : Single (.socket s)

/-- An item that stands for `n` sockets. -/
inductive Item.HasWidth : Item → Nat → Prop where
  | single {i : Item} : i.Single → HasWidth i 1
  | bundle {items : List Item} : 2 ≤ items.length → (∀ i ∈ items, i.Single) →
      HasWidth (.bundle items) items.length

namespace Item.HasWidth

variable {i : Item} {n : Nat}

theorem single_of_one (h : i.HasWidth 1) : i.Single := by
  generalize hn : 1 = n at h
  cases h with
  | single h => exact h
  | bundle h => omega

theorem exists_bundle (h : i.HasWidth n) (hn : 2 ≤ n) :
    ∃ items, i = .bundle items ∧ items.length = n ∧ ∀ j ∈ items, j.Single := by
  cases h with
  | single => omega
  | @bundle items _ hs => exact ⟨items, rfl, rfl, hs⟩

/-- Exactly the items of width one have a type, and so can be carried by a zone. -/
theorem isSome_type? (h : i.HasWidth n) : i.type?.isSome ↔ n = 1 := by
  cases h with
  | single h => cases h <;> simp [Item.type?]
  | bundle h =>
    simp only [Item.type?, Option.isSome_none, Bool.false_eq_true, false_iff]
    omega

end Item.HasWidth

namespace Machine

/-- The machine has pushed a value of width `n` on a stack, which is nothing for width zero. -/
def Pushed (n : Nat) (stack : List Item) (m : Machine) : Prop :=
  (n = 0 ∧ m.stack = stack) ∨ ∃ i, i.HasWidth n ∧ m.stack = i :: stack

/-- Variables, outputs and groups are unchanged. -/
structure Frame (m m' : Machine) : Prop where
  env : m'.env = m.env
  outputs : m'.outputs = m.outputs
  groups : m'.groups = m.groups

variable {m m' m₁ : Machine}

/-- A machine that has not moved is unchanged. -/
theorem Frame.refl (m : Machine) : Frame m m := ⟨rfl, rfl, rfl⟩

/-- What two steps leave, both in a row leave. -/
theorem Frame.trans (h₁ : Frame m m₁) (h₂ : Frame m₁ m') : Frame m m' :=
  ⟨h₂.env.trans h₁.env, h₂.outputs.trans h₁.outputs, h₂.groups.trans h₁.groups⟩

theorem Pushed.exists_of_pos {n : Nat} {stack : List Item} (h : Pushed n stack m) (hn : n ≠ 0) :
    ∃ i, i.HasWidth n ∧ m.stack = i :: stack := by
  rcases h with ⟨h, -⟩ | h
  · exact absurd h hn
  · exact h

theorem pushOutputs_pushed {items : List Item} (h : ∀ i ∈ items, i.Single) :
    Pushed items.length m.stack (m.pushOutputs items) := by
  match items, h with
  | [], _ => exact .inl ⟨rfl, rfl⟩
  | [i], h => exact .inr ⟨i, .single (h i (.head _)), rfl⟩
  | i :: j :: rest, h => exact .inr ⟨_, .bundle (by simp) h, rfl⟩

theorem pushOutputs_frame (m : Machine) (items : List Item) : Frame m (m.pushOutputs items) := by
  unfold pushOutputs
  split <;> exact ⟨rfl, rfl, rfl⟩

/-! ### Nodes -/

theorem popMany_append {items rest : List Item} (h : m.stack = items.reverse ++ rest) :
    m.popMany items.length = .ok (items, { m with stack := rest }) := by
  unfold popMany
  rw [h, if_neg (by simp)]
  simp

theorem modifyNode_runs {id : NodeId} (h : id < m.tree.nodes.size) (f : Node → Node) :
    m.modifyNode id f = .ok { m with tree := m.tree.modifyNode id f } := by
  rw [modifyNode, if_pos h]

theorem modifyNewest_runs {id : NodeId} (hid : m.newest = some id) (h : id < m.tree.nodes.size)
    (f : Node → Node) : m.modifyNewest f = .ok { m with tree := m.tree.modifyNode id f } := by
  have hnew : m.modifyNewest f = m.modifyNode id f := by rw [modifyNewest, hid]
  exact hnew.trans (modifyNode_runs h f)

/-- All but a bundle can be connected. -/
theorem connect_runs (m : Machine) (node : NodeId) (input : Nat) {i : Item}
    (hn : node < m.tree.nodes.size) (hi : i = .empty ∨ i.Single) :
    ∃ t, m.connect node input i = .ok { m with tree := t } ∧
      t.nodes.size = m.tree.nodes.size := by
  rcases hi with rfl | ⟨v⟩ | ⟨s⟩
  · exact ⟨m.tree, rfl, rfl⟩
  · exact ⟨_, modifyNode_runs hn _, by simp⟩
  · exact ⟨_, rfl, rfl⟩

/-- Feeding empty items and single values to a node that is there never fails. Only a bundle cannot
be connected. -/
theorem connectAll_runs (m : Machine) (node : NodeId) (feeds : List (Nat × Item))
    (hn : node < m.tree.nodes.size) (hi : ∀ feed ∈ feeds, feed.2 = .empty ∨ feed.2.Single) :
    ∃ t, m.connectAll node feeds = .ok { m with tree := t } ∧
      t.nodes.size = m.tree.nodes.size := by
  induction feeds generalizing m with
  | nil => exact ⟨m.tree, rfl, rfl⟩
  | cons feed feeds ih =>
    obtain ⟨t, ht, hsize⟩ := connect_runs m node feed.1 hn (hi feed (.head _))
    obtain ⟨t', ht', hsize'⟩ := ih { m with tree := t } (by rw [hsize]; exact hn)
      fun f hf => hi f (.tail _ hf)
    refine ⟨t', ?_, hsize'.trans hsize⟩
    rw [connectAll, ht]
    exact ht'

/-- The node of a built-in function with its arguments on the stack, of which some may be left out.
It runs, pushes the outputs, and is the newest node then. -/
theorem callBuiltin_runs (m : Machine) (node : NodeSpec) (types : List SocketType)
    (args : List Item) {rest : List Item} (hs : m.stack = args.reverse ++ rest)
    (hl : args.length = node.inputs.length) (ha : ∀ i ∈ args, i = .empty ∨ i.Single)
    (ht : types.length = node.outputs.length) :
    ∃ m' id, m.callBuiltin node types = .ok m' ∧ Pushed types.length rest m' ∧ Frame m m' ∧
      m'.newest = some id ∧ id < m'.tree.nodes.size := by
  have hpop : m.popMany node.inputs.length = .ok (args, { m with stack := rest }) := by
    rw [← hl]
    exact popMany_append hs
  have hid : m.tree.nextId < (m.tree.addNode node.key).nodes.size := by simp [NodeTree.nextId]
  obtain ⟨t, hconnect, hsize⟩ := connectAll_runs
    { m with
      stack := rest
      tree := (m.tree.addNode node.key).modifyNode m.tree.nextId
        fun n => { n with props := n.props.insertAll node.props } }
    m.tree.nextId (node.inputs.zip args) (by simpa using hid)
    fun feed hfeed => ha _ (List.of_mem_zip hfeed).2
  let items := List.zipWith (fun i t => Item.socket ⟨m.tree.nextId, i, t⟩) node.outputs types
  have hitems : ∀ i ∈ items, i.Single := by
    intro item hitem
    obtain ⟨i, t, rfl⟩ := mem_nodeOutputs hitem
    exact .socket _
  have hlen : items.length = types.length := by simp [items, ht]
  refine ⟨{ ({ m with stack := rest, tree := t } : Machine).pushOutputs items with
    newest := some m.tree.nextId }, m.tree.nextId, ?_, ?_, ?_, rfl, ?_⟩
  · refine run_bind_ok.2 ⟨_, hpop, run_bind_ok.2 ⟨_, modifyNode_runs hid _,
      run_bind_ok.2 ⟨_, hconnect, ?_⟩⟩⟩
    rw [if_neg (by simp [ht])]
    rfl
  · rw [← hlen]
    exact pushOutputs_pushed (m := { m with stack := rest, tree := t }) hitems
  · have hf := pushOutputs_frame { m with stack := rest, tree := t } items
    exact ⟨hf.env, hf.outputs, hf.groups⟩
  · simp only [pushOutputs_tree]
    rw [hsize]
    simpa using hid

/-- A free variable gets a socket. -/
theorem createVar_runs (m : Machine) (x : String) : ∃ m' s, m.createVar x = .ok m' ∧
    m'.env = m.env.insert x (.socket s) ∧ m'.stack = m.stack ∧ m'.outputs = m.outputs ∧
    m'.groups = m.groups := by
  have hid : m.tree.nextId < (m.tree.addNode "NodeReroute").nodes.size := by simp [NodeTree.nextId]
  refine ⟨_, ⟨m.tree.nextId, 0, .float⟩, run_bind_ok.2 ⟨_, modifyNode_runs hid _, rfl⟩, ?_⟩
  exact ⟨rfl, rfl, rfl, rfl⟩

/-! ### Constants -/

/-- What pushing a constant or nothing leaves on the stack. -/
def itemOf : Option Constant → Item
  | some v => .constant v
  | none => .empty

theorem itemOf_connects (o : Option Constant) : itemOf o = .empty ∨ (itemOf o).Single := by
  cases o with
  | none => exact .inl rfl
  | some v => exact .inr (.constant v)

theorem pushValues_run (values : List (Option Constant)) (m : Machine) :
    runOps (values.map .pushValue) m =
      .ok { m with stack := (values.map itemOf).reverse ++ m.stack } := by
  induction values generalizing m with
  | nil => rfl
  | cons o values ih =>
    have hpush : runOp (.pushValue o) m = .ok (m.push (itemOf o)) := by cases o <;> rfl
    rw [List.map_cons, runOps, hpush]
    refine (ih (m.push (itemOf o))).trans ?_
    simp [push]

/-- Ops that push one single value and bind no variable of the formula. -/
structure PushesSingle (ops : List Op) : Prop where
  runs : ∀ m, ∃ m' i, runOps ops m = .ok m' ∧ i.Single ∧ m'.stack = i :: m.stack ∧ Frame m m'
  bound : ∀ seen, boundNamesAll seen ops = seen

/-- An op that changes the newest node. -/
inductive Marks : Op → Prop where
  | setOutput (index : Nat) (v : Constant) : Marks (.setOutput index v)
  | renameNode (name : String) : Marks (.renameNode name)

/-- Labels and output values behind a new node run, and change nothing but the tree. -/
theorem marks_run {ops : List Op} (hops : ∀ op ∈ ops, Marks op) {m : Machine} {id : NodeId}
    (hid : m.newest = some id) (hlt : id < m.tree.nodes.size) :
    ∃ t, runOps ops m = .ok { m with tree := t } := by
  induction ops generalizing m with
  | nil => exact ⟨m.tree, rfl⟩
  | cons op ops ih =>
    obtain ⟨f, hop⟩ : ∃ f, runOp op m = .ok { m with tree := m.tree.modifyNode id f } := by
      cases hops op (.head _) with
      | setOutput | renameNode => exact ⟨_, modifyNewest_runs hid hlt _⟩
    obtain ⟨t, ht⟩ := ih (fun op hop => hops op (.tail _ hop))
      (m := { m with tree := m.tree.modifyNode id f }) hid (by simpa using hlt)
    exact ⟨t, by rw [runOps, hop]; exact ht⟩

theorem boundNamesAll_marks {ops : List Op} (hops : ∀ op ∈ ops, Marks op) (seen : List String) :
    boundNamesAll seen ops = seen := by
  induction ops with
  | nil => rfl
  | cons op ops ih =>
    rw [boundNamesAll]
    cases hops op (.head _) with
    | setOutput | renameNode => exact ih fun op hop => hops op (.tail _ hop)

theorem boundNamesAll_append (seen : List String) (a b : List Op) :
    boundNamesAll seen (a ++ b) = boundNamesAll (boundNamesAll seen a) b := by
  induction a generalizing seen with
  | nil => rfl
  | cons op a ih => exact ih (boundNames seen op)

theorem boundNamesAll_pushValues (seen : List String) (values : List (Option Constant)) :
    boundNamesAll seen (values.map .pushValue) = seen := by
  induction values with
  | nil => rfl
  | cons o values ih => exact ih

/-- The node that holds a constant, with the components of the constant as its arguments, runs in any
state and pushes one socket. The marks behind it set its value and its label. -/
theorem pushesSingle_node (values : List (Option Constant)) {node : NodeSpec} {type : SocketType}
    {marks : List Op} (hl : values.length = node.inputs.length) (ho : node.outputs.length = 1)
    (hmarks : ∀ op ∈ marks, Marks op) :
    PushesSingle (values.map .pushValue ++ .callBuiltin node [type] :: marks) := by
  constructor
  · intro m
    have hargs : ∀ i ∈ values.map itemOf, i = .empty ∨ i.Single := by
      intro i hi
      obtain ⟨o, -, rfl⟩ := List.mem_map.1 hi
      exact itemOf_connects o
    obtain ⟨m₁, id, hcall, hpushed, hframe, hnew, hlt⟩ := callBuiltin_runs
      { m with stack := (values.map itemOf).reverse ++ m.stack } node [type] (values.map itemOf) rfl
      (by simpa using hl) hargs ho.symm
    obtain ⟨i, hi, hstack⟩ := hpushed.exists_of_pos Nat.one_ne_zero
    obtain ⟨t, ht⟩ := marks_run hmarks hnew hlt
    refine ⟨{ m₁ with tree := t }, i, ?_, hi.single_of_one, hstack,
      ⟨hframe.env, hframe.outputs, hframe.groups⟩⟩
    rw [runOps_append, pushValues_run]
    exact run_bind_ok.2 ⟨_, rfl, run_bind_ok.2 ⟨m₁, hcall, ht⟩⟩
  · intro seen
    rw [boundNamesAll_append, boundNamesAll_pushValues]
    exact boundNamesAll_marks hmarks seen

/-- A constant of a supported type has a node that holds it, and the ops for this node run in any
state. There is a case for each type of constant and each kind of tree. -/
theorem constantInput_runs {tree : TreeKind} {v : Constant} (name : String)
    (h : tree.supportsConstant v.type = true) :
    ∃ ops, tree.constantInput name v = .ok ops ∧ PushesSingle ops := by
  have hname : ∀ op ∈ [Op.renameNode name], Marks op := fun op hop => by
    cases List.mem_singleton.1 hop
    exact .renameNode name
  have hset : ∀ w, ∀ op ∈ [Op.setOutput 0 w, .renameNode name], Marks op := fun w =>
    List.forall_mem_cons.2 ⟨.setOutput 0 w, hname⟩
  cases tree with
  | shader =>
    cases v with
    | bool | int | float | rgba => exact ⟨_, rfl, pushesSingle_node [] rfl rfl (hset _)⟩
    | vec3 x y z =>
      exact ⟨_, rfl, pushesSingle_node [some (.float x), some (.float y), some (.float z)] rfl rfl hname⟩
    | str => cases h
  | geometry =>
    cases v with
    | float => exact ⟨_, rfl, pushesSingle_node [] rfl rfl (hset _)⟩
    | bool | int | vec3 | rgba | str => exact ⟨_, rfl, pushesSingle_node [] rfl rfl hname⟩

/-! ### Components -/

/-- The node that splits a value has one input and several outputs, and there is a node that joins as
many parts or fewer into one value. -/
theorem separate_join {tree : TreeKind} {type : SocketType} {split : Overload}
    (h : tree.separate type = some split) :
    (split.node.inputs.length = 1 ∧ 2 ≤ split.outputs.length ∧
      split.outputs.length = split.node.outputs.length) ∧
    ∃ join, tree.combine type = some join ∧ join.inputs.length = join.node.inputs.length ∧
      join.outputs.length = 1 ∧ join.node.outputs.length = 1 ∧
      join.inputs.length ≤ split.outputs.length := by
  have key : ∀ t ∈ SocketType.all, ∀ split ∈ tree.separate t,
      (split.node.inputs.length = 1 ∧ 2 ≤ split.outputs.length ∧
        split.outputs.length = split.node.outputs.length) ∧
      (tree.combine t).any (fun join => join.inputs.length = join.node.inputs.length ∧
        join.outputs.length = 1 ∧ join.node.outputs.length = 1 ∧
        join.inputs.length ≤ split.outputs.length) = true := by
    cases tree <;> decide +kernel
  obtain ⟨hsplit, hjoin⟩ := key type (SocketType.mem_all type) split h
  refine ⟨hsplit, ?_⟩
  cases hc : tree.combine type with
  | none => rw [hc] at hjoin; cases hjoin
  | some join =>
    rw [hc] at hjoin
    exact ⟨join, rfl, by simpa using hjoin⟩

/-- Splitting a value on the stack runs and pushes the bundle of its parts, which are as many as the
node has outputs. -/
theorem split_runs {tree : TreeKind} {type : SocketType} {split : Overload}
    (h : tree.separate type = some split) {i : Item} {rest : List Item} (hi : i.Single)
    (hs : m.stack = i :: rest) :
    ∃ m' items, runOp split.op m = .ok m' ∧ items.length = split.outputs.length ∧
      (∀ j ∈ items, j.Single) ∧ m'.stack = .bundle items :: rest ∧ Frame m m' := by
  obtain ⟨⟨hin, htwo, hout⟩, -⟩ := separate_join h
  obtain ⟨m', -, hcall, hpushed, hframe, -, -⟩ := callBuiltin_runs m split.node split.outputTypes
    [i] hs hin.symm
    (fun j hj => by cases List.mem_singleton.1 hj; exact .inr hi)
    (by rw [Overload.outputTypes, List.length_map, hout])
  have hlen : split.outputTypes.length = split.outputs.length := by simp [Overload.outputTypes]
  rw [hlen] at hpushed
  obtain ⟨j, hj, hstack⟩ := hpushed.exists_of_pos (by omega)
  obtain ⟨items, rfl, hitems, hsingle⟩ := hj.exists_bundle htwo
  exact ⟨m', items, hcall, hitems, hsingle, hstack, hframe⟩

theorem getOutput_runs {items rest : List Item} {index : Nat} {part : Item}
    (hs : m.stack = .bundle items :: rest) (hp : items[index]? = some part) :
    m.getOutput index = .ok { m with stack := part :: rest } := by
  have hpop : m.pop = .ok (.bundle items, { m with stack := rest }) := by rw [pop, hs]
  unfold getOutput
  rw [bind_of_ok hpop]
  simp only [hp]
  rfl

theorem getVar_runs {x : String} {i : Item} (h : m.env.get? x = some i) :
    runOp (.getVar x) m = .ok (m.push i) := by
  rw [runOp, get, h]
  rfl

theorem bindVar_runs {x : String} {i : Item} {rest : List Item} (h : m.stack = i :: rest) :
    runOp (.bindVar x) m = .ok { m with stack := rest, env := m.env.insert x i } := by
  rw [runOp, pop, h]
  rfl

/-- Reading a component of a variable runs, binds no variable, and pushes one single value. The
variable holds a single value, which is split by a node. -/
theorem readOps_run {k : Component} {tree : TreeKind} {type : SocketType} (hk : k.Of tree type)
    (source : String) : ∃ ops, k.readOps tree source = .ok ops ∧
      (∀ seen, boundNamesAll seen ops = seen) ∧
      ∀ m i, m.env.get? source = some i → i.Single →
        ∃ m' j, runOps ops m = .ok m' ∧ j.Single ∧ m'.stack = j :: m.stack ∧ Frame m m' := by
  obtain ⟨rfl, split, hsplit, hlt⟩ := hk
  refine ⟨[.getVar source, split.op, .getOutput k.index], by rw [Component.readOps, hsplit],
    fun _ => rfl, fun m i hx hi => ?_⟩
  obtain ⟨m₁, items, hop, hlen, hsingle, hstack, hframe⟩ := split_runs (m := m.push i) hsplit hi rfl
  have hget : items[k.index]? = some (items[k.index]) := List.getElem?_eq_getElem (by omega)
  refine ⟨{ m₁ with stack := items[k.index] :: m.stack }, items[k.index], ?_,
    hsingle _ (List.getElem_mem _), rfl, ?_⟩
  · exact run_bind_ok.2 ⟨_, getVar_runs hx, run_bind_ok.2 ⟨_, hop,
      run_bind_ok.2 ⟨_, getOutput_runs hstack hget, rfl⟩⟩⟩
  · exact ⟨hframe.env, hframe.outputs, hframe.groups⟩

/-- The ops for the parts of a value of which one is replaced. -/
def partOps (object value : String) (index i : Nat) : List Op :=
  if i = index then [.getVar value] else [.getVar object, .getOutput i]

/-- The parts that are pushed are those of the value, with one exchanged for the new component. The
induction is on how many are pushed. -/
theorem partOps_push {object value : String} {items : List Item} {j : Item}
    (ho : m.env.get? object = some (.bundle items)) (hv : m.env.get? value = some j) (index : Nat)
    {n : Nat} (hn : n ≤ items.length) :
    runOps ((List.range n).flatMap (partOps object value index)) m =
      .ok { m with stack := ((items.set index j).take n).reverse ++ m.stack } := by
  induction n with
  | zero => rfl
  | succ n ih =>
    let m₁ : Machine := { m with stack := ((items.set index j).take n).reverse ++ m.stack }
    have hlt : n < (items.set index j).length := by
      rw [List.length_set]
      exact hn
    have hone : runOps (partOps object value index n) m₁ =
        .ok (m₁.push (items.set index j)[n]) := by
      unfold partOps
      split
      next heq =>
        subst heq
        rw [List.getElem_set_self]
        exact run_bind_ok.2 ⟨_, getVar_runs (m := m₁) hv, rfl⟩
      next hne =>
        have hget : items[n]? = some (items.set index j)[n] := by
          rw [List.getElem_set_ne (Ne.symm hne)]
          exact List.getElem?_eq_getElem hn
        exact run_bind_ok.2 ⟨_, getVar_runs (m := m₁) ho,
          run_bind_ok.2 ⟨_, getOutput_runs rfl hget, rfl⟩⟩
    rw [List.range_succ, List.flatMap_append, runOps_append, ih (Nat.le_of_succ_le hn),
      List.flatMap_singleton]
    refine hone.trans ?_
    have htake : (items.set index j).take (n + 1) =
        (items.set index j).take n ++ [(items.set index j)[n]] := by
      rw [List.take_add_one, List.getElem?_eq_getElem hlt]
      rfl
    rw [htake, List.reverse_append]
    rfl

/-- Pushing the components of a bundle with one of them exchanged pushes as many single values as
asked for, by induction on their number. -/
theorem partOps_run {object value : String} {items : List Item} {j : Item}
    (ho : m.env.get? object = some (.bundle items)) (hitems : ∀ i ∈ items, i.Single)
    (hv : m.env.get? value = some j) (hj : j.Single) (index : Nat) {n : Nat} (hn : n ≤ items.length) :
    ∃ parts : List Item, parts.length = n ∧ (∀ i ∈ parts, i.Single) ∧
      runOps ((List.range n).flatMap (partOps object value index)) m =
        .ok { m with stack := parts.reverse ++ m.stack } := by
  refine ⟨(items.set index j).take n, by simp [hn], fun i hi => ?_, partOps_push ho hv index hn⟩
  rcases List.mem_or_eq_of_mem_set (List.mem_of_mem_take hi) with hi | rfl
  · exact hitems i hi
  · exact hj

theorem boundNamesAll_partOps (object value : String) (index : Nat) (is : List Nat)
    (seen : List String) : boundNamesAll seen (is.flatMap (partOps object value index)) = seen := by
  induction is with
  | nil => rfl
  | cons i is ih =>
    rw [List.flatMap_cons, boundNamesAll_append]
    have hpart : boundNamesAll seen (partOps object value index i) = seen := by
      unfold partOps
      split <;> rfl
    rw [hpart, ih]

/-- Replacing a component of a variable runs: the vector is split, its parts are pushed with one of
them exchanged, and they are joined again. It binds the object to the parts and the target to the
result. -/
theorem writeOps_run {k : Component} {tree : TreeKind} {type : SocketType} (hk : k.Of tree type)
    (target object value : String) : ∃ ops, k.writeOps tree target object value = .ok ops ∧
      (∀ seen, boundNamesAll seen ops = boundNamesAll seen [.bindVar object, .bindVar target]) ∧
      ∀ m i j, m.env.get? object = some i → i.Single → m.env.get? value = some j → j.Single →
        object ≠ value → ∃ m' items i', runOps ops m = .ok m' ∧ i'.Single ∧
          m'.env = (m.env.insert object (.bundle items)).insert target i' ∧ m'.stack = m.stack ∧
          m'.outputs = m.outputs ∧ m'.groups = m.groups := by
  obtain ⟨rfl, split, hsplit, -⟩ := hk
  obtain ⟨-, join, hjoin, hin, hone, hnode, hle⟩ := separate_join hsplit
  refine ⟨[.getVar object, split.op, .bindVar object] ++
      (List.range join.inputs.length).flatMap (partOps object value k.index) ++
      [join.op, .bindVar target], ?_, fun seen => ?_, fun m i j hx hi hv hj hne => ?_⟩
  · rw [Component.writeOps, hsplit, hjoin]
    rfl
  · have hparts : ∀ seen, boundNamesAll seen
        ((List.range join.inputs.length).flatMap (partOps object value k.index)) = seen :=
      boundNamesAll_partOps object value k.index _
    simp only [boundNamesAll_append, hparts]
    rfl
  · obtain ⟨m₁, items, hop, hlen, hsingle, hstack, hframe⟩ := split_runs (m := m.push i) hsplit hi rfl
    let m₂ : Machine := { m₁ with stack := m.stack, env := m₁.env.insert object (.bundle items) }
    have hfirst : runOps [.getVar object, split.op, .bindVar object] m = .ok m₂ :=
      run_bind_ok.2 ⟨_, getVar_runs hx, run_bind_ok.2 ⟨_, hop,
        run_bind_ok.2 ⟨_, bindVar_runs hstack, rfl⟩⟩⟩
    have hobject : m₂.env.get? object = some (.bundle items) := by simp [m₂, Table.get?_insert]
    have hvalue : m₂.env.get? value = some j := by
      simp only [m₂, Table.get?_insert, if_neg (Ne.symm hne), hframe.env]
      exact hv
    obtain ⟨parts, hpl, hps, hprun⟩ :=
      partOps_run hobject hsingle hvalue hj k.index (n := join.inputs.length) (by omega)
    obtain ⟨m₃, -, hcall, hpushed, hframe₃, -, -⟩ := callBuiltin_runs
      { m₂ with stack := parts.reverse ++ m₂.stack } join.node join.outputTypes parts rfl
      (by omega) (fun i hi => .inr (hps i hi)) (by simp [Overload.outputTypes, hone, hnode])
    have hwidth : join.outputTypes.length = 1 := by simp [Overload.outputTypes, hone]
    rw [hwidth] at hpushed
    obtain ⟨i', hi', hstack'⟩ := hpushed.exists_of_pos Nat.one_ne_zero
    refine ⟨{ m₃ with stack := m₂.stack, env := m₃.env.insert target i' }, items, i', ?_,
      hi'.single_of_one, ?_, rfl, ?_, ?_⟩
    · rw [runOps_append, runOps_append, hfirst]
      exact run_bind_ok.2 ⟨_, hprun, run_bind_ok.2 ⟨_, hcall,
        run_bind_ok.2 ⟨_, bindVar_runs hstack', rfl⟩⟩⟩
    · simp only [hframe₃.env, m₂, hframe.env]
      rfl
    · simp only [hframe₃.outputs, m₂, hframe.outputs]
      rfl
    · simp only [hframe₃.groups, m₂, hframe.groups]
      rfl

end Machine

end NodeFormula

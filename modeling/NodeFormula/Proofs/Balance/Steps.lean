import NodeFormula.Proofs.Graph.Appending
import NodeFormula.Proofs.Zones.Entering

/-!
# Steps that push values

What single ops, and the ops for one purpose, do to a machine in any state from which they run: the item
that they push, the variables that they bind, and that nodes and links are only added. No assumption is
made on the groups that are finished or on the variables of the machine.

An item is plain if it is no bundle. `Item.Covers i n` says that `i` stands for `n` outputs, and
`Machine.Keeps` what ops that push a value leave of the machine.
-/

namespace NodeFormula

open Machine

/-! ### Shapes -/

/-- An item that is no bundle. -/
def Item.Plain (i : Item) : Prop := i = .empty ∨ i.Single

/-- An item for `n` outputs: a plain one, or a bundle of several plain ones. -/
inductive Item.Covers : Item → Nat → Prop where
  | plain {i : Item} : i.Plain → Covers i 1
  | bundle {items : List Item} : 2 ≤ items.length → (∀ i ∈ items, i.Plain) →
      Covers (.bundle items) items.length

/-- An item has the shape of a type: a bundle has one plain item for each output, and a single value is
plain. -/
inductive Item.Shaped : Item → VarType → Prop where
  | single {i : Item} {t : VarType} : t.shape = .single → i.Plain → Shaped i t
  | bundle {items : List Item} {t : VarType} : t.shape = .bundle → items.length = t.types.length →
      (∀ i ∈ items, i.Plain) → Shaped (.bundle items) t

theorem Item.not_plain_bundle (items : List Item) : ¬ (Item.bundle items).Plain := by
  rintro (h | h) <;> cases h

theorem Item.Single.plain {i : Item} (h : i.Single) : i.Plain := .inr h

theorem Item.plain_socket (s : Socket) : (Item.socket s).Plain := .inr (.socket s)

/-- An item that has a type is plain. -/
theorem Item.plain_of_type? {i : Item} {τ : SocketType} (h : i.type? = some τ) : i.Plain := by
  cases i with
  | empty | bundle => cases h
  | constant v => exact .inr (.constant v)
  | socket s => exact .inr (.socket s)

theorem plain_itemOf (o : Option Constant) : (itemOf o).Plain := itemOf_connects o

namespace Item.Covers

variable {i : Item} {n : Nat}

theorem plain_of_one (h : i.Covers 1) : i.Plain := by
  generalize hn : 1 = n at h
  cases h with
  | plain h => exact h
  | bundle h => omega

theorem exists_bundle (h : i.Covers n) (hn : 2 ≤ n) :
    ∃ items, i = .bundle items ∧ items.length = n ∧ ∀ j ∈ items, j.Plain := by
  cases h with
  | plain => omega
  | @bundle items _ hs => exact ⟨items, rfl, rfl, hs⟩

/-- A plain item stands for one output. -/
theorem eq_one (h : i.Covers n) (hi : i.Plain) : n = 1 := by
  cases h with
  | plain => rfl
  | bundle => exact absurd hi (Item.not_plain_bundle _)

/-- An item that stands for the outputs of a proper type has the shape of the type. -/
theorem shaped {t : VarType} (hp : t.Proper) (h : i.Covers t.types.length) : i.Shaped t := by
  cases hshape : t.shape with
  | bundle =>
    obtain ⟨items, rfl, hlen, hitems⟩ := h.exists_bundle (hp.shape.1 hshape)
    exact .bundle hshape hlen hitems
  | single =>
    refine .single hshape ?_
    generalize hn : t.types.length = n at h
    cases h with
    | plain hi => exact hi
    | bundle htwo =>
      rw [hp.shape.2 (hn ▸ htwo)] at hshape
      cases hshape

end Item.Covers

theorem Item.Shaped.covers {i : Item} {t : VarType} (hp : t.Proper) (hne : t.types ≠ [])
    (h : i.Shaped t) : i.Covers t.types.length := by
  cases h with
  | single hshape hi =>
    rw [hp.length_eq_one hshape hne]
    exact .plain hi
  | bundle hshape hlen hitems =>
    have htwo := hp.shape.1 hshape
    rw [← hlen] at htwo ⊢
    exact .bundle htwo hitems

theorem Item.TypedAs.plain {R : SocketType → SocketType → Prop} {i : Item} {τ : SocketType}
    (h : i.TypedAs R τ) : i.Plain :=
  h.single.plain

theorem plain_of_typedAs {R : SocketType → SocketType → Prop} {items : List Item}
    {types : List SocketType} (h : List.Forall₂ (Item.TypedAs R) items types) :
    ∀ i ∈ items, i.Plain := by
  induction h with
  | nil => exact List.forall_mem_nil _
  | cons hi _ ih => exact List.forall_mem_cons.2 ⟨hi.plain, ih⟩

/-- A value of known types stands for as many outputs. -/
theorem Item.Fits.covers {R : SocketType → SocketType → Prop} {i : Item} {types : List SocketType}
    (h : i.Fits R types) : i.Covers types.length := by
  cases h with
  | single hi => exact .plain hi.plain
  | @bundle items _ htwo hitems =>
    rw [← hitems.length_eq] at htwo ⊢
    exact .bundle htwo (plain_of_typedAs hitems)

namespace Machine

variable {m m' m₁ : Machine} {ops : List Op}

/-- The machine has pushed an item for `n` outputs on a stack, which is nothing for none. -/
def PushedFor (n : Nat) (stack : List Item) (m : Machine) : Prop :=
  (n = 0 ∧ m.stack = stack) ∨ ∃ i, i.Covers n ∧ m.stack = i :: stack

theorem PushedFor.exists_of_pos {n : Nat} {stack : List Item} (h : PushedFor n stack m)
    (hn : n ≠ 0) : ∃ i, i.Covers n ∧ m.stack = i :: stack := by
  rcases h with ⟨h, -⟩ | h
  · exact absurd h hn
  · exact h

theorem pushedFor_of_pushedAs {R : SocketType → SocketType → Prop} {types : List SocketType}
    {stack : List Item} (h : PushedAs R types stack m) : PushedFor types.length stack m := by
  rcases h with ⟨rfl, hs⟩ | ⟨i, hi, hs⟩
  · exact .inl ⟨rfl, hs⟩
  · exact .inr ⟨i, hi.covers, hs⟩

theorem pushedFor_pushOutputs {items : List Item} (h : ∀ i ∈ items, i.Plain) :
    PushedFor items.length m.stack (m.pushOutputs items) := by
  rcases items with _ | ⟨a, _ | ⟨b, items⟩⟩
  · exact .inl ⟨rfl, rfl⟩
  · exact .inr ⟨a, .plain (h a (.head _)), rfl⟩
  · exact .inr ⟨_, .bundle (by simp) h, rfl⟩

/-! ### What is kept -/

/-- A variable is bound to a node for a free variable, which has been added behind `n` others. -/
def Instantiates (m : Machine) (n : Nat) (x : String) : Prop :=
  ∃ id, n ≤ id ∧ m.env.get? x = some (.socket ⟨id, 0, .float⟩) ∧
    m.tree.nodes[id]? = some { id, key := "NodeReroute", label := some x }

/-- A run that binds the variables `created` to new nodes and leaves all others, the outputs of the
running definition, and the nodes, links and groups that there were. -/
structure Keeps (created : List String) (m m' : Machine) : Prop where
  env : ∀ x, x ∉ created → m'.env.get? x = m.env.get? x
  created : ∀ x ∈ created, m'.Instantiates m.tree.nodes.size x
  outputs : m'.outputs = m.outputs
  appends : Appends none m m'

theorem Appends.getElem? (h : Appends none m m') {id : NodeId} {n : Node}
    (hn : m.tree.nodes[id]? = some n) : m'.tree.nodes[id]? = some n := by
  obtain ⟨n', hn', -, hsame⟩ := h.tree.nodes id n hn
  rw [hn', hsame (Option.some_ne_none _).symm]

theorem Appends.size_le (h : Appends none m m') : m.tree.nodes.size ≤ m'.tree.nodes.size :=
  h.tree.size_le

/-- Where the newest node is a new one, a run that goes on leaves the nodes of the start. -/
theorem Appends.then_grows {id : NodeId} (h : Appends none m m₁) (hid : m₁.newest = some id)
    (hnew : m.tree.nodes.size ≤ id) (h₁ : m₁.Grows m') : Appends none m m' := by
  refine ⟨h.tree.trans h₁.tree fun i hi hmarked => ?_, h.groups.trans h₁.groups⟩
  rw [hid] at hmarked
  cases hmarked
  exact absurd hi (Nat.not_lt_of_le hnew)

namespace Keeps

variable {created created' : List String}

theorem of_frame (hframe : Frame m m') (happends : Appends none m m') : Keeps [] m m' :=
  ⟨fun x _ => by rw [hframe.env], List.forall_mem_nil _, hframe.outputs, happends⟩

/-- A step that leaves all but the stack. -/
theorem of_stack (m : Machine) (stack : List Item) : Keeps [] m { m with stack } :=
  of_frame ⟨rfl, rfl, rfl⟩ (.of_eq rfl rfl)

/-- Two runs in a row bind the variables of both. What the second leaves of the first is that the
nodes of the first stay. -/
theorem trans (h₁ : Keeps created m m₁) (h₂ : Keeps created' m₁ m') :
    Keeps (created ++ created') m m' := by
  refine ⟨fun x hx => ?_, fun x hx => ?_, h₂.outputs.trans h₁.outputs, h₁.appends.trans h₂.appends⟩
  · rw [List.mem_append, not_or] at hx
    rw [h₂.env x hx.2, h₁.env x hx.1]
  · by_cases hx₂ : x ∈ created'
    · obtain ⟨id, hle, hrest⟩ := h₂.created x hx₂
      exact ⟨id, Nat.le_trans h₁.appends.size_le hle, hrest⟩
    · have hx₁ : x ∈ created := (List.mem_append.1 hx).resolve_right hx₂
      obtain ⟨id, hle, hget, hnode⟩ := h₁.created x hx₁
      exact ⟨id, hle, (h₂.env x hx₂).trans hget, h₂.appends.getElem? hnode⟩

/-- A step after which every variable is bound as before. -/
theorem then_same (h : Keeps created m m₁) (henv : ∀ x, m'.env.get? x = m₁.env.get? x)
    (houtputs : m'.outputs = m₁.outputs) (happends : Appends none m₁ m') : Keeps created m m' := by
  have hstep : Keeps [] m₁ m' := ⟨fun x _ => henv x, List.forall_mem_nil _, houtputs, happends⟩
  have hall := h.trans hstep
  rwa [List.append_nil] at hall

theorem then_frame (h : Keeps created m m₁) (hframe : Frame m₁ m')
    (happends : Appends none m₁ m') : Keeps created m m' :=
  h.then_same (fun x => by rw [hframe.env]) hframe.outputs happends

end Keeps

/-- A variable that was not bound and is bound for a while is as if it had never been. -/
theorem get?_erase_insert {env : Table String Item} {temp : String} (hgone : env.get? temp = none)
    (i : Item) (x : String) : ((env.insert temp i).erase temp).get? x = env.get? x := by
  rw [Table.get?_erase, Table.get?_insert]
  by_cases hx : x = temp
  · rw [if_pos hx, hx, hgone]
  · rw [if_neg hx, if_neg hx]

end Machine

/-! ### Ops that mark no node -/

/-- An op that marks no node and has no ops of its own that could. -/
def Op.Adds : Op → Prop
  | .setOutput _ _ | .renameNode _ | .callFunction _ _ _ _ | .zone _ => False
  | _ => True

namespace Machine

variable {m m' m₁ : Machine} {op : Op} {ops : List Op}

/-- An op that marks no node leaves the nodes, links and groups that there were. Each op either adds
a node behind the others, or feeds a new one, or does not touch the tree. -/
theorem runOp_appends (hop : op.Adds) (h : runOp op m = .ok m') : Appends none m m' := by
  cases op with
  | setOutput | renameNode | callFunction | zone => cases hop
  | createVar x => exact .createVar h
  | callBuiltin node types => exact .callBuiltin h
  | callGroup name inputs outputs body =>
    exact .callGroup (runOps_grows body).appendsGroups h
  | pushValue v => cases v <;> cases h <;> exact .of_eq rfl rfl
  | destroyVar x | endOfStatement =>
    cases h
    exact .of_eq rfl rfl
  | getVar x =>
    obtain ⟨_, -, rfl⟩ := getVar_ok h
    exact .of_eq rfl rfl
  | bindVar x =>
    obtain ⟨_, _, -, rfl⟩ := bindVar_ok h
    exact .of_eq rfl rfl
  | getOutput k =>
    obtain ⟨_, _, _, -, -, rfl⟩ := getOutput_ok h
    exact .of_eq rfl rfl
  | setFunctionOut k =>
    obtain ⟨_, _, -, rfl⟩ := setFunctionOut_ok h
    exact .of_eq rfl rfl
  | splitStruct =>
    obtain ⟨_, _, -, rfl⟩ := splitBundle_ok h
    exact .of_eq rfl rfl
  | pop =>
    obtain ⟨_, _, -, rfl⟩ := runOp_pop_ok h
    exact .of_eq rfl rfl

/-- Ops that mark no node leave every node and link. -/
theorem runOps_appends (hops : ∀ op ∈ ops, op.Adds) (h : runOps ops m = .ok m') :
    Appends none m m' := by
  induction ops generalizing m with
  | nil =>
    cases h
    exact .of_eq rfl rfl
  | cons op ops ih =>
    obtain ⟨m₁, h₁, h⟩ := runOps_cons_ok.1 h
    have hfirst := runOp_appends (hops op (.head _)) h₁
    exact hfirst.trans (ih (fun op hop => hops op (.tail _ hop)) h)

end Machine

theorem Component.adds_readOps {k : Component} {tree : TreeKind} {source : String} {ops : List Op}
    (h : k.readOps tree source = .ok ops) : ∀ op ∈ ops, op.Adds := by
  unfold readOps at h
  split at h
  next =>
    cases h
    simp [Op.Adds, Overload.op]
  next => cases h

/-- Rebuilding a vector around one new component marks no node. It reads and binds variables, and
calls the nodes that split and join. -/
theorem Component.adds_writeOps {k : Component} {tree : TreeKind} {target object value : String}
    {ops : List Op} (h : k.writeOps tree target object value = .ok ops) : ∀ op ∈ ops, op.Adds := by
  unfold writeOps at h
  split at h
  next => cases h
  next => cases h
  next =>
    cases h
    refine List.forall_mem_append.2 ⟨List.forall_mem_append.2 ⟨?_, fun op hop => ?_⟩, ?_⟩
    · simp [Op.Adds, Overload.op]
    · obtain ⟨i, -, hop⟩ := List.mem_flatMap.1 hop
      exact (show ∀ op ∈ _, op.Adds by split <;> simp [Op.Adds]) op hop
    · simp [Op.Adds, Overload.op]

theorem Lower.adds_store (target : TypedTarget) : (Lower.store target).Adds := by
  cases target <;> trivial

theorem adds_unpackOps (targets : List TypedTarget) (parts : Nat) :
    ∀ op ∈ unpackOps targets parts, op.Adds := by
  intro op hop
  rcases List.mem_append.1 hop with hop | hop
  · rcases List.mem_cons.1 hop with rfl | hop
    · trivial
    · cases List.eq_of_mem_replicate hop
      trivial
  · obtain ⟨target, -, rfl⟩ := List.mem_map.1 hop
    exact Lower.adds_store target

namespace Machine

variable {m m' m₁ : Machine} {ops : List Op}

/-! ### Constants -/

/-- The ops for a constant are those of one node, which then gets its value and its label. All kinds
of constants and trees are of this form, so later proofs need not tell them apart. -/
theorem constantInput_shape {tree : TreeKind} {name : String} {v : Constant}
    (h : tree.constantInput name v = .ok ops) : ∃ (values : List (Option Constant)) (node : NodeSpec)
      (type : SocketType) (marks : List Op), values.length = node.inputs.length ∧
      node.outputs.length = 1 ∧ node.key ≠ "NodeReroute" ∧ (∀ op ∈ marks, Marks op) ∧
      ops = values.map .pushValue ++ .callBuiltin node [type] :: marks := by
  have hname : ∀ op ∈ [Op.renameNode name], Marks op := fun op hop => by
    cases List.mem_singleton.1 hop
    exact .renameNode name
  have hset : ∀ w, ∀ op ∈ [Op.setOutput 0 w, .renameNode name], Marks op := fun w =>
    List.forall_mem_cons.2 ⟨.setOutput 0 w, hname⟩
  cases tree with
  | shader =>
    cases v with
    | bool | int | float | rgba =>
      cases h
      exact ⟨[], _, _, _, rfl, rfl, by simp, hset _, rfl⟩
    | vec3 x y z =>
      cases h
      exact ⟨[some (.float x), some (.float y), some (.float z)], _, _, _, rfl, rfl, by simp, hname, rfl⟩
    | str => cases h
  | geometry =>
    cases v with
    | float =>
      cases h
      exact ⟨[], _, _, _, rfl, rfl, by simp, hset _, rfl⟩
    | bool | int | vec3 | rgba | str =>
      cases h
      exact ⟨[], _, _, _, rfl, rfl, by simp, hname, rfl⟩

/-- The input for a constant pushes one plain item and leaves all else. It labels its own node
only. -/
theorem constantInput_keeps {tree : TreeKind} {name : String} {v : Constant}
    (hops : tree.constantInput name v = .ok ops) (h : runOps ops m = .ok m') :
    Keeps [] m m' ∧ ∃ i, i.Plain ∧ m'.stack = i :: m.stack := by
  obtain ⟨values, node, type, marks, hvalues, hnode, -, hmarks, rfl⟩ := constantInput_shape hops
  obtain ⟨m'', i, hrun, hi, hs, hframe⟩ := (pushesSingle_node values hvalues hnode hmarks).runs m
  rw [h] at hrun
  cases hrun
  refine ⟨.of_frame hframe ?_, i, hi.plain, hs⟩
  rw [runOps_append, pushValues_run] at h
  obtain ⟨m₁, hcall, h⟩ := runOps_cons_ok.1 h
  -- The marks change the node that has just been added.
  have happends : Appends none m m₁ := by
    have hpushed := Keeps.of_stack m ((values.map itemOf).reverse ++ m.stack)
    exact hpushed.appends.trans (.callBuiltin hcall)
  obtain ⟨args, rest, -, -, -, rfl⟩ := callBuiltin_ok hcall
  exact happends.then_grows rfl (Nat.le_refl _) (runOps_grows marks _ _ h)

/-! ### Storing -/

/-- The machine after targets take items, the last target first. -/
def storeItems (m : Machine) : List (TypedTarget × Item) → Machine
  | [] => m
  | p :: pairs => (m.storeItems pairs).storeItem p.2 p.1

theorem storeItems_stack (m : Machine) (stack : List Item) (pairs : List (TypedTarget × Item)) :
    ({ m with stack } : Machine).storeItems pairs = { m.storeItems pairs with stack } := by
  induction pairs with
  | nil => rfl
  | cons p pairs ih =>
    rw [storeItems, ih, storeItems]
    cases p.1 <;> rfl

/-- Storing to targets, the last one first, stores to each the item at its place, as the last item is
on top of the stack. -/
theorem stores_ok {targets : List TypedTarget} {items rest : List Item}
    (hlen : targets.length = items.length) (hs : m.stack = items.reverse ++ rest)
    (h : runOps (targets.reverse.map Lower.store) m = .ok m') :
    m' = ({ m with stack := rest } : Machine).storeItems (targets.zip items) := by
  induction targets generalizing items rest m' with
  | nil =>
    cases List.length_eq_zero_iff.1 hlen.symm
    cases h
    cases m
    cases hs
    rfl
  | cons target targets ih =>
    rcases items with _ | ⟨i, items⟩
    · cases hlen
    rw [List.reverse_cons, List.map_append] at h
    obtain ⟨m₁, h₁, h⟩ := runOps_append_ok.1 h
    obtain ⟨m₂, hstore, h⟩ := runOps_cons_ok.1 h
    cases h
    have hm₁ : m₁ = ({ m with stack := i :: rest } : Machine).storeItems (targets.zip items) :=
      ih (Nat.succ.inj hlen) (by simpa using hs) h₁
    rw [storeItems_stack] at hm₁
    subst hm₁
    obtain ⟨i', rest', hs', rfl⟩ := store_ok hstore
    cases hs'
    rw [List.zip_cons_cons, storeItems, storeItems_stack m rest]

/-- The ops that unpack a bundle store its first parts in the targets. The parts beyond the targets
are on top of the stack, and are dropped first. -/
theorem unpackOps_ok {targets : List TypedTarget} {items rest : List Item}
    (hle : targets.length ≤ items.length) (hs : m.stack = .bundle items :: rest)
    (h : runOps (unpackOps targets items.length) m = .ok m') :
    m' = ({ m with stack := rest } : Machine).storeItems (targets.zip items) := by
  obtain ⟨m₁, hsplit, h⟩ := runOps_cons_ok.1 h
  obtain ⟨items', rest', hs', rfl⟩ := splitBundle_ok hsplit
  rw [hs] at hs'
  cases hs'
  obtain ⟨m₂, hpops, h⟩ := runOps_append_ok.1 h
  obtain rfl := pops_ok hpops
  have hdrop : (items.reverse ++ rest).drop (items.length - targets.length) =
      (items.take targets.length).reverse ++ rest := by
    rw [List.drop_append_of_le_length (by simp), List.drop_reverse]
    congr 3
    omega
  have hzip : targets.zip (items.take targets.length) = targets.zip items := by
    have htake : (targets.zip items).take targets.length =
        (targets.take targets.length).zip (items.take targets.length) := List.take_zipWith
    rw [List.take_length] at htake
    refine htake.symm.trans (List.take_of_length_le ?_)
    rw [List.length_zip]
    exact Nat.min_le_left ..
  rw [← hzip]
  exact stores_ok (m := { m with
      stack := (items.reverse ++ rest).drop (items.length - targets.length) })
    (by rw [List.length_take]; omega) hdrop h

/-! ### The first output -/

/-- A value with an output is reduced to the first one. A single value is left as it is, and of a
bundle one op takes the first part. -/
theorem firstOutput_plain {e : TypedExpr} {stack : List Item} (hp : e.varType.Proper)
    (hne : e.types ≠ []) (hpushed : PushedFor e.types.length stack m)
    (h : runOps (Lower.firstOutput e []) m = .ok m') :
    Frame m m' ∧ Appends none m m' ∧ ∃ i, i.Plain ∧ m'.stack = i :: stack := by
  obtain ⟨i, hi, hs⟩ := hpushed.exists_of_pos fun h => hne (List.length_eq_zero_iff.1 h)
  unfold Lower.firstOutput at h
  cases hshape : e.shape with
  | single =>
    rw [hshape] at h
    cases h
    have hone : e.types.length = 1 := hp.length_eq_one hshape hne
    rw [hone] at hi
    exact ⟨.refl _, .of_eq rfl rfl, i, hi.plain_of_one, hs⟩
  | bundle =>
    rw [hshape] at h
    obtain ⟨items, rfl, -, hitems⟩ := hi.exists_bundle (hp.shape.1 hshape)
    obtain ⟨m₁, hget, hend⟩ := runOps_cons_ok.1 h
    cases hend
    obtain ⟨items', rest, part, hs', hpart, rfl⟩ := getOutput_ok hget
    rw [hs] at hs'
    cases hs'
    exact ⟨⟨rfl, rfl, rfl⟩, .of_eq rfl rfl, part, hitems part (List.mem_of_getElem? hpart), rfl⟩

end Machine

end NodeFormula

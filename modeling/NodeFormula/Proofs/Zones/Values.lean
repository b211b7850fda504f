import Mathlib.Order.Defs.Unbundled
import NodeFormula.Proofs.Graph.Edit
import NodeFormula.Proofs.Running.Statement
import NodeFormula.Proofs.Zones.Entries

/-!
# The types of values in a run

The machine knows the types of the sockets and constants that it handles, and a call of a function
passes them on as they are, whatever types the function declares. So a value in a run need not have the
type that the formula has for it. `Item.Fits R` says that it has this type up to a relation `R`, which
is reflexive and transitive wherever it matters: equality, or the possibility to convert.

The steps of a run are inverted here for what they do to typed values and to the zones of the tree
(`NodeTree.zoneItems`).
-/

namespace NodeFormula

open Machine

variable {R : SocketType → SocketType → Prop}

/-! ### Typed items -/

/-- An item is a single value with a type that is related to `τ`. -/
def Item.TypedAs (R : SocketType → SocketType → Prop) (i : Item) (τ : SocketType) : Prop :=
  ∃ ρ, i.type? = some ρ ∧ R ρ τ

/-- An item has values of the given types up to `R`: one value, or a bundle of several. -/
inductive Item.Fits (R : SocketType → SocketType → Prop) : Item → List SocketType → Prop where
  | single {i : Item} {τ : SocketType} : i.TypedAs R τ → Fits R i [τ]
  | bundle {items : List Item} {types : List SocketType} : 2 ≤ types.length →
      List.Forall₂ (Item.TypedAs R) items types → Fits R (.bundle items) types

/-- An item of a type up to the relation is of every type related to it. -/
theorem Item.TypedAs.trans [IsTrans SocketType R] {i : Item} {τ τ' : SocketType} (h : i.TypedAs R τ)
    (hτ : R τ τ') : i.TypedAs R τ' :=
  let ⟨ρ, hi, hρ⟩ := h
  ⟨ρ, hi, IsTrans.trans _ _ _ hρ hτ⟩

/-- A single value of a type has it up to `R`. -/
theorem Item.TypedAs.of_eq [Std.Refl R] {i : Item} {τ : SocketType} (h : i.type? = some τ) :
    i.TypedAs R τ := ⟨τ, h, Std.Refl.refl τ⟩

namespace Item.Fits

variable {i : Item} {types : List SocketType} {τ : SocketType}

/-- Only a single value has a type. -/
theorem typedAs_of_type? (h : i.Fits R types) {ρ : SocketType} (hi : i.type? = some ρ) :
    ∃ τ, types = [τ] ∧ R ρ τ := by
  cases h with
  | @single _ τ hτ =>
    obtain ⟨ρ', hρ', hR⟩ := hτ
    rw [hi] at hρ'
    cases hρ'
    exact ⟨τ, rfl, hR⟩
  | bundle => cases hi

theorem typedAs_of_one (h : i.Fits R [τ]) : i.TypedAs R τ := by
  generalize htypes : [τ] = types at h
  cases h with
  | single hτ => cases htypes; exact hτ
  | bundle hlen =>
    rw [← htypes] at hlen
    exact absurd hlen (by simp)

theorem exists_bundle (h : i.Fits R types) (hlen : 2 ≤ types.length) :
    ∃ items, i = .bundle items ∧ List.Forall₂ (Item.TypedAs R) items types := by
  cases h with
  | single => exact absurd hlen (by simp)
  | @bundle items _ _ hitems => exact ⟨items, rfl, hitems⟩

end Item.Fits

/-- The outputs of a node are sockets of the types that the node is given. -/
theorem typedAs_nodeItems [Std.Refl R] (id : NodeId) {sockets : List Nat}
    {types : List SocketType} (hlen : types.length = sockets.length) :
    List.Forall₂ (Item.TypedAs R) (nodeItems id sockets types) types := by
  induction types generalizing sockets with
  | nil =>
    cases List.length_eq_zero_iff.1 hlen.symm
    exact .nil
  | cons τ types ih =>
    cases sockets with
    | nil => cases hlen
    | cons k sockets => exact .cons (.of_eq rfl) (ih (Nat.succ.inj hlen))

/-- Parts of typed items are typed: the item at a place is of the type at that place, up to the
relation. -/
theorem typedAs_getElem? {items : List Item} {types : List SocketType}
    (h : List.Forall₂ (Item.TypedAs R) items types) {k : Nat} {i : Item} {τ : SocketType}
    (hi : items[k]? = some i) (hτ : types[k]? = some τ) : i.TypedAs R τ := by
  induction h generalizing k with
  | nil => cases hi
  | cons hfirst _ ih =>
    cases k with
    | zero =>
      cases hi
      cases hτ
      exact hfirst
    | succ k => exact ih hi hτ

/-- The machine has pushed a value of the given types on a stack, which is nothing for no types. -/
def PushedAs (R : SocketType → SocketType → Prop) (types : List SocketType) (stack : List Item)
    (m : Machine) : Prop :=
  (types = [] ∧ m.stack = stack) ∨ ∃ i, i.Fits R types ∧ m.stack = i :: stack

theorem PushedAs.exists_of_ne {types : List SocketType} {stack : List Item} {m : Machine}
    (h : PushedAs R types stack m) (hne : types ≠ []) :
    ∃ i, i.Fits R types ∧ m.stack = i :: stack := by
  rcases h with ⟨h, -⟩ | h
  · exact absurd h hne
  · exact h

theorem pushedAs_pushOutputs {m : Machine} {items : List Item} {types : List SocketType}
    (h : List.Forall₂ (Item.TypedAs R) items types) :
    PushedAs R types m.stack (m.pushOutputs items) := by
  cases h with
  | nil => exact .inl ⟨rfl, rfl⟩
  | cons hfirst hrest =>
    cases hrest with
    | nil => exact .inr ⟨_, .single hfirst, rfl⟩
    | cons hsecond hrest => exact .inr ⟨_, .bundle (by simp) (.cons hfirst (.cons hsecond hrest)), rfl⟩

/-! ### Typed variables -/

/-- The variables in scope are bound to items that `F` relates to their types. -/
def EnvHolds (F : Item → VarType → Prop) (Γ : TypeEnv) (env : Table String Item) : Prop :=
  ∀ x t, Γ x = some t → ∃ i, env.get? x = some i ∧ F i t

namespace EnvHolds

variable {F : Item → VarType → Prop} {Γ : TypeEnv} {env : Table String Item} {x : String} {i : Item}

theorem empty (env : Table String Item) : EnvHolds F TypeEnv.empty env := fun _ _ hx => by cases hx

/-- Binding a variable to an item that suits its type, in the types and in the environment, keeps the
two together. -/
theorem insert (h : EnvHolds F Γ env) {t : VarType} (hi : F i t) :
    EnvHolds F (Γ.bind x t) (env.insert x i) := by
  intro y u hy
  rw [Table.get?_insert]
  by_cases hyx : y = x
  · subst hyx
    rw [TypeEnv.bind_self] at hy
    cases hy
    exact ⟨i, if_pos rfl, hi⟩
  · rw [TypeEnv.bind_of_ne hyx] at hy
    rw [if_neg hyx]
    exact h y u hy

/-- What holds of variables depends on what they are bound to. -/
theorem of_get? {env' : Table String Item} (h : EnvHolds F Γ env)
    (henv : ∀ y, Γ y ≠ none → env'.get? y = env.get? y) : EnvHolds F Γ env' := by
  intro y u hy
  rw [henv y (by rw [hy]; exact Option.some_ne_none u)]
  exact h y u hy

/-- A variable that is not in scope may be bound to anything. -/
theorem insert_other (h : EnvHolds F Γ env) (hx : Γ x = none) : EnvHolds F Γ (env.insert x i) := by
  refine h.of_get? fun y hy => ?_
  rw [Table.get?_insert, if_neg]
  rintro rfl
  exact hy hx

theorem erase_other (h : EnvHolds F Γ env) (hx : Γ x = none) : EnvHolds F Γ (env.erase x) := by
  refine h.of_get? fun y hy => ?_
  rw [Table.get?_erase, if_neg]
  rintro rfl
  exact hy hx

/-- A variable may be bound to another item for its type. -/
theorem rebind (h : EnvHolds F Γ env) (hi : ∀ t, Γ x = some t → F i t) :
    EnvHolds F Γ (env.insert x i) := by
  intro y u hy
  rw [Table.get?_insert]
  split
  next heq =>
    subst heq
    exact ⟨i, rfl, hi u hy⟩
  next => exact h y u hy

/-- The parameters of a definition are bound to the arguments. -/
theorem params (h : EnvHolds F Γ env) {inputs : List TypedParam} {args : List Item}
    (hargs : List.Forall₂ (fun i (p : TypedParam) => F i (.value p.type)) args inputs) :
    EnvHolds F (Γ.bindParams inputs) (env.insertAll ((inputs.map (·.name)).zip args)) := by
  induction hargs generalizing Γ env with
  | nil => exact h
  | cons harg _ ih => exact ih (h.insert harg)

/-- The variables of a zone's items are bound to sockets. -/
theorem items (h : EnvHolds F Γ env) (node : NodeId) (index : Nat) {items : List RepeatItem}
    (hitems : ∀ item ∈ items, ∀ t, Γ item.name = some t → ∀ k, F (.socket ⟨node, k, item.type⟩) t) :
    EnvHolds F Γ (env.insertAll (itemSockets node index items)) := by
  induction items generalizing env index with
  | nil => exact h
  | cons item items ih =>
    exact ih (h.rebind fun t ht => hitems item (.head _) t ht index) (index + 1)
      fun item' hitem' => hitems item' (.tail _ hitem')

end EnvHolds

/-- The variables in scope have values of their types up to `R`. -/
def EnvFits (R : SocketType → SocketType → Prop) (Γ : TypeEnv) (env : Table String Item) : Prop :=
  ∀ x t, Γ x = some t → ∃ i, env.get? x = some i ∧ i.Fits R t.types

namespace EnvFits

variable {Γ : TypeEnv} {env : Table String Item} {x : String} {i : Item}

theorem insert (h : EnvFits R Γ env) {t : VarType} (hi : i.Fits R t.types) :
    EnvFits R (Γ.bind x t) (env.insert x i) :=
  EnvHolds.insert (F := fun i t => i.Fits R t.types) h hi

/-- A variable that is not in scope may be bound to anything. -/
theorem insert_other (h : EnvFits R Γ env) (hx : Γ x = none) : EnvFits R Γ (env.insert x i) :=
  EnvHolds.insert_other h hx

theorem erase_other (h : EnvFits R Γ env) (hx : Γ x = none) : EnvFits R Γ (env.erase x) :=
  EnvHolds.erase_other h hx

/-- A variable may be bound to another value of its type. -/
theorem rebind (h : EnvFits R Γ env) (hi : ∀ t, Γ x = some t → i.Fits R t.types) :
    EnvFits R Γ (env.insert x i) :=
  EnvHolds.rebind h hi

/-- The parameters of a definition have the types of the arguments. -/
theorem params (h : EnvFits R Γ env) {inputs : List TypedParam} {args : List Item}
    (hargs : List.Forall₂ (fun i (p : TypedParam) => i.TypedAs R p.type) args inputs) :
    EnvFits R (Γ.bindParams inputs) (env.insertAll ((inputs.map (·.name)).zip args)) :=
  EnvHolds.params h (hargs.imp fun _ _ => .single)

end EnvFits

/-- The outputs of the running definition that are set have the given types up to `R`. -/
def OutputsFit (R : SocketType → SocketType → Prop) (types : List SocketType)
    (outputs : List Item) : Prop :=
  ∀ (k : Nat) (i : Item) (τ : SocketType), outputs[k]? = some i → types[k]? = some τ →
    i = .empty ∨ i.TypedAs R τ

/-- Setting an output to an item of its type keeps the outputs fitting. An output that the definition
does not have is not set at all. -/
theorem OutputsFit.set {types : List SocketType} {outputs : List Item}
    (h : OutputsFit R types outputs) {k : Nat} {i : Item}
    (hi : ∀ τ, types[k]? = some τ → i.TypedAs R τ) : OutputsFit R types (outputs.set k i) := by
  intro j item τ hitem hτ
  by_cases hj : k = j
  · subst hj
    have hlt : k < outputs.length := by simpa using (List.getElem?_eq_some_iff.1 hitem).1
    rw [List.getElem?_set_self hlt] at hitem
    cases hitem
    exact .inr (hi τ hτ)
  · rw [List.getElem?_set_ne hj] at hitem
    exact h j item τ hitem hτ

/-! ### Zones of a tree -/

namespace NodeTree

/-- The items of the zones of a tree, in the order in which the zones were entered. -/
def zoneItems (t : NodeTree) : List (List RepeatItem) :=
  t.nodes.toList.filterMap fun n => n.pairedWith.map fun _ => n.repeatItems

theorem zoneItems_push (t : NodeTree) {n : Node} (hn : n.pairedWith = none) :
    (t.push n).zoneItems = t.zoneItems := by
  simp [zoneItems, push, hn]

theorem zoneItems_addZone (t : NodeTree) (items : List RepeatItem) :
    (t.addZone items).zoneItems = t.zoneItems ++ [items] := by
  simp [zoneItems, addZone, push]

theorem zoneItems_modifyNode (t : NodeTree) (id : NodeId) {f : Node → Node}
    (hf : ∀ n, (f n).role = n.role) : (t.modifyNode id f).zoneItems = t.zoneItems := by
  refine filterMap_modifyNode t id fun n _ => ?_
  have hpaired : (f n).pairedWith = n.pairedWith := congrArg Role.pairedWith (hf n)
  have hitems : (f n).repeatItems = n.repeatItems := congrArg Role.repeatItems (hf n)
  rw [hpaired, hitems]

@[simp] theorem zoneItems_feedAll (t : NodeTree) (node : NodeId) (feeds : List (Nat × Item)) :
    (t.feedAll node feeds).zoneItems = t.zoneItems :=
  filterMap_feedAll (fun _ _ => rfl) t node feeds

end NodeTree

/-! ### Steps -/

/-- A step enters no zone and builds no group. -/
structure Quiet (m m' : Machine) : Prop where
  zones : m'.tree.zoneItems = m.tree.zoneItems
  groups : m'.groups = m.groups

/-- An op that only moves values on the stack or adds a node. -/
def Op.Silent : Op → Prop
  | .pushValue _ | .getVar _ | .getOutput _ | .setOutput _ _ | .splitStruct | .pop
  | .callBuiltin _ _ | .renameNode _ | .endOfStatement => True
  | _ => False

namespace Machine

variable {m m' m₁ : Machine} {op : Op} {ops : List Op}

theorem runOps_cons_ok : runOps (op :: ops) m = .ok m' ↔
    ∃ m₁, runOp op m = .ok m₁ ∧ runOps ops m₁ = .ok m' := run_bind_ok

theorem runOps_singleton_ok (h : runOps [op] m = .ok m') : runOp op m = .ok m' := by
  obtain ⟨m₁, h₁, h⟩ := runOps_cons_ok.1 h
  cases h
  exact h₁

theorem runOps_append_ok {more : List Op} : runOps (ops ++ more) m = .ok m' ↔
    ∃ m₁, runOps ops m = .ok m₁ ∧ runOps more m₁ = .ok m' := by
  rw [runOps_append]
  exact run_bind_ok

theorem quiet_refl (m : Machine) : Quiet m m := ⟨rfl, rfl⟩

theorem quiet_trans (h₁ : Quiet m m₁) (h₂ : Quiet m₁ m') : Quiet m m' :=
  ⟨h₂.zones.trans h₁.zones, h₂.groups.trans h₁.groups⟩

theorem getVar_ok {x : String} (h : runOp (.getVar x) m = .ok m') :
    ∃ i, m.env.get? x = some i ∧ m' = m.push i := by
  obtain ⟨i, hget, h⟩ := run_bind_ok.1 h
  cases h
  exact ⟨i, get_ok hget, rfl⟩

theorem bindVar_ok {x : String} (h : runOp (.bindVar x) m = .ok m') : ∃ i rest,
    m.stack = i :: rest ∧ m' = { m with stack := rest, env := m.env.insert x i } := by
  obtain ⟨⟨i, m₁⟩, hpop, h⟩ := run_bind_ok.1 h
  obtain ⟨rest, hs, rfl⟩ := pop_ok hpop
  cases h
  exact ⟨i, rest, hs, rfl⟩

theorem runOp_pop_ok (h : runOp .pop m = .ok m') :
    ∃ i rest, m.stack = i :: rest ∧ m' = { m with stack := rest } := by
  obtain ⟨⟨i, m₁⟩, hpop, h⟩ := run_bind_ok.1 h
  obtain ⟨rest, hs, rfl⟩ := pop_ok hpop
  cases h
  exact ⟨i, rest, hs, rfl⟩

/-- A silent op leaves variables, outputs, groups and zones alone, by cases on the op. A node that it
adds is none of a zone. -/
theorem runOp_silent (h : runOp op m = .ok m') (hop : op.Silent) :
    Frame m m' ∧ Quiet m m' := by
  cases op with
  | createVar | bindVar | destroyVar | setFunctionOut | callFunction | callGroup | zone => cases hop
  | pushValue v =>
    cases v <;> cases h <;> exact ⟨⟨rfl, rfl, rfl⟩, rfl, rfl⟩
  | endOfStatement =>
    cases h
    exact ⟨⟨rfl, rfl, rfl⟩, rfl, rfl⟩
  | getVar x =>
    obtain ⟨i, -, rfl⟩ := getVar_ok h
    exact ⟨⟨rfl, rfl, rfl⟩, rfl, rfl⟩
  | getOutput k =>
    obtain ⟨_, _, _, -, -, rfl⟩ := getOutput_ok h
    exact ⟨⟨rfl, rfl, rfl⟩, rfl, rfl⟩
  | setOutput | renameNode =>
    obtain ⟨id, rfl⟩ := modifyNewest_ok h
    exact ⟨⟨rfl, rfl, rfl⟩, NodeTree.zoneItems_modifyNode _ _ fun _ => rfl, rfl⟩
  | splitStruct =>
    obtain ⟨_, _, -, rfl⟩ := splitBundle_ok h
    exact ⟨⟨rfl, rfl, rfl⟩, rfl, rfl⟩
  | pop =>
    obtain ⟨_, _, -, rfl⟩ := runOp_pop_ok h
    exact ⟨⟨rfl, rfl, rfl⟩, rfl, rfl⟩
  | callBuiltin node types =>
    obtain ⟨args, rest, -, -, -, rfl⟩ := callBuiltin_ok h
    have hframe := pushOutputs_frame { m with
      stack := rest
      tree := (m.tree.push {
        id := m.tree.nodes.size
        key := node.key
        props := Table.insertAll ∅ node.props }).feedAll m.tree.nodes.size (node.inputs.zip args) }
      (nodeItems m.tree.nodes.size node.outputs types)
    refine ⟨⟨hframe.env, hframe.outputs, hframe.groups⟩, ?_, hframe.groups⟩
    rw [pushOutputs_tree]
    exact (NodeTree.zoneItems_feedAll ..).trans (NodeTree.zoneItems_push _ rfl)

/-- A run of ops that touch neither variables of the formula nor zones leaves both as they were. -/
theorem runOps_silent (h : runOps ops m = .ok m') (hops : ∀ op ∈ ops, op.Silent) :
    Frame m m' ∧ Quiet m m' := by
  induction ops generalizing m with
  | nil =>
    cases h
    exact ⟨.refl _, quiet_refl _⟩
  | cons op ops ih =>
    obtain ⟨m₁, h₁, h⟩ := runOps_cons_ok.1 h
    obtain ⟨hframe, hquiet⟩ := runOp_silent h₁ (hops op (.head _))
    obtain ⟨hframe', hquiet'⟩ := ih h fun op hop => hops op (.tail _ hop)
    exact ⟨hframe.trans hframe', quiet_trans hquiet hquiet'⟩

/-! ### Typed steps -/

/-- The node of a built-in function pushes values of the types that the call has for them. -/
theorem callBuiltin_pushes [Std.Refl R] {node : NodeSpec} {types : List SocketType}
    (h : m.callBuiltin node types = .ok m') : ∃ args rest : List Item,
      m.stack = args.reverse ++ rest ∧ args.length = node.inputs.length ∧
        PushedAs R types rest m' := by
  obtain ⟨args, rest, hs, hlen, hout, rfl⟩ := callBuiltin_ok h
  exact ⟨args, rest, hs, hlen, pushedAs_pushOutputs (typedAs_nodeItems _ hout)⟩

/-- The parts of a value are components, and the node that joins parts gives a value of the type. -/
theorem separate_types {tree : TreeKind} {type : SocketType} {split : Overload}
    (h : tree.separate type = some split) :
    (∀ τ ∈ split.outputTypes, τ = Component.type) ∧
      ∀ join, tree.combine type = some join → join.outputTypes = [type] := by
  have key : ∀ t ∈ SocketType.all, ∀ split ∈ tree.separate t,
      (∀ τ ∈ split.outputTypes, τ = Component.type) ∧
        ∀ join ∈ tree.combine t, join.outputTypes = [t] := by
    cases tree <;> decide +kernel
  exact key type (SocketType.mem_all type) split h

/-- Splitting a value pushes the bundle of its parts, which are sockets of the new node and have the
types of its outputs. -/
theorem split_pushes [Std.Refl R] {tree : TreeKind} {type : SocketType} {split : Overload}
    (hsplit : tree.separate type = some split) {i : Item} {rest : List Item}
    (hs : m.stack = i :: rest) (h : runOp split.op m = .ok m') :
    ∃ items, m'.stack = .bundle items :: rest ∧
      List.Forall₂ (Item.TypedAs R) items split.outputTypes := by
  obtain ⟨⟨hin, htwo, -⟩, -⟩ := separate_join hsplit
  obtain ⟨args, rest', hs', hlen, hpushed⟩ := callBuiltin_pushes (R := R) h
  have htypes : 2 ≤ split.outputTypes.length := by simpa [Overload.outputTypes] using htwo
  -- The node has one input, so it takes the value and nothing else.
  have hrest : rest' = rest := by
    rw [hin] at hlen
    obtain ⟨j, rfl⟩ := List.length_eq_one_iff.1 hlen
    rw [hs] at hs'
    exact (List.cons.inj hs').2.symm
  rw [hrest] at hpushed
  obtain ⟨j, hj, hstack⟩ := hpushed.exists_of_ne (by
    intro hnil
    rw [hnil] at htypes
    exact absurd htypes (by simp))
  obtain ⟨items, rfl, hitems⟩ := hj.exists_bundle htypes
  exact ⟨items, hstack, hitems⟩

/-- Reading a component of a variable splits the vector and pushes the socket of the component, which
is a float. Variables and zones are as before. -/
theorem readOps_pushes [Std.Refl R] {k : Component} {tree : TreeKind} {type : SocketType}
    (hk : k.Of tree type) {source : String} (hops : k.readOps tree source = .ok ops)
    (h : runOps ops m = .ok m') : (Frame m m' ∧ Quiet m m') ∧
      ∃ j, j.TypedAs R Component.type ∧ m'.stack = j :: m.stack := by
  obtain ⟨rfl, split, hsplit, -⟩ := hk
  have hread : ops = [.getVar source, split.op, .getOutput k.index] := by
    rw [Component.readOps, hsplit] at hops
    cases hops
    rfl
  subst hread
  refine ⟨runOps_silent h ?_, ?_⟩
  · exact List.forall_mem_cons.2 ⟨trivial, List.forall_mem_cons.2 ⟨trivial,
      List.forall_mem_cons.2 ⟨trivial, List.forall_mem_nil _⟩⟩⟩
  obtain ⟨m₁, h₁, h⟩ := runOps_cons_ok.1 h
  obtain ⟨m₂, h₂, h⟩ := runOps_cons_ok.1 h
  obtain ⟨m₃, h₃, h⟩ := runOps_cons_ok.1 h
  cases h
  obtain ⟨i, -, rfl⟩ := getVar_ok h₁
  obtain ⟨items, hstack, hitems⟩ := split_pushes (R := R) hsplit rfl h₂
  obtain ⟨items', rest, part, hs, hpart, rfl⟩ := getOutput_ok h₃
  rw [hstack] at hs
  cases hs
  have hlt : k.index < split.outputTypes.length := by
    rw [← hitems.length_eq]
    exact (List.getElem?_eq_some_iff.1 hpart).1
  have htyped := typedAs_getElem? hitems hpart (List.getElem?_eq_getElem hlt)
  rw [(separate_types hsplit).1 _ (List.getElem_mem hlt)] at htyped
  exact ⟨part, htyped, rfl⟩

/-- The ops that rebuild a vector around one new component touch neither variables of the formula nor
zones. -/
theorem silent_partOps (object value : String) (index : Nat) (is : List Nat) :
    ∀ op ∈ is.flatMap (partOps object value index), op.Silent := by
  intro op hop
  obtain ⟨i, -, hop⟩ := List.mem_flatMap.1 hop
  unfold partOps at hop
  split at hop
  · cases List.mem_singleton.1 hop
    trivial
  · rcases List.mem_cons.1 hop with rfl | hop
    · trivial
    · cases List.mem_singleton.1 hop
      trivial

/-- Replacing a component of a variable binds the target to a value of its type, the socket of the
node that joins the components. The variable that held the vector is bound to the bundle of the old
ones. -/
theorem writeOps_binds [Std.Refl R] {k : Component} {tree : TreeKind} {type : SocketType}
    (hk : k.Of tree type) {target object value : String}
    (hops : k.writeOps tree target object value = .ok ops) (h : runOps ops m = .ok m') :
    ∃ b i, i.TypedAs R type ∧ m'.env = (m.env.insert object b).insert target i ∧
      m'.outputs = m.outputs ∧ Quiet m m' := by
  obtain ⟨rfl, split, hsplit, -⟩ := hk
  obtain ⟨-, join, hjoin, -⟩ := separate_join hsplit
  have hwrite : ops = [.getVar object, split.op, .bindVar object] ++
      (List.range join.inputs.length).flatMap (partOps object value k.index) ++
      [join.op, .bindVar target] := by
    rw [Component.writeOps, hsplit, hjoin] at hops
    cases hops
    rfl
  subst hwrite
  obtain ⟨m₄, h, hend⟩ := runOps_append_ok.1 h
  obtain ⟨m₃, hstart, hparts⟩ := runOps_append_ok.1 h
  obtain ⟨m₁, h₁, hstart⟩ := runOps_cons_ok.1 hstart
  obtain ⟨m₂, h₂, hstart⟩ := runOps_cons_ok.1 hstart
  obtain ⟨m₃', h₃, hstart⟩ := runOps_cons_ok.1 hstart
  cases hstart
  obtain ⟨hframe₁, hquiet₁⟩ := runOp_silent h₁ trivial
  obtain ⟨hframe₂, hquiet₂⟩ := runOp_silent h₂ trivial
  obtain ⟨b, rest, -, rfl⟩ := bindVar_ok h₃
  obtain ⟨hframe₄, hquiet₄⟩ := runOps_silent hparts (silent_partOps object value k.index _)
  obtain ⟨m₅, h₅, hend⟩ := runOps_cons_ok.1 hend
  obtain ⟨m₆, h₆, hend⟩ := runOps_cons_ok.1 hend
  cases hend
  obtain ⟨hframe₅, hquiet₅⟩ := runOp_silent h₅ trivial
  obtain ⟨args, rest', -, -, hpushed⟩ := callBuiltin_pushes (R := R) h₅
  rw [(separate_types hsplit).2 join hjoin] at hpushed
  obtain ⟨i, hi, hstack⟩ := hpushed.exists_of_ne (List.cons_ne_nil _ _)
  obtain ⟨i', rest'', hs, rfl⟩ := bindVar_ok h₆
  rw [hstack] at hs
  cases hs
  refine ⟨b, i, hi.typedAs_of_one, ?_, ?_, ?_⟩
  · change m₅.env.insert target i = _
    rw [hframe₅.env, hframe₄.env]
    change (m₂.env.insert object b).insert target i = _
    rw [hframe₂.env, hframe₁.env]
  · exact hframe₅.outputs.trans (hframe₄.outputs.trans (hframe₂.outputs.trans hframe₁.outputs))
  · have hstart : Quiet m { m₂ with stack := rest, env := m₂.env.insert object b } := by
      exact quiet_trans hquiet₁ ⟨hquiet₂.zones, hquiet₂.groups⟩
    have hend : Quiet m m₅ := quiet_trans (quiet_trans hstart hquiet₄) hquiet₅
    exact ⟨hend.zones, hend.groups⟩

/-- A constant in a geometry tree is a node without inputs that has the constant's type. -/
theorem constantInput_eq {name : String} {v : Constant}
    (h : TreeKind.geometry.constantInput name v = .ok ops) :
    ∃ node marks, node.inputs = [] ∧ (∀ op ∈ marks, Marks op) ∧
      ops = .callBuiltin node [v.type] :: marks := by
  have hname : ∀ op ∈ [Op.renameNode name], Marks op := fun op hop => by
    cases List.mem_singleton.1 hop
    exact .renameNode name
  cases v with
  | float x =>
    cases h
    exact ⟨_, _, rfl, List.forall_mem_cons.2 ⟨.setOutput 0 _, hname⟩, rfl⟩
  | bool | int | vec3 | rgba | str =>
    cases h
    exact ⟨_, _, rfl, hname, rfl⟩

/-- Labels and output values leave the stack as it is, by induction on the marks. They go to the
newest node of the tree. -/
theorem stack_of_marks {marks : List Op} (hmarks : ∀ op ∈ marks, Marks op)
    (h : runOps marks m = .ok m') : m'.stack = m.stack := by
  induction marks generalizing m with
  | nil =>
    cases h
    rfl
  | cons op marks ih =>
    obtain ⟨m₁, hop, h⟩ := runOps_cons_ok.1 h
    have hrest := ih (fun op hop => hmarks op (.tail _ hop)) h
    cases hmarks op (.head _) with
    | setOutput | renameNode =>
      obtain ⟨id, rfl⟩ := modifyNewest_ok hop
      exact hrest

/-- An input for a constant pushes an item of the constant's type and leaves variables and zones as
they were. -/
theorem constantInput_pushes [Std.Refl R] {name : String} {v : Constant}
    (hops : TreeKind.geometry.constantInput name v = .ok ops) (h : runOps ops m = .ok m') :
    (Frame m m' ∧ Quiet m m') ∧ ∃ i, i.TypedAs R v.type ∧ m'.stack = i :: m.stack := by
  obtain ⟨node, marks, hinputs, hmarks, rfl⟩ := constantInput_eq hops
  have hsilent : ∀ op ∈ marks, op.Silent := by
    intro op hop
    cases hmarks op hop with
    | setOutput | renameNode => trivial
  refine ⟨runOps_silent h (List.forall_mem_cons.2 ⟨trivial, hsilent⟩), ?_⟩
  obtain ⟨m₁, h₁, h⟩ := runOps_cons_ok.1 h
  obtain ⟨args, rest, hs, hlen, hpushed⟩ := callBuiltin_pushes (R := R) h₁
  rw [hinputs] at hlen
  cases List.length_eq_zero_iff.1 hlen
  obtain ⟨i, hi, hstack⟩ := hpushed.exists_of_ne (List.cons_ne_nil _ _)
  refine ⟨i, hi.typedAs_of_one, ?_⟩
  rw [stack_of_marks hmarks h, hstack, hs]
  rfl

end Machine

end NodeFormula

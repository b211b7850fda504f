import NodeFormula.Proofs.Checker.Expression
import NodeFormula.Proofs.Graph.Wiring
import NodeFormula.Proofs.Running.Steps

/-!
# Replacing a component

What the ops that replace one component of a vector or colour do to a machine, to the last node and link
(`writeOps_replaces`). They split the value that a variable stands for, bind the variable to the parts,
and join the parts again with one of them exchanged. While the parts are pushed the variable is read
again and again, now as a bundle, and the result is right only because the outputs of the node that
splits are numbered like the inputs of the node that joins (`separate_matches_combine`).

A new node is fed exactly: nothing enters it before, so that feeding its sockets removes no link
(`feedAll_push`).
-/

namespace NodeFormula

namespace NodeTree

variable {t : NodeTree}

/-! ### Feeding a new node -/

/-- Feeding a new node changes its input values and the links of the tree. -/
theorem feedAll_push (t : NodeTree) (n : Node) (feeds : List (Nat × Item)) :
    ∃ inputs links, (t.push n).feedAll t.nodes.size feeds =
      NodeTree.push { t with links } { n with inputs } := by
  induction feeds generalizing t n with
  | nil => exact ⟨n.inputs, t.links, rfl⟩
  | cons feed feeds ih =>
    obtain ⟨input, i⟩ := feed
    change ∃ inputs links, ((t.push n).feed t.nodes.size input i).feedAll t.nodes.size feeds = _
    cases i with
    | empty | bundle => exact ih t n
    | constant v =>
      have hfeed : (t.push n).feed t.nodes.size input (.constant v) =
          t.push { n with inputs := n.inputs.insert input v } := modifyNode_push t n _
      rw [hfeed]
      exact ih t { n with inputs := n.inputs.insert input v }
    | socket s =>
      let l : Link := ⟨s.node, s.index, t.nodes.size, input⟩
      exact ih (t.link l) n

/-- Feeding different sockets that no link enters adds the links of the items after those that are
there. No link is taken away, as none enters a socket that is fed. The induction is on the feeds. -/
theorem links_feedAll {node : NodeId} {feeds : List (Nat × Item)} (hnodup : (feeds.map (·.1)).Nodup)
    (hfree : ∀ l ∈ t.links, l.toNode = node → l.toSocket ∉ feeds.map (·.1)) :
    (t.feedAll node feeds).links = t.links ++ (feedLinks node feeds).toArray := by
  induction feeds generalizing t with
  | nil => simp [feedAll, feedLinks]
  | cons feed feeds ih =>
    obtain ⟨input, i⟩ := feed
    obtain ⟨hinput, hrest⟩ := List.nodup_cons.1 hnodup
    have htail : ∀ l ∈ t.links, l.toNode = node → l.toSocket ∉ feeds.map (·.1) :=
      fun l hl hnode hmem => hfree l hl hnode (.tail _ hmem)
    change ((t.feed node input i).feedAll node feeds).links = _
    cases i with
    | empty | constant | bundle => exact ih hrest htail
    | socket s =>
      let l : Link := ⟨s.node, s.index, node, input⟩
      have hlink : (t.link l).links = t.links.push l := by
        have hkept : (t.links.filter fun k => !k.enters node input) = t.links := by
          refine Array.filter_eq_self.2 fun k hk => ?_
          have hne : k.toNode = node → k.toSocket ≠ input :=
            fun hnode heq => hfree k hk hnode (heq ▸ .head _)
          by_cases hnode : k.toNode = node
          · simp [Link.enters, hne hnode]
          · simp [Link.enters, hnode]
        change (t.links.filter _).push l = _
        rw [hkept]
      -- The link that is added enters the node too, but at a socket that is not fed again.
      have hlinks : ∀ k ∈ (t.link l).links, k.toNode = node → k.toSocket ∉ feeds.map (·.1) := by
        rw [hlink]
        intro k hk hnode
        rcases Array.mem_push.1 hk with hk | rfl
        · exact htail k hk hnode
        · exact hinput
      refine (ih (t := t.link l) hrest hlinks).trans ?_
      rw [hlink]
      simp [feedLinks, Item.link?, l]

/-- The node that a call of a built-in function adds. -/
def calledNode (id : NodeId) (node : NodeSpec) (inputs : Table Nat Constant) : Node where
  id := id
  key := node.key
  props := Table.insertAll ∅ node.props
  inputs := inputs

/-- A tree after a call of a built-in function whose input sockets are numbered in order. -/
def call (t : NodeTree) (node : NodeSpec) (args : List Item) : NodeTree :=
  (t.push (calledNode t.nodes.size node ∅)).feedAll t.nodes.size (Machine.numbered 0 args)

@[simp] theorem size_nodes_call (t : NodeTree) (node : NodeSpec) (args : List Item) :
    (t.call node args).nodes.size = t.nodes.size + 1 := by
  rw [call, size_nodes_feedAll, size_nodes_push]

/-- A call adds one node. -/
theorem call_eq (t : NodeTree) (node : NodeSpec) (args : List Item) :
    ∃ inputs links, t.call node args =
      { t with nodes := t.nodes.push (calledNode t.nodes.size node inputs), links } :=
  feedAll_push t (calledNode t.nodes.size node ∅) (Machine.numbered 0 args)

/-- What enters another node than the one that is added. -/
theorem incoming_call_of_ne {k : NodeId} (h : k ≠ t.nodes.size) (node : NodeSpec)
    (args : List Item) : (t.call node args).incoming k = t.incoming k :=
  (incoming_feedAll_of_ne h _).trans (incoming_of_links rfl k)

/-- The node that a call adds is fed by the arguments. -/
theorem wired_call {t₁ : NodeTree} (hsize : t.nodes.size ≤ t₁.nodes.size)
    (hlinks : t₁.incoming t₁.nodes.size = t.incoming t₁.nodes.size) (node : NodeSpec)
    (args : List Item) :
    t.Wired (t₁.call node args) t₁.nodes.size node.key none [] args := by
  have hnode : (t₁.push (calledNode t₁.nodes.size node ∅)).nodes[t₁.nodes.size]? =
      some (calledNode t₁.nodes.size node ∅) := by rw [getElem?_push, if_pos rfl]
  exact wired_feedAll hsize hnode rfl hlinks args

/-- A wired node stays wired in a call. -/
theorem Wired.call {t₁ : NodeTree} {id : NodeId} {key : String} {paired : Option NodeId}
    {items : List RepeatItem} {feeds : List Item} (h : t.Wired t₁ id key paired items feeds)
    (hid : id < t₁.nodes.size) (node : NodeSpec) (args : List Item) :
    t.Wired (t₁.call node args) id key paired items feeds := by
  have hpush : t.Wired (t₁.push (calledNode t₁.nodes.size node ∅)) id key paired items feeds := by
    have hgrows : t₁.Grows none t₁ := .refl t₁
    exact h.grow (hgrows.push _) (incoming_of_links rfl id)
  exact hpush.feedAll_of_ne (Nat.ne_of_lt hid) _

/-- Nothing enters a node that is not there, if all links enter nodes. So a call adds the links of its
arguments and takes none away. -/
theorem LinksEnter.links_call (h : t.LinksEnter) (node : NodeSpec) (args : List Item) :
    (t.call node args).links =
      t.links ++ (feedLinks t.nodes.size (Machine.numbered 0 args)).toArray := by
  refine links_feedAll (t := t.push _) (Machine.nodup_numbered 0 args) fun l hl heq => ?_
  exact absurd heq (Nat.ne_of_lt (h l hl))

/-- A call of a node feeds its own sockets only, so links still enter nodes that are there. -/
theorem LinksEnter.call (h : t.LinksEnter) (node : NodeSpec) (args : List Item) :
    (t.call node args).LinksEnter := by
  intro l hl
  rw [h.links_call, Array.mem_append] at hl
  rw [size_nodes_call]
  rcases hl with hl | hl
  · exact Nat.lt_succ_of_lt (h l hl)
  · obtain ⟨⟨input, i⟩, -, hlink⟩ := List.mem_filterMap.1 (List.mem_toArray.1 hl)
    cases i with
    | empty | constant | bundle => cases hlink
    | socket s =>
      cases hlink
      exact Nat.lt_succ_self _

/-! Two calls, one after the other. -/

theorem call_call_eq (t : NodeTree) (first second : NodeSpec) (args args' : List Item) :
    ∃ inputs inputs' links, (t.call first args).call second args' =
      { t with
        nodes := (t.nodes.push (calledNode t.nodes.size first inputs)).push
          (calledNode (t.nodes.size + 1) second inputs')
        links } := by
  obtain ⟨inputs, links, h₁⟩ := call_eq t first args
  obtain ⟨inputs', links', h₂⟩ := call_eq (t.call first args) second args'
  refine ⟨inputs, inputs', links', ?_⟩
  rw [h₂, size_nodes_call, h₁]

theorem wired_call_call (t : NodeTree) (first second : NodeSpec) (args args' : List Item) :
    t.Wired ((t.call first args).call second args') t.nodes.size first.key none [] args ∧
    t.Wired ((t.call first args).call second args') (t.nodes.size + 1) second.key none [] args' := by
  have hsize := size_nodes_call t first args
  constructor
  · have hlt : t.nodes.size < (t.call first args).nodes.size := hsize ▸ Nat.lt_succ_self _
    exact (wired_call (Nat.le_refl _) rfl first args).call hlt second args'
  · rw [← hsize]
    have hne : (t.call first args).nodes.size ≠ t.nodes.size := hsize ▸ Nat.succ_ne_self _
    exact wired_call (hsize ▸ Nat.le_succ _) (incoming_call_of_ne hne first args) second args'

theorem keepsIncoming_call_call (t : NodeTree) (first second : NodeSpec) (args args' : List Item) :
    t.KeepsIncoming ((t.call first args).call second args') := by
  intro k hk
  have hne : k ≠ (t.call first args).nodes.size := by
    rw [size_nodes_call]
    exact Nat.ne_of_lt (Nat.lt_succ_of_lt hk)
  exact (incoming_call_of_ne hne ..).trans (incoming_call_of_ne (Nat.ne_of_lt hk) ..)

theorem LinksEnter.links_call_call (h : t.LinksEnter) (first second : NodeSpec)
    (args args' : List Item) :
    ((t.call first args).call second args').links.toList = t.links.toList ++
      feedLinks t.nodes.size (Machine.numbered 0 args) ++
      feedLinks (t.nodes.size + 1) (Machine.numbered 0 args') := by
  rw [(h.call first args).links_call, h.links_call, size_nodes_call]
  simp

end NodeTree

/-! ### The nodes that split and join -/

/-- The parts of a value: the outputs of the node that splits it. -/
def splitParts (node : NodeId) (n : Nat) : List Item :=
  (List.range n).map fun i => .socket ⟨node, i, Component.type⟩

/-- A node that splits and one that joins the values of a type into `n` components. Outputs of the one
are numbered like inputs of the other. -/
structure Overload.Matches (split join : Overload) (type : SocketType) (n : Nat) : Prop where
  source : split.node.inputs = [0]
  parts : split.node.outputs = List.range n
  types : split.outputTypes = List.replicate n Component.type
  args : join.node.inputs = List.range n
  arity : join.inputs.length = n
  result : join.node.outputs = [0]
  resultType : join.outputTypes = [type]
  several : 2 ≤ n

/-- Every type whose values can be split has a node that joins them again. -/
theorem separate_matches_combine {tree : TreeKind} {type : SocketType} {split : Overload}
    (h : tree.separate type = some split) :
    ∃ join, tree.combine type = some join ∧ split.Matches join type split.outputs.length := by
  have key : ∀ t ∈ SocketType.all, ∀ split ∈ tree.separate t,
      (tree.combine t).any (fun join =>
        split.node.inputs = [0] ∧ split.node.outputs = List.range split.outputs.length ∧
        split.outputTypes = List.replicate split.outputs.length Component.type ∧
        join.node.inputs = List.range split.outputs.length ∧
        join.inputs.length = split.outputs.length ∧ join.node.outputs = [0] ∧
        join.outputTypes = [t] ∧ 2 ≤ split.outputs.length) = true := by
    cases tree <;> decide +kernel
  have hany := key type (SocketType.mem_all type) split h
  obtain ⟨join, hjoin, hall⟩ := (Option.any_eq_true ..).1 hany
  obtain ⟨h₁, h₂, h₃, h₄, h₅, h₆, h₇, h₈⟩ := of_decide_eq_true hall
  exact ⟨join, hjoin, h₁, h₂, h₃, h₄, h₅, h₆, h₇, h₈⟩

namespace Machine

variable {m : Machine}

/-- The machine after a call of a built-in function with its arguments on the stack, in full: the new
node with its values, its links, and its outputs in place of the arguments. -/
theorem callBuiltin_run {node : NodeSpec} {types : List SocketType} {args rest : List Item}
    (hs : m.stack = args.reverse ++ rest) (hin : node.inputs = List.range args.length)
    (hargs : ∀ i ∈ args, i.Single) (htypes : types.length = node.outputs.length) :
    m.callBuiltin node types = .ok { ({ m with
        stack := rest
        tree := m.tree.call node args } : Machine).pushOutputs
          (nodeItems m.tree.nodes.size node.outputs types) with
      newest := some m.tree.nodes.size } := by
  have hlen : args.length = node.inputs.length := by rw [hin, List.length_range]
  obtain ⟨m', -, hcall, -⟩ :=
    callBuiltin_runs m node types args hs hlen (fun i hi => .inr (hargs i hi)) htypes
  rw [hcall]
  obtain ⟨args', rest', hs', hlen', -, rfl⟩ := callBuiltin_ok hcall
  -- The stack tells which arguments were taken.
  obtain ⟨hrev, rfl⟩ := List.append_inj (hs.symm.trans hs') (by simp [hlen, hlen'])
  obtain rfl := List.reverse_injective hrev
  have hfeeds : node.inputs.zip args = numbered 0 args := by
    rw [hin]
    apply List.ext_getElem <;> simp [numbered]
  rw [hfeeds]
  rfl

theorem nodeItems_replicate (node : NodeId) (n : Nat) :
    nodeItems node (List.range n) (List.replicate n Component.type) = splitParts node n := by
  apply List.ext_getElem <;> simp [nodeItems, splitParts]

theorem pushOutputs_of_two_le {items : List Item} (h : 2 ≤ items.length) :
    m.pushOutputs items = m.push (.bundle items) := by
  match items, h with
  | _ :: _ :: _, _ => rfl

variable {split join : Overload} {type : SocketType} {n : Nat} {i : Item}

/-- The first ops split the value of a variable and bind the variable to the parts. -/
theorem splitVar_run (hmatch : split.Matches join type n) {object : String}
    (ho : m.env.get? object = some i) (hi : i.Single) :
    runOps [.getVar object, split.op, .bindVar object] m = .ok { m with
      tree := m.tree.call split.node [i]
      env := m.env.insert object (.bundle (splitParts m.tree.nodes.size n))
      newest := some m.tree.nodes.size } := by
  have hsplit : runOp split.op (m.push i) = .ok { m with
      stack := .bundle (splitParts m.tree.nodes.size n) :: m.stack
      tree := m.tree.call split.node [i]
      newest := some m.tree.nodes.size } := by
    have hstack : (m.push i).stack = [i].reverse ++ m.stack := rfl
    refine (callBuiltin_run hstack hmatch.source ?_ ?_).trans ?_
    · exact fun j hj => List.mem_singleton.1 hj ▸ hi
    · rw [hmatch.types, hmatch.parts, List.length_replicate, List.length_range]
    · rw [hmatch.types, hmatch.parts, nodeItems_replicate,
        pushOutputs_of_two_le (by simpa [splitParts] using hmatch.several)]
      rfl
  exact run_bind_ok.2 ⟨_, getVar_runs ho, run_bind_ok.2 ⟨_, hsplit,
    run_bind_ok.2 ⟨_, bindVar_runs rfl, rfl⟩⟩⟩

/-- The last ops join the parts on the stack and bind a variable to the result. -/
theorem joinParts_run (hmatch : split.Matches join type n) (target : String) {args rest : List Item}
    (hs : m.stack = args.reverse ++ rest) (hlen : args.length = n) (hargs : ∀ i ∈ args, i.Single) :
    runOps [join.op, .bindVar target] m = .ok { m with
      stack := rest
      tree := m.tree.call join.node args
      env := m.env.insert target (.socket ⟨m.tree.nodes.size, 0, type⟩)
      newest := some m.tree.nodes.size } := by
  have hjoin : runOp join.op m = .ok { m with
      stack := .socket ⟨m.tree.nodes.size, 0, type⟩ :: rest
      tree := m.tree.call join.node args
      newest := some m.tree.nodes.size } := by
    refine (callBuiltin_run hs (hmatch.args.trans (by rw [hlen])) hargs ?_).trans ?_
    · rw [hmatch.resultType, hmatch.result]
      rfl
    · rw [hmatch.resultType, hmatch.result]
      rfl
  exact run_bind_ok.2 ⟨_, hjoin, run_bind_ok.2 ⟨_, bindVar_runs rfl, rfl⟩⟩

/-- The ops that replace a component take a machine to the one in which the value of `object` has been
split and joined again with the value of `value` in the place of the component. -/
theorem writeOps_eq {k : Component} {tree : TreeKind} (hsplit : tree.separate k.object = some split)
    (hjoin : tree.combine k.object = some join) (hmatch : split.Matches join k.object n)
    (target : String) {object value : String} {j : Item} (hov : object ≠ value)
    (ho : m.env.get? object = some i) (hv : m.env.get? value = some j) (hi : i.Single)
    (hj : j.Single) :
    ∃ ops, k.writeOps tree target object value = .ok ops ∧ runOps ops m = .ok { m with
      tree := (m.tree.call split.node [i]).call join.node
        ((splitParts m.tree.nodes.size n).set k.index j)
      env := (m.env.insert object (.bundle (splitParts m.tree.nodes.size n))).insert target
        (.socket ⟨m.tree.nodes.size + 1, 0, k.object⟩)
      newest := some (m.tree.nodes.size + 1) } := by
  let parts := splitParts m.tree.nodes.size n
  have hlen : parts.length = n := by simp [parts, splitParts]
  refine ⟨[.getVar object, split.op, .bindVar object] ++
      (List.range n).flatMap (partOps object value k.index) ++ [join.op, .bindVar target], ?_, ?_⟩
  · rw [Component.writeOps, hsplit, hjoin, ← hmatch.arity]
    rfl
  let m₁ : Machine := { m with
    tree := m.tree.call split.node [i]
    env := m.env.insert object (.bundle parts)
    newest := some m.tree.nodes.size }
  have hobject : m₁.env.get? object = some (.bundle parts) := by
    rw [Table.get?_insert, if_pos rfl]
  have hvalue : m₁.env.get? value = some j := by
    rw [Table.get?_insert, if_neg (Ne.symm hov)]
    exact hv
  have hpush := partOps_push hobject hvalue k.index (Nat.le_of_eq hlen.symm)
  rw [List.take_of_length_le (Nat.le_of_eq (by rw [List.length_set, hlen]))] at hpush
  have hargs : ∀ a ∈ parts.set k.index j, a.Single := by
    intro a ha
    rcases List.mem_or_eq_of_mem_set ha with ha | rfl
    · obtain ⟨x, -, rfl⟩ := List.mem_map.1 ha
      exact .socket _
    · exact hj
  have hlast := joinParts_run hmatch target
    (m := { m₁ with stack := (parts.set k.index j).reverse ++ m₁.stack }) rfl
    (by rw [List.length_set, hlen]) hargs
  rw [runOps_append, runOps_append, splitVar_run hmatch ho hi]
  refine run_bind_ok.2 ⟨_, hpush, hlast.trans ?_⟩
  have hsize : m₁.tree.nodes.size = m.tree.nodes.size + 1 := NodeTree.size_nodes_call ..
  rw [← hsize]

/-- A field is written by replacing one component and nothing else. In every state in which two
variables stand for a constant or a socket each, the ops for writing the component `k` of the first run.
They add two nodes. The one splits the value of `object`. The other joins the parts, the outputs of the
first in their order, except that its input with the number of the component is fed by `value`. Then
`target` stands for the output of the second node and `object` for the parts.

The other variables, the stack, the outputs, the groups, the nodes that were there and the links that
enter them are unchanged. If there are no links to nodes that are not there, then the new links follow
after all that were there. -/
theorem writeOps_replaces {tree : TreeKind} {type : SocketType} {name : String} {k : Component}
    (hk : Component.lookup? tree type name = some k) {target object value : String} {i j : Item}
    (hov : object ≠ value) (hot : object ≠ target) (ho : m.env.get? object = some i)
    (hv : m.env.get? value = some j) (hi : i.Single) (hj : j.Single) :
    ∃ split join n ops inputs inputs' links m',
      tree.separate type = some split ∧ tree.combine type = some join ∧
      split.Matches join type n ∧ k.index < n ∧
      k.writeOps tree target object value = .ok ops ∧ runOps ops m = .ok m' ∧
      m'.tree = { m.tree with
        nodes := (m.tree.nodes.push (NodeTree.calledNode m.tree.nodes.size split.node inputs)).push
          (NodeTree.calledNode (m.tree.nodes.size + 1) join.node inputs')
        links } ∧
      m.tree.Wired m'.tree m.tree.nodes.size split.node.key none [] [i] ∧
      m.tree.Wired m'.tree (m.tree.nodes.size + 1) join.node.key none []
        ((splitParts m.tree.nodes.size n).set k.index j) ∧
      m.tree.KeepsIncoming m'.tree ∧
      (m.tree.LinksEnter → links.toList = m.tree.links.toList ++
        NodeTree.feedLinks m.tree.nodes.size (numbered 0 [i]) ++
        NodeTree.feedLinks (m.tree.nodes.size + 1)
          (numbered 0 ((splitParts m.tree.nodes.size n).set k.index j))) ∧
      m'.env.get? target = some (.socket ⟨m.tree.nodes.size + 1, 0, type⟩) ∧
      m'.env.get? object = some (.bundle (splitParts m.tree.nodes.size n)) ∧
      (∀ x, x ≠ target → x ≠ object → m'.env.get? x = m.env.get? x) ∧
      m'.stack = m.stack ∧ m'.outputs = m.outputs ∧ m'.groups = m.groups := by
  obtain ⟨rfl, split, hsplit, hindex⟩ := Component.of_lookup? hk
  obtain ⟨join, hjoin, hmatch⟩ := separate_matches_combine hsplit
  obtain ⟨ops, hops, hrun⟩ := writeOps_eq hsplit hjoin hmatch target hov ho hv hi hj
  let args := (splitParts m.tree.nodes.size split.outputs.length).set k.index j
  obtain ⟨inputs, inputs', links, htree⟩ := m.tree.call_call_eq split.node join.node [i] args
  obtain ⟨hfirst, hsecond⟩ := m.tree.wired_call_call split.node join.node [i] args
  have hkeeps := m.tree.keepsIncoming_call_call split.node join.node [i] args
  refine ⟨split, join, _, ops, inputs, inputs', links, _, hsplit, hjoin, hmatch, hindex, hops, hrun,
    htree, hfirst, hsecond, hkeeps, fun henter => ?_, ?_, ?_, fun x hxt hxo => ?_, rfl, rfl, rfl⟩
  · have hlinks := henter.links_call_call split.node join.node [i] args
    rw [htree] at hlinks
    exact hlinks
  · rw [Table.get?_insert, if_pos rfl]
  · rw [Table.get?_insert, if_neg hot, Table.get?_insert, if_pos rfl]
  · rw [Table.get?_insert, if_neg hxt, Table.get?_insert, if_neg hxo]

/-- A machine with a variable that stands for a constant colour and one that stands for a socket. -/
def tinted : Machine where
  tree := {
    name := "tint"
    kind := .geometry
    nodes := #[{ id := 0, key := "NodeReroute", label := some "opacity" }] }
  env := Table.ofList
    [("tint", .constant (.rgba 1 0 0 1)), ("opacity", .socket ⟨0, 0, .float⟩)]

/-- The alpha of a constant colour is replaced by a socket. The new node gets red, green and blue
from the node that splits and its last input from the socket. -/
theorem writeOps_replaces_alpha : ∃ k ops m',
    Component.lookup? .geometry .rgba "a" = some k ∧
    k.writeOps .geometry "faded" "tint" "opacity" = .ok ops ∧ runOps ops tinted = .ok m' ∧
    m'.tree.nodes.size = 3 ∧
    m'.tree.links.toList = [⟨1, 0, 2, 0⟩, ⟨1, 1, 2, 1⟩, ⟨1, 2, 2, 2⟩, ⟨0, 0, 2, 3⟩] ∧
    m'.env.get? "faded" = some (.socket ⟨2, 0, .rgba⟩) ∧
    m'.env.get? "opacity" = some (.socket ⟨0, 0, .float⟩) := by
  have hk : Component.lookup? .geometry .rgba "a" = some ⟨.rgba, 3⟩ := by decide +kernel
  have harity : (TreeKind.geometry.combine .rgba).map (·.inputs.length) = some 4 := by
    decide +kernel
  have hvalue : "tint" ≠ "opacity" := by decide
  have htarget : "tint" ≠ "faded" := by decide
  obtain ⟨split, join, n, ops, inputs, inputs', links, m', -, hjoin, hmatch, -, hops, hrun, htree, -, -,
      -, hlinks, hbound, -, hothers, -⟩ :=
    writeOps_replaces (m := tinted) hk hvalue htarget rfl rfl (.constant _) (.socket _)
  rw [hjoin, Option.map_some, hmatch.arity] at harity
  cases harity
  refine ⟨_, ops, m', hk, hops, hrun, ?_, ?_, hbound, hothers _ (by decide) (by decide)⟩
  · rw [htree]
    rfl
  · rw [htree]
    exact hlinks fun _ hl => absurd hl (Array.not_mem_empty _)

end Machine

end NodeFormula

import NodeFormula.Proofs.Graph.Appending

/-!
# The wiring of zones

What enters the two nodes of a repeat zone, for every state and every body from which the zone runs
(`zone_wires`). The count and the variables that the zone carries feed the input node where the zone is
entered, and the variables feed the output node where it is left. In between the body runs. It may have
zones of its own that carry the same variables, but no run adds or removes a link that enters an older
node (`runOps_keepsIncoming`), and of an older node it changes at most the label and the output values
(`runOps_grows`).

Which variables a zone carries is read off the body: the names that it binds, each at its first place
(`boundNamesAll_eq`).
-/

namespace NodeFormula

/-! ### The names that ops bind -/

mutual

/-- The variables that an op binds in its own scope, in order and each as often as it is bound. Bodies of
zones count, bodies of definitions have a scope of their own. -/
def Op.bindings : Op → List String
  | .bindVar n => [n]
  | .zone body => Op.allBindings body
  | _ => []

/-- The variables that ops bind in their own scope. -/
def Op.allBindings : List Op → List String
  | [] => []
  | op :: ops => op.bindings ++ Op.allBindings ops

end

/-- The variables that ops bind in their own scope without those that are temporary, each at the place
where it is bound first. -/
def Op.boundOnce (ops : List Op) : List String :=
  ((Op.allBindings ops).filter fun n => !n.toList.contains '#').eraseDups

namespace Machine

mutual

/-- The names that an op binds, collected after others, are all of them with repetitions left out, by
induction on the op. Temporary variables have a number sign and are not collected. -/
theorem boundNames_eq : (op : Op) → ∀ names : List String, boundNames names.eraseDups op =
    (names ++ op.bindings.filter fun n => !n.toList.contains '#').eraseDups
  | .bindVar n, names => by
    rw [boundNames, Op.bindings, List.eraseDups_append]
    cases htemp : n.toList.contains '#' with
    | true =>
      rw [List.filter_cons_of_neg (by simpa using htemp)]
      simp
    | false =>
      rw [List.filter_cons_of_pos (by simpa using htemp)]
      by_cases hn : n ∈ names
      · simp [hn, List.removeAll]
      · simp [hn, List.removeAll, List.eraseDups_cons]
  | .zone body, names => boundNamesAll_eq_append body names
  | .pushValue _, names | .createVar _, names | .getVar _, names | .destroyVar _, names
  | .getOutput _, names | .setOutput _ _, names | .setFunctionOut _, names | .splitStruct, names
  | .pop, names | .callBuiltin _ _, names | .callFunction _ _ _ _, names
  | .callGroup _ _ _ _, names | .renameNode _, names | .endOfStatement, names => by
    simp [boundNames, Op.bindings]

theorem boundNamesAll_eq_append : (ops : List Op) → ∀ names : List String,
    boundNamesAll names.eraseDups ops =
      (names ++ (Op.allBindings ops).filter fun n => !n.toList.contains '#').eraseDups
  | [], names => by simp [boundNamesAll, Op.allBindings]
  | op :: ops, names => by
    rw [boundNamesAll, boundNames_eq op names, boundNamesAll_eq_append ops, Op.allBindings,
      List.filter_append, List.append_assoc]

end

theorem boundNamesAll_eq (ops : List Op) : boundNamesAll [] ops = Op.boundOnce ops :=
  boundNamesAll_eq_append ops []

end Machine

/-! ### Feeding a node -/

/-- The link by which an item feeds an input socket. -/
def Item.link? (node : NodeId) (input : Nat) : Item → Option Link
  | .socket s => some ⟨s.node, s.index, node, input⟩
  | .empty => none
  | .constant _ => none
  | .bundle _ => none

/-- The value that an item sets an input socket to. -/
def Item.value? : Item → Option Constant
  | .constant v => some v
  | .empty => none
  | .socket _ => none
  | .bundle _ => none

namespace NodeTree

/-- The links by which items feed input sockets of a node. -/
def feedLinks (node : NodeId) (feeds : List (Nat × Item)) : List Link :=
  feeds.filterMap fun feed => feed.2.link? node feed.1

variable {t t' t₁ : NodeTree} {node k : NodeId}

theorem incoming_of_links (h : t'.links = t.links) (k : NodeId) : t'.incoming k = t.incoming k := by
  rw [incoming, incoming, h]

theorem incoming_link (t : NodeTree) (l : Link) : (t.link l).incoming l.toNode =
    ((t.incoming l.toNode).filter fun k => k.toSocket != l.toSocket) ++ [l] := by
  simp only [incoming, link, Array.toList_push, Array.toList_filter, List.filter_append,
    List.filter_filter]
  congr 1
  · refine List.filter_congr fun k _ => ?_
    cases hk : k.toNode == l.toNode with
    | true => simp [Link.enters, hk, bne]
    | false => simp
  · simp

/-- A new link changes nothing about what enters other nodes. It takes away only a link into the same
socket, and so of the same node. -/
theorem incoming_link_of_ne (t : NodeTree) {l : Link} (h : k ≠ l.toNode) :
    (t.link l).incoming k = t.incoming k := by
  simp only [incoming, link, Array.toList_push, Array.toList_filter, List.filter_append,
    List.filter_filter]
  have hl : (l.toNode == k) = false := beq_eq_false_iff_ne.2 (Ne.symm h)
  rw [List.filter_cons_of_neg (by simp [hl]), List.filter_nil, List.append_nil]
  refine List.filter_congr fun j _ => ?_
  cases hj : j.toNode == k with
  | false => rfl
  | true =>
    have hne : (j.toNode == l.toNode) = false := by
      rw [eq_of_beq hj]
      exact beq_eq_false_iff_ne.2 h
    simp [Link.enters, hne]

theorem incoming_feed_of_ne (h : k ≠ node) (input : Nat) (i : Item) :
    (t.feed node input i).incoming k = t.incoming k := by
  cases i with
  | empty | constant | bundle => rfl
  | socket s => exact incoming_link_of_ne t h

theorem incoming_feedAll_of_ne (h : k ≠ node) (feeds : List (Nat × Item)) :
    (t.feedAll node feeds).incoming k = t.incoming k := by
  induction feeds generalizing t with
  | nil => rfl
  | cons feed feeds ih => exact ih.trans (incoming_feed_of_ne h ..)

/-- Feeding different sockets of a node leaves the links of the other sockets and adds those of the
items, in their order. A socket that is fed loses the link that it had. -/
theorem incoming_feedAll {feeds : List (Nat × Item)} (hnodup : (feeds.map (·.1)).Nodup) :
    (t.feedAll node feeds).incoming node =
      ((t.incoming node).filter fun l => (feedLinks node feeds).all fun k => l.toSocket != k.toSocket) ++
        feedLinks node feeds := by
  induction feeds generalizing t with
  | nil => simp [feedAll, feedLinks]
  | cons feed feeds ih =>
    obtain ⟨input, i⟩ := feed
    obtain ⟨hinput, hnodup⟩ := List.nodup_cons.1 hnodup
    change ((t.feed node input i).feedAll node feeds).incoming node = _
    rw [ih hnodup]
    cases i with
    | empty | constant | bundle => rfl
    | socket s =>
      let l : Link := ⟨s.node, s.index, node, input⟩
      have hcons : feedLinks node ((input, .socket s) :: feeds) = l :: feedLinks node feeds := rfl
      -- The new link is not taken away again, since the other sockets are different ones.
      have hkept : (feedLinks node feeds).all (fun k => l.toSocket != k.toSocket) = true := by
        refine List.all_eq_true.2 fun k hk => ?_
        obtain ⟨⟨other, j⟩, hmem, hlink⟩ := List.mem_filterMap.1 hk
        cases j with
        | empty | constant | bundle => cases hlink
        | socket r =>
          cases hlink
          refine bne_iff_ne.2 fun heq => hinput ?_
          exact List.mem_map.2 ⟨_, hmem, heq.symm⟩
      change (((t.link l).incoming l.toNode).filter _) ++ _ = _
      rw [incoming_link, hcons, List.filter_append, List.filter_filter,
        List.filter_cons_of_pos (by simpa using hkept), List.append_assoc]
      simp only [List.all_cons, Bool.and_comm, List.filter_nil, List.singleton_append, l]

theorem getElem?_feedAll_of_ne (h : k ≠ node) (feeds : List (Nat × Item)) :
    (t.feedAll node feeds).nodes[k]? = t.nodes[k]? := by
  induction feeds generalizing t with
  | nil => rfl
  | cons feed feeds ih =>
    refine ih.trans ?_
    obtain ⟨input, i⟩ := feed
    cases i with
    | empty | socket | bundle => rfl
    | constant v => simp [feed, modifyNode, Array.getElem?_modify, Ne.symm h]

/-- A node whose sockets are fed in order from socket `index` on has the values of the constants
among the items, and at the other sockets the values that it had. Nothing else of the node
changes. -/
theorem getElem?_feedAll_numbered {n : Node} (hn : t.nodes[node]? = some n) (index : Nat)
    (items : List Item) : ∃ inputs,
      (t.feedAll node (Machine.numbered index items)).nodes[node]? = some { n with inputs } ∧
      ∀ k, inputs.get? k =
        ((if index ≤ k then items[k - index]? else none).bind Item.value?).or (n.inputs.get? k) := by
  induction items generalizing t n index with
  | nil => exact ⟨n.inputs, hn, fun k => by simp⟩
  | cons i items ih =>
    have hfed : ∃ n₁ : Node, (t.feed node index i).nodes[node]? = some n₁ ∧
        n₁ = { n with inputs := n₁.inputs } ∧
        ∀ k, n₁.inputs.get? k = (if k = index then i.value? else none).or (n.inputs.get? k) := by
      cases i with
      | empty | socket | bundle => exact ⟨n, hn, rfl, fun k => by simp [Item.value?]⟩
      | constant v =>
        refine ⟨{ n with inputs := n.inputs.insert index v }, ?_, rfl, fun k => ?_⟩
        · simp [feed, modifyNode, Array.getElem?_modify, hn]
        · rw [Table.get?_insert]
          split <;> simp [Item.value?]
    obtain ⟨n₁, hn₁, heq, hinputs₁⟩ := hfed
    obtain ⟨inputs, hnode, hinputs⟩ := ih hn₁ (index + 1)
    refine ⟨inputs, ?_, fun k => ?_⟩
    · rw [heq] at hnode
      exact hnode
    · rw [hinputs, hinputs₁]
      rcases Nat.lt_trichotomy k index with hk | rfl | hk
      · rw [if_neg (by omega), if_neg (by omega), if_neg (by omega)]
        rfl
      · rw [if_neg (Nat.not_succ_le_self k), if_pos rfl, if_pos (Nat.le_refl k), Nat.sub_self]
        rfl
      · obtain ⟨j, rfl⟩ := Nat.exists_eq_add_of_lt hk
        have hj : index + j + 1 - (index + 1) = j := by omega
        have hj' : index + j + 1 - index = j + 1 := by omega
        rw [if_pos (by omega), if_neg (by omega), if_pos (by omega), hj, hj', List.getElem?_cons_succ]
        rfl

/-! ### Links that enter older nodes -/

/-- Every node of a tree has the same incoming links in a later tree. -/
def KeepsIncoming (t t' : NodeTree) : Prop := ∀ k < t.nodes.size, t'.incoming k = t.incoming k

theorem KeepsIncoming.of_links (h : t'.links = t.links) : t.KeepsIncoming t' :=
  fun k _ => incoming_of_links h k

theorem keepsIncoming_push (t : NodeTree) (n : Node) : t.KeepsIncoming (t.push n) := .of_links rfl

/-- What enters the old nodes is kept along two stretches, as nodes are not taken away in between. -/
theorem KeepsIncoming.trans (h₁ : t.KeepsIncoming t₁) (hsize : t.nodes.size ≤ t₁.nodes.size)
    (h₂ : t₁.KeepsIncoming t') : t.KeepsIncoming t' :=
  fun k hk => (h₂ k (Nat.lt_of_lt_of_le hk hsize)).trans (h₁ k hk)

/-- A node that was not there may be fed. -/
theorem KeepsIncoming.feedAll (h : t.KeepsIncoming t') (hnew : t.nodes.size ≤ node)
    (feeds : List (Nat × Item)) : t.KeepsIncoming (t'.feedAll node feeds) :=
  fun k hk => (incoming_feedAll_of_ne (Nat.ne_of_lt (Nat.lt_of_lt_of_le hk hnew)) feeds).trans (h k hk)

theorem LinksEnter.incoming_eq_nil (h : t.LinksEnter) (hk : t.nodes.size ≤ k) :
    t.incoming k = [] := by
  refine List.filter_eq_nil_iff.2 fun l hl heq => ?_
  have hlt := h l (Array.mem_toList_iff.1 hl)
  rw [eq_of_beq heq] at hlt
  exact absurd hlt (Nat.not_lt.2 hk)

end NodeTree

namespace Machine

variable {m m' : Machine}

/-- A step that leaves the links which enter older nodes. -/
def KeepsIncoming (body : Machine → Except RunError Machine) : Prop :=
  ∀ m m', body m = .ok m' → m.tree.KeepsIncoming m'.tree

/-- A repeat zone keeps what enters older nodes if its body does. It feeds its own two nodes only. -/
theorem zone_keepsIncoming {ops : List Op} {body : Machine → Except RunError Machine}
    (hbody : KeepsIncoming body) (h : m.zone ops body = .ok m') :
    m.tree.KeepsIncoming m'.tree := by
  obtain ⟨count, rest, currents, inner, finals, -, -, hinner, -, rfl⟩ := zone_ok h
  have hzone : m.tree.KeepsIncoming (m.tree.addZone (m.carried ops)) := .of_links rfl
  have hstart := hzone.feedAll (Nat.le_refl m.tree.nodes.size) (numbered 0 (count :: currents))
  have hsize : m.tree.nodes.size ≤ (m.zoneStart (m.carried ops) count currents).tree.nodes.size := by
    rw [size_zoneStart]
    exact Nat.le_add_right ..
  have hin := hstart.trans hsize (hbody _ _ hinner)
  exact hin.feedAll (Nat.le_succ _) _

mutual

/-- Each op keeps what enters older nodes, as it feeds only nodes that it adds itself. The induction
is on the op and its body. -/
theorem runOp_keepsIncoming : (op : Op) → KeepsIncoming (runOp op)
  | .pushValue (some _), _, _, h | .pushValue none, _, _, h | .destroyVar _, _, _, h
  | .endOfStatement, _, _, h => by
    cases h
    exact .of_links rfl
  | .createVar _, _, _, h => by
    obtain rfl := createVar_ok h
    exact .of_links rfl
  | .getVar _, _, _, h => by
    obtain ⟨item, -, h⟩ := run_bind_ok.1 h
    cases h
    exact .of_links rfl
  | .bindVar _, _, _, h | .pop, _, _, h => by
    obtain ⟨⟨item, m₁⟩, hpop, h⟩ := run_bind_ok.1 h
    obtain ⟨rest, -, rfl⟩ := pop_ok hpop
    cases h
    exact .of_links rfl
  | .getOutput _, _, _, h => by
    obtain ⟨_, _, _, -, -, rfl⟩ := getOutput_ok h
    exact .of_links rfl
  | .setOutput _ _, _, _, h | .renameNode _, _, _, h => by
    obtain ⟨id, rfl⟩ := modifyNewest_ok h
    exact .of_links rfl
  | .setFunctionOut _, _, _, h => by
    obtain ⟨_, _, -, rfl⟩ := setFunctionOut_ok h
    exact .of_links rfl
  | .splitStruct, _, _, h => by
    obtain ⟨_, _, -, rfl⟩ := splitBundle_ok h
    exact .of_links rfl
  | .callBuiltin _ _, m, _, h => by
    obtain ⟨args, rest, -, -, -, rfl⟩ := callBuiltin_ok h
    rw [pushOutputs_tree]
    exact (m.tree.keepsIncoming_push _).feedAll (Nat.le_refl _) _
  | .callFunction _ inputs outputs body, m, _, h => by
    obtain ⟨args, rest, inner, -, -, hinner, rfl⟩ := callFunction_ok h
    rw [pushOutputs_tree]
    exact runOps_keepsIncoming body { m with
      stack := []
      env := Table.ofList (inputs.zip args)
      outputs := List.replicate outputs .empty } inner hinner
  | .callGroup _ _ _ _, m, _, h => by
    obtain ⟨args, rest, groups, -, -, -, rfl⟩ := callGroup_built h
    rw [pushOutputs_tree]
    exact (m.tree.keepsIncoming_push _).feedAll (Nat.le_refl _) _
  | .zone body, _, _, h => zone_keepsIncoming (runOps_keepsIncoming body) h

/-- A run neither adds nor removes a link that enters an older node. -/
theorem runOps_keepsIncoming : (ops : List Op) → KeepsIncoming (runOps ops)
  | [], _, _, h => by
    cases h
    exact .of_links rfl
  | op :: ops, m, m', h => by
    obtain ⟨m₁, h₁, h⟩ := run_bind_ok.1 h
    exact (runOp_keepsIncoming op m m₁ h₁).trans (runOp_extends op m m₁ h₁).nodes
      (runOps_keepsIncoming ops m₁ m' h)

end

end Machine

/-! ### Zones -/

namespace NodeTree

/-- A node that a step has added to a tree: what it is, the items of its zone, and what enters it. Socket
`k` is set to the item `feeds[k]` if that is a constant and has a link from it if it is a socket. Only if
the first tree has links to nodes that are not there are there other links to the node. -/
structure Wired (t t' : NodeTree) (id : NodeId) (key : String) (paired : Option NodeId)
    (items : List RepeatItem) (feeds : List Item) : Prop where
  node : ∃ n : Node, t'.nodes[id]? = some n ∧ n.key = key ∧ n.pairedWith = paired ∧
    n.repeatItems = items ∧ ∀ k, n.inputs.get? k = feeds[k]?.bind Item.value?
  links : t'.incoming id =
    ((t.incoming id).filter fun l =>
      (feedLinks id (Machine.numbered 0 feeds)).all fun k => l.toSocket != k.toSocket) ++
      feedLinks id (Machine.numbered 0 feeds)
  only : t.LinksEnter → t'.incoming id = feedLinks id (Machine.numbered 0 feeds)

variable {t t₁ t' : NodeTree} {id : NodeId} {feeds : List Item}

/-- A new node whose sockets are fed in order is wired with these items. It has no values of its own
before, and no link of its tree enters it. -/
theorem wired_feedAll {n : Node} (hid : t.nodes.size ≤ id) (hnode : t₁.nodes[id]? = some n)
    (hinputs : n.inputs = ∅) (hlinks : t₁.incoming id = t.incoming id) (feeds : List Item) :
    t.Wired (t₁.feedAll id (Machine.numbered 0 feeds)) id n.key n.pairedWith n.repeatItems feeds := by
  have hfed : (t₁.feedAll id (Machine.numbered 0 feeds)).incoming id = _ :=
    incoming_feedAll (Machine.nodup_numbered 0 feeds)
  rw [hlinks] at hfed
  refine ⟨?_, hfed, fun henter => ?_⟩
  · obtain ⟨inputs, hnode', hvalues⟩ := getElem?_feedAll_numbered hnode 0 feeds
    refine ⟨{ n with inputs }, hnode', rfl, rfl, rfl, fun k => ?_⟩
    rw [hvalues, hinputs, if_pos (Nat.zero_le k), Nat.sub_zero, Table.get?_empty, Option.or_none]
  · rw [hfed, henter.incoming_eq_nil hid]
    rfl

/-- A wired node stays wired while a tree grows and no link to it comes or goes. -/
theorem Wired.grow {marked paired : Option NodeId} {key : String} {items : List RepeatItem}
    (h : t.Wired t₁ id key paired items feeds) (hgrows : t₁.Grows marked t')
    (hlinks : t'.incoming id = t₁.incoming id) : t.Wired t' id key paired items feeds := by
  obtain ⟨n, hn, hkey, hpaired, hitems, hvalues⟩ := h.node
  obtain ⟨n', hn', heq, -⟩ := hgrows.nodes id n hn
  refine ⟨⟨n', hn', ?_⟩, hlinks.trans h.links, fun henter => hlinks.trans (h.only henter)⟩
  rw [heq]
  exact ⟨hkey, hpaired, hitems, hvalues⟩

/-- A wired node stays wired while another node is fed, since feeding changes the values and the
links of the node that is fed only. -/
theorem Wired.feedAll_of_ne {paired : Option NodeId} {key : String} {items : List RepeatItem}
    {node : NodeId} (h : t.Wired t₁ id key paired items feeds) (hne : id ≠ node)
    (others : List (Nat × Item)) :
    t.Wired (t₁.feedAll node others) id key paired items feeds := by
  refine ⟨?_, ?_, ?_⟩
  · rw [getElem?_feedAll_of_ne hne]
    exact h.node
  · rw [incoming_feedAll_of_ne hne]
    exact h.links
  · rw [incoming_feedAll_of_ne hne]
    exact h.only

end NodeTree

namespace Machine

variable {m m' inner : Machine} {items : List RepeatItem}

theorem get?_insertAll_of_notMem {env : Table String Item} {x : String} {node : NodeId}
    (hx : x ∉ items.map (·.name)) (index : Nat) :
    (env.insertAll (itemSockets node index items)).get? x = env.get? x := by
  have hnone : ((itemSockets node index items).reverse.find? fun p => p.1 = x) = none := by
    refine List.find?_eq_none.2 fun p hp heq => hx ?_
    obtain ⟨⟨item, i⟩, hmem, rfl⟩ := List.mem_map.1 (List.mem_reverse.1 hp)
    exact List.mem_map.2 ⟨item, List.fst_mem_of_mem_zipIdx hmem, of_decide_eq_true heq⟩
  rw [Table.get?_insertAll, hnone]
  rfl

/-- The variables of a zone's items are bound to the sockets of a node, in order. -/
theorem get?_insertAll_itemSockets {env : Table String Item} {node : NodeId} {index i : Nat}
    {item : RepeatItem} (hnames : (items.map (·.name)).Nodup) (hitem : items[i]? = some item) :
    (env.insertAll (itemSockets node index items)).get? item.name =
      some (.socket ⟨node, index + i, item.type⟩) := by
  induction items generalizing env index i with
  | nil => cases hitem
  | cons head items ih =>
    obtain ⟨hhead, hnames⟩ := List.nodup_cons.1 hnames
    change ((env.insert head.name (.socket ⟨node, index, head.type⟩)).insertAll
      (itemSockets node (index + 1) items)).get? _ = _
    cases i with
    | zero =>
      cases hitem
      rw [get?_insertAll_of_notMem hhead, Table.get?_insert, if_pos rfl]
      rfl
    | succ i =>
      rw [ih hnames hitem, Nat.add_right_comm, Nat.add_assoc]

/-- The node of a zone that its body is entered by. -/
theorem wired_zoneStart (m : Machine) (items : List RepeatItem) (count : Item)
    (currents : List Item) :
    m.tree.Wired (m.zoneStart items count currents).tree m.tree.nodes.size "GeometryNodeRepeatInput"
      (some (m.tree.nodes.size + 1)) items (count :: currents) := by
  have hfirst := NodeTree.getElem?_addZone m.tree items m.tree.nodes.size
  rw [if_neg (Nat.ne_of_lt (Nat.lt_succ_self _)), if_pos rfl] at hfirst
  exact NodeTree.wired_feedAll (Nat.le_refl _) hfirst rfl (NodeTree.incoming_of_links rfl _) _

/-- The node of a zone that its body is left by is fed the values that the carried variables have at
the end. The body has not fed it, as it was there before the body. -/
theorem wired_zoneEnd {count : Item} {currents finals rest : List Item}
    (hgrows : (m.zoneStart items count currents).tree.Grows m.newest inner.tree)
    (hlinks : (m.zoneStart items count currents).tree.KeepsIncoming inner.tree) :
    m.tree.Wired (inner.zoneEnd (m.tree.nodes.size + 1) items finals rest).tree
      (m.tree.nodes.size + 1) "GeometryNodeRepeatOutput" none items finals := by
  have hne : m.tree.nodes.size + 1 ≠ m.tree.nodes.size := Nat.succ_ne_self _
  have hlast : (m.zoneStart items count currents).tree.nodes[m.tree.nodes.size + 1]? =
      some {
        id := m.tree.nodes.size + 1
        key := "GeometryNodeRepeatOutput"
        repeatItems := items } := by
    change (NodeTree.feedAll _ _ _).nodes[m.tree.nodes.size + 1]? = _
    rw [NodeTree.getElem?_feedAll_of_ne hne, NodeTree.getElem?_addZone, if_pos rfl]
  have hbefore : (m.zoneStart items count currents).tree.incoming (m.tree.nodes.size + 1) =
      m.tree.incoming (m.tree.nodes.size + 1) :=
    (NodeTree.incoming_feedAll_of_ne hne _).trans (NodeTree.incoming_of_links rfl _)
  have hbody := hlinks (m.tree.nodes.size + 1) (NodeTree.lt_size_of_getElem? hlast)
  obtain ⟨n, hn, heq, -⟩ := hgrows.nodes _ _ hlast
  have hwired := NodeTree.wired_feedAll (Nat.le_succ _) hn (by rw [heq]) (hbody.trans hbefore) finals
  rw [heq] at hwired
  exact hwired

/-- How a zone is wired. Its items are the variables that the body binds, each at its first place, that
stand for a constant or a socket where the zone is entered. The input node takes the count and then what
these variables stand for there, and the output node takes what they stand for where the body ends.
Nothing else enters the two nodes. After the zone the variables stand for the sockets of the output node,
the other ones are as the body has left them, and the count is gone from the stack. -/
theorem zone_wires {body : List Op} (h : runOp (.zone body) m = .ok m') :
    ∃ items count befores inner afters,
      items = ((Op.boundOnce body).filterMap fun n =>
        ((m.env.get? n).bind Item.type?).map fun t => (⟨n, t⟩ : RepeatItem)) ∧
      m.stack = count :: m'.stack ∧
      Holds m.env items befores ∧
      runOps body (m.zoneStart items count befores) = .ok inner ∧
      Holds inner.env items afters ∧
      m.tree.Wired m'.tree m.tree.nodes.size "GeometryNodeRepeatInput"
        (some (m.tree.nodes.size + 1)) items (count :: befores) ∧
      m.tree.Wired m'.tree (m.tree.nodes.size + 1) "GeometryNodeRepeatOutput" none items afters ∧
      (∀ i item, items[i]? = some item →
        m'.env.get? item.name = some (.socket ⟨m.tree.nodes.size + 1, i, item.type⟩)) ∧
      ∀ x ∉ items.map (·.name), m'.env.get? x = inner.env.get? x := by
  obtain ⟨count, rest, befores, inner, afters, hstack, hbefores, hinner, hafters, rfl⟩ := zone_ok h
  have hgrows := (runOps_grows body _ _ hinner).tree
  have hlinks := runOps_keepsIncoming body _ _ hinner
  have hsize := size_zoneStart m (m.carried body) count befores
  refine ⟨m.carried body, count, befores, inner, afters, ?_, hstack, hbefores, hinner, hafters, ?_,
    wired_zoneEnd hgrows hlinks, fun i item hitem => ?_, fun x hx => get?_insertAll_of_notMem hx 0⟩
  · rw [carried, boundNamesAll_eq]
  · -- The end of the zone feeds the other node.
    have hfirst := (wired_zoneStart m _ count befores).grow hgrows (hlinks _ (by omega))
    exact hfirst.feedAll_of_ne (Nat.ne_of_lt (Nat.lt_succ_self _)) _
  · rw [← Nat.zero_add i]
    exact get?_insertAll_itemSockets (nodup_carried m body) hitem

/-- A machine with a count on its stack, a variable that stands for a socket and one that stands for a
constant. -/
def countOnStack : Machine where
  tree := {
    name := "zone"
    kind := .geometry
    nodes := #[{ id := 0, key := "NodeReroute", label := some "x" }] }
  stack := [.constant (.int 3), .constant (.bool true)]
  env := Table.ofList [("x", .socket ⟨0, 0, .float⟩), ("k", .constant (.int 1))]

/-- A body that binds a temporary, binds `k` in a zone of its own, and binds `x` and a new variable. -/
def rebindingZone : List Op :=
  [.getVar "x", .bindVar "#0", .pushValue (some (.int 2)), .zone [.getVar "k", .bindVar "k"],
    .getVar "#0", .bindVar "x", .getVar "x", .bindVar "k", .getVar "k", .bindVar "fresh"]

/-- A zone with a zone in its body that rebinds the same variable, and the links and values that
enter its two nodes. -/
theorem zone_wires_rebindingZone :
    ∃ m' befores afters, runOp (.zone rebindingZone) countOnStack = .ok m' ∧
      countOnStack.tree.Wired m'.tree 1 "GeometryNodeRepeatInput" (some 2)
        [⟨"k", .int⟩, ⟨"x", .float⟩] (.constant (.int 3) :: befores) ∧
      countOnStack.tree.Wired m'.tree 2 "GeometryNodeRepeatOutput" none
        [⟨"k", .int⟩, ⟨"x", .float⟩] afters ∧
      m'.env.get? "x" = some (.socket ⟨2, 1, .float⟩) ∧ m'.stack = [.constant (.bool true)] := by
  have hrun : (runOp (.zone rebindingZone) countOnStack).toBool = true := by decide +kernel
  cases h : runOp (.zone rebindingZone) countOnStack with
  | error e =>
    rw [h] at hrun
    cases hrun
  | ok m' =>
    obtain ⟨items, count, befores, inner, afters, hitems, hstack, -, -, -, hfirst, hlast, hbound, -⟩ :=
      zone_wires h
    have hitems' : items = [⟨"k", .int⟩, ⟨"x", .float⟩] := hitems.trans (by decide +kernel)
    subst hitems'
    obtain ⟨rfl, hrest⟩ := List.cons.inj hstack
    exact ⟨m', befores, afters, rfl, hfirst, hlast, hbound 1 _ rfl, hrest.symm⟩

end Machine
end NodeFormula

import Mathlib.Logic.Relation
import NodeFormula.Proofs.Graph.Feeding

/-!
# Building trees by edits

`NodeTree.Edit` lists the changes by which a tree is built, and the conditions under which each is
made. The condition that carries the theory is on feeding a node: no link leaves the node, so none of
its outputs has been used yet. A tree that is built by such edits stays sound (`Building.sound`): well
formed, without cycles and, if each input socket is fed at most once, with no socket that has both a
link and a value.

Numbers of nodes do not order a tree: the output node of a zone is there before the nodes that feed
it. Acyclicity therefore follows the edits and not the numbers.
-/

namespace NodeFormula

/-- The sockets of an item belong to nodes that satisfy `P`. -/
inductive Item.From (P : NodeId → Prop) : Item → Prop where
  | empty : From P .empty
  | constant (v : Constant) : From P (.constant v)
  | socket {s : Socket} : P s.node → From P (.socket s)
  | bundle {items : List Item} : (∀ i ∈ items, From P i) → From P (.bundle items)

theorem Item.From.imp {P Q : NodeId → Prop} (hPQ : ∀ k, P k → Q k) {i : Item} (h : i.From P) :
    i.From Q := by
  induction h with
  | empty => exact .empty
  | constant v => exact .constant v
  | socket hs => exact .socket (hPQ _ hs)
  | bundle _ ih => exact .bundle ih

theorem Item.From.and_below {P : NodeId → Prop} {n : Nat} {i : Item} (h : i.From P)
    (hn : i.Below n) : i.From fun k => k < n ∧ P k := by
  induction h with
  | empty => exact .empty
  | constant v => exact .constant v
  | socket hs => cases hn with | socket hlt => exact .socket ⟨hlt, hs⟩
  | bundle _ ih => cases hn with | bundle hlt => exact .bundle fun i hi => ih i hi (hlt i hi)

/-- An item comes from nodes below a number exactly if its sockets are below it. The one form is used
for runs and the other for edits. -/
theorem Item.from_iff_below {n : Nat} {i : Item} : i.From (· < n) ↔ i.Below n := by
  constructor
  · intro h
    induction h with
    | empty => exact .empty
    | constant v => exact .constant v
    | socket hs => exact .socket hs
    | bundle _ ih => exact .bundle ih
  · intro h
    induction h with
    | empty => exact .empty
    | constant v => exact .constant v
    | socket hs => exact .socket hs
    | bundle _ ih => exact .bundle ih

/-- An item from before some nodes were added does not come from one of them. -/
theorem Item.Below.from_old {n n' : Nat} {node : NodeId} {i : Item} (h : i.Below n) (hn : n ≤ n')
    (hnode : n ≤ node) : i.From fun k => k < n' ∧ k ≠ node :=
  (Item.from_iff_below.2 h).imp fun _ hk =>
    ⟨Nat.lt_of_lt_of_le hk hn, Nat.ne_of_lt (Nat.lt_of_lt_of_le hk hnode)⟩

/-- What a node is in its tree: its number and key, the group it stands for, and its part in a zone. -/
structure Role where
  id : NodeId
  key : String
  group : Option String
  pairedWith : Option NodeId
  repeatItems : List RepeatItem

/-- The role of a node. -/
def Node.role (n : Node) : Role := ⟨n.id, n.key, n.group, n.pairedWith, n.repeatItems⟩

namespace NodeTree

/-! ### Well-formed trees -/

/-- A tree whose nodes are numbered by position, whose links join its nodes and enter different
sockets, whose zones are pairs of nodes with the same items, and whose group nodes stand for groups of
the given names. -/
structure WellFormed (groups : List String) (t : NodeTree) : Prop where
  ids : ∀ (i : NodeId) (n : Node), t.nodes[i]? = some n → n.id = i
  links : t.LinksInRange
  apart : t.links.toList.Pairwise fun k l => ¬ (k.toNode = l.toNode ∧ k.toSocket = l.toSocket)
  paired : ∀ (i : NodeId) (n : Node) (o : NodeId), t.nodes[i]? = some n → n.pairedWith = some o →
    ∃ last : Node, t.nodes[o]? = some last ∧ last.key = "GeometryNodeRepeatOutput" ∧
      last.repeatItems = n.repeatItems
  pairs : ∀ (i j : NodeId) (n n' : Node) (o : NodeId), t.nodes[i]? = some n →
    t.nodes[j]? = some n' → n.pairedWith = some o → n'.pairedWith = some o → i = j
  named : ∀ (i : NodeId) (n : Node) (g : String), t.nodes[i]? = some n → n.group = some g → g ∈ groups

/-- No input socket has both a link and a value. -/
def FedOnce (t : NodeTree) : Prop :=
  ∀ l ∈ t.links, ∀ n : Node, t.nodes[l.toNode]? = some n → n.inputs.get? l.toSocket = none

/-- A link goes from one node to another. -/
def Joins (t : NodeTree) (a b : NodeId) : Prop := ∃ l ∈ t.links, l.fromNode = a ∧ l.toNode = b

/-- No path of links leads back to where it starts. -/
def Acyclic (t : NodeTree) : Prop := ∀ n, ¬ Relation.TransGen t.Joins n n

/-- A tree is well formed and has no cycles, and in a strict setting its sockets are fed once. -/
structure Sound (strict : Prop) (groups : List String) (t : NodeTree) : Prop where
  wellFormed : t.WellFormed groups
  acyclic : t.Acyclic
  fedOnce : strict → t.FedOnce

/-! ### Edits -/

/-- No link leaves a node. -/
def Sink (t : NodeTree) (node : NodeId) : Prop := ∀ l ∈ t.links, l.fromNode ≠ node

/-- An input socket has neither a link nor a value. -/
structure Unfed (t : NodeTree) (node : NodeId) (input : Nat) : Prop where
  link : ∀ l ∈ t.links, ¬ (l.toNode = node ∧ l.toSocket = input)
  value : ∀ n : Node, t.nodes[node]? = some n → n.inputs.get? input = none

/-- A change by which a tree is built. Nodes below `base` are not fed, group nodes stand for the given
groups, and in a strict edit each socket is fed at most once. -/
inductive Edit (strict : Prop) (base : Nat) (groups : List String) : NodeTree → NodeTree → Prop where
  | add (t : NodeTree) {n : Node} : n.id = t.nodes.size → n.pairedWith = none →
      (∀ g, n.group = some g → g ∈ groups) → Edit strict base groups t (t.push n)
  | change (t : NodeTree) (id : NodeId) {f : Node → Node} : (∀ n, (f n).role = n.role) →
      (∀ n, (f n).inputs = n.inputs) → Edit strict base groups t (t.modifyNode id f)
  | zone (t : NodeTree) (items : List RepeatItem) : Edit strict base groups t (t.addZone items)
  | feed {t : NodeTree} {node : NodeId} {input : Nat} {i : Item} : base ≤ node →
      node < t.nodes.size → i.From (fun k => k < t.nodes.size ∧ k ≠ node) → t.Sink node →
      (strict → t.Unfed node input) → Edit strict base groups t (t.feed node input i)

/-- A tree is built from another by edits. -/
abbrev Building (strict : Prop) (base : Nat) (groups : List String) : NodeTree → NodeTree → Prop :=
  Relation.ReflTransGen (Edit strict base groups)

variable {strict : Prop} {base base' : Nat} {groups groups' : List String} {t t' : NodeTree}

theorem Edit.size_le (h : Edit strict base groups t t') : t.nodes.size ≤ t'.nodes.size := by
  cases h with
  | add | zone | change | feed => simp

theorem Edit.mono (hb : base' ≤ base) (hg : groups ⊆ groups') (h : Edit strict base groups t t') :
    Edit strict base' groups' t t' := by
  cases h with
  | add hid hpair hgroup => exact .add t hid hpair fun g h => hg (hgroup g h)
  | change id hr hi => exact .change t id hr hi
  | zone items => exact .zone t items
  | feed hnode hlt hi hsink hunfed => exact .feed (Nat.le_trans hb hnode) hlt hi hsink hunfed

theorem Building.mono (hb : base' ≤ base) (hg : groups ⊆ groups')
    (h : Building strict base groups t t') : Building strict base' groups' t t' :=
  Relation.ReflTransGen.mono (fun _ _ => Edit.mono hb hg) _ _ h

/-! ### Nodes and links after feeding -/

theorem mem_links_feed {node : NodeId} {input : Nat} {i : Item} {l : Link}
    (h : l ∈ (t.feed node input i).links) :
    l ∈ t.links ∨ ∃ s, i = .socket s ∧ l = ⟨s.node, s.index, node, input⟩ := by
  cases i with
  | empty | constant | bundle => exact .inl h
  | socket s =>
    rcases Array.mem_push.1 h with h | rfl
    · exact .inl (Array.mem_filter.1 h).1
    · exact .inr ⟨s, rfl, rfl⟩

/-- A node after one of the tree's nodes is fed is a node from before with the same role. Its values
are the same too, unless it is the node that is fed and the item is a constant. -/
theorem exists_node_of_feed {node k : NodeId} {input : Nat} {i : Item} {n' : Node}
    (h : (t.feed node input i).nodes[k]? = some n') : ∃ n, t.nodes[k]? = some n ∧
      n'.role = n.role ∧ (n'.inputs = n.inputs ∨
        node = k ∧ ∃ v, i = .constant v ∧ n'.inputs = n.inputs.insert input v) := by
  cases i with
  | empty | socket | bundle => exact ⟨n', h, rfl, .inl rfl⟩
  | constant v =>
    simp only [feed, modifyNode, Array.getElem?_modify] at h
    split at h
    next hk =>
      obtain ⟨n, hn, rfl⟩ := Option.map_eq_some_iff.1 h
      exact ⟨n, hn, rfl, .inr ⟨hk, v, rfl, rfl⟩⟩
    next => exact ⟨n', h, rfl, .inl rfl⟩

theorem Sink.feed {node other : NodeId} {input : Nat} {i : Item} (h : t.Sink node)
    (hi : i.From (· ≠ node)) : (t.feed other input i).Sink node := by
  intro l hl
  rcases mem_links_feed hl with hl | ⟨s, rfl, rfl⟩
  · exact h l hl
  · cases hi with | socket hs => exact hs

/-- An input that is not fed stays so while others are fed, both by a value and by a link. -/
theorem Unfed.feed {node k : NodeId} {input socket : Nat} {i : Item} (h : t.Unfed k socket)
    (hne : ¬ (node = k ∧ input = socket)) : (t.feed node input i).Unfed k socket := by
  constructor
  · intro l hl
    rcases mem_links_feed hl with hl | ⟨s, -, rfl⟩
    · exact h.link l hl
    · exact hne
  · intro n' hn'
    obtain ⟨n, hn, -, hinputs | ⟨rfl, v, -, hinputs⟩⟩ := exists_node_of_feed hn'
    · rw [hinputs]
      exact h.value n hn
    · have hsocket : socket ≠ input := fun heq => hne ⟨rfl, heq.symm⟩
      rw [hinputs, Table.get?_insert, if_neg hsocket]
      exact h.value n hn

/-- Different sockets of a node that no link leaves may be fed one after the other. -/
theorem building_feedAll {node : NodeId} {feeds : List (Nat × Item)} (hbase : base ≤ node)
    (hnode : node < t.nodes.size)
    (hfrom : ∀ feed ∈ feeds, feed.2.From fun k => k < t.nodes.size ∧ k ≠ node) (hsink : t.Sink node)
    (hunfed : strict → (feeds.map (·.1)).Nodup ∧ ∀ feed ∈ feeds, t.Unfed node feed.1) :
    Building strict base groups t (t.feedAll node feeds) := by
  induction feeds generalizing t with
  | nil => exact .refl
  | cons feed feeds ih =>
    have hfirst := hfrom feed (.head _)
    have havoids : feed.2.From (· ≠ node) := hfirst.imp fun _ hk => hk.2
    refine .head (.feed hbase hnode hfirst hsink fun hs => (hunfed hs).2 feed (.head _)) ?_
    refine ih (by simpa using hnode) ?_ (hsink.feed havoids) fun hs => ?_
    · intro other hother
      simpa using hfrom other (.tail _ hother)
    · obtain ⟨hnodup, hall⟩ := hunfed hs
      obtain ⟨hne, hnodup⟩ := List.nodup_cons.1 hnodup
      refine ⟨hnodup, fun other hother => (hall other (.tail _ hother)).feed ?_⟩
      rintro ⟨-, heq⟩
      exact hne (List.mem_map.2 ⟨other, hother, heq.symm⟩)

/-- A node without links and values. -/
structure Fresh (t : NodeTree) (node : NodeId) : Prop where
  sink : t.Sink node
  unfed : ∀ input, t.Unfed node input

/-- A node that is new in a tree is fresh: no link can mention it, since links are in range, and its
inputs have no values. -/
theorem Fresh.of_new {k : NodeId} (h : t.LinksInRange) (hl : t'.links = t.links)
    (hk : t.nodes.size ≤ k) (hn : ∀ n : Node, t'.nodes[k]? = some n → n.inputs = ∅) : t'.Fresh k := by
  refine ⟨fun l hmem => ?_, fun input => ⟨fun l hmem => ?_, fun n hnode => ?_⟩⟩
  · rw [hl] at hmem
    exact Nat.ne_of_lt (Nat.lt_of_lt_of_le (h l hmem).1 hk)
  · rw [hl] at hmem
    rintro ⟨rfl, -⟩
    exact absurd (h l hmem).2 (Nat.not_lt.2 hk)
  · rw [hn n hnode]
    rfl

/-- A node stays fresh while another is fed from other nodes. -/
theorem Fresh.feedAll {node other : NodeId} {feeds : List (Nat × Item)} (h : t.Fresh node)
    (hne : other ≠ node) (hfrom : ∀ feed ∈ feeds, feed.2.From (· ≠ node)) :
    (t.feedAll other feeds).Fresh node := by
  induction feeds generalizing t with
  | nil => exact h
  | cons feed feeds ih =>
    refine ih ⟨h.sink.feed (hfrom feed (.head _)), fun input => (h.unfed input).feed ?_⟩
      fun feed hfeed => hfrom feed (.tail _ hfeed)
    rintro ⟨heq, -⟩
    exact hne heq

theorem Fresh.building {node : NodeId} {feeds : List (Nat × Item)} (h : t.Fresh node)
    (hbase : base ≤ node) (hnode : node < t.nodes.size)
    (hfrom : ∀ feed ∈ feeds, feed.2.From fun k => k < t.nodes.size ∧ k ≠ node)
    (hnodup : strict → (feeds.map (·.1)).Nodup) :
    Building strict base groups t (t.feedAll node feeds) :=
  building_feedAll hbase hnode hfrom h.sink fun hs => ⟨hnodup hs, fun feed _ => h.unfed feed.1⟩

/-! ### What edits keep -/

theorem getElem?_push (t : NodeTree) (n : Node) (i : NodeId) :
    (t.push n).nodes[i]? = if i = t.nodes.size then some n else t.nodes[i]? := by
  simp [push, Array.getElem?_push]

/-- The nodes after adding a zone: its input node and its output node are last and the others are
where they were. -/
theorem getElem?_addZone (t : NodeTree) (items : List RepeatItem) (i : NodeId) :
    (t.addZone items).nodes[i]? =
      if i = t.nodes.size + 1 then
        some { id := t.nodes.size + 1, key := "GeometryNodeRepeatOutput", repeatItems := items }
      else if i = t.nodes.size then
        some {
          id := t.nodes.size
          key := "GeometryNodeRepeatInput"
          pairedWith := some (t.nodes.size + 1)
          repeatItems := items }
      else t.nodes[i]? := by
  simp [addZone, getElem?_push]

theorem lt_size_of_getElem? {i : NodeId} {n : Node} (h : t.nodes[i]? = some n) : i < t.nodes.size :=
  (Array.getElem?_eq_some_iff.1 h).1

theorem getElem?_push_of_lt {n : Node} {k : NodeId} (hk : k < t.nodes.size) :
    (t.push n).nodes[k]? = t.nodes[k]? := by
  rw [getElem?_push, if_neg (Nat.ne_of_lt hk)]

theorem getElem?_addZone_of_lt {items : List RepeatItem} {k : NodeId} (hk : k < t.nodes.size) :
    (t.addZone items).nodes[k]? = t.nodes[k]? := by
  rw [getElem?_addZone, if_neg (Nat.ne_of_lt (Nat.lt_succ_of_lt hk)), if_neg (Nat.ne_of_lt hk)]

/-- A tree stays well formed if its nodes keep their roles and its links are still in range and enter
different sockets. Positions, labels and values of nodes play no part in it. -/
theorem WellFormed.of_roles (h : t.WellFormed groups)
    (hroles : ∀ i : NodeId, t'.nodes[i]?.map Node.role = t.nodes[i]?.map Node.role)
    (hlinks : t'.LinksInRange)
    (hapart : t'.links.toList.Pairwise fun k l => ¬ (k.toNode = l.toNode ∧ k.toSocket = l.toSocket)) :
    t'.WellFormed groups := by
  have hback : ∀ (i : NodeId) (n' : Node), t'.nodes[i]? = some n' →
      ∃ n, t.nodes[i]? = some n ∧ n.role = n'.role := by
    intro i n' hn'
    have hrole := hroles i
    rw [hn'] at hrole
    exact Option.map_eq_some_iff.1 hrole.symm
  refine ⟨fun i n' hn' => ?_, hlinks, hapart, fun i n' o hn' ho => ?_,
    fun i j n' m' o hn' hm' ho ho' => ?_, fun i n' g hn' hg => ?_⟩
  · obtain ⟨n, hn, hrole⟩ := hback i n' hn'
    exact (congrArg Role.id hrole).symm.trans (h.ids i n hn)
  · obtain ⟨n, hn, hrole⟩ := hback i n' hn'
    obtain ⟨last, hlast, hkey, hitems⟩ := h.paired i n o hn ((congrArg Role.pairedWith hrole).trans ho)
    have hsome := hroles o
    rw [hlast] at hsome
    obtain ⟨last', hlast', hrole'⟩ := Option.map_eq_some_iff.1 hsome
    refine ⟨last', hlast', (congrArg Role.key hrole').trans hkey, ?_⟩
    exact (congrArg Role.repeatItems hrole').trans (hitems.trans (congrArg Role.repeatItems hrole))
  · obtain ⟨n, hn, hrole⟩ := hback i n' hn'
    obtain ⟨m, hm, hrole'⟩ := hback j m' hm'
    exact h.pairs i j n m o hn hm ((congrArg Role.pairedWith hrole).trans ho)
      ((congrArg Role.pairedWith hrole').trans ho')
  · obtain ⟨n, hn, hrole⟩ := hback i n' hn'
    exact h.named i n g hn ((congrArg Role.group hrole).trans hg)

theorem LinksInRange.of_size (h : t.LinksInRange) (hl : t'.links = t.links)
    (hn : t.nodes.size ≤ t'.nodes.size) : t'.LinksInRange := by
  intro l hmem
  rw [hl] at hmem
  obtain ⟨hfrom, hto⟩ := h l hmem
  exact ⟨Nat.lt_of_lt_of_le hfrom hn, Nat.lt_of_lt_of_le hto hn⟩

/-- A new node keeps a tree well formed, if it has its own number, is no part of a zone and stands
for a finished group if any. All other nodes keep their roles. -/
theorem WellFormed.push (h : t.WellFormed groups) {new : Node} (hid : new.id = t.nodes.size)
    (hpair : new.pairedWith = none) (hgroup : ∀ g, new.group = some g → g ∈ groups) :
    (t.push new).WellFormed groups := by
  have hback : ∀ {i n}, (t.push new).nodes[i]? = some n →
      i = t.nodes.size ∧ n = new ∨ t.nodes[i]? = some n := by
    intro i n hn
    rw [getElem?_push] at hn
    split at hn
    next hi => cases hn; exact .inl ⟨hi, rfl⟩
    next => exact .inr hn
  refine ⟨fun i n hn => ?_, h.links.of_size rfl (by simp), h.apart, fun i n o hn ho => ?_,
    fun i j n n' o hn hn' ho ho' => ?_, fun i n g hn hg => ?_⟩
  · rcases hback hn with ⟨rfl, rfl⟩ | hn
    · exact hid
    · exact h.ids i n hn
  · rcases hback hn with ⟨-, rfl⟩ | hn
    · rw [hpair] at ho
      cases ho
    · obtain ⟨last, hlast, hkey, hitems⟩ := h.paired i n o hn ho
      exact ⟨last, (getElem?_push_of_lt (lt_size_of_getElem? hlast)).trans hlast, hkey, hitems⟩
  · rcases hback hn with ⟨-, rfl⟩ | hn
    · rw [hpair] at ho
      cases ho
    · rcases hback hn' with ⟨-, rfl⟩ | hn'
      · rw [hpair] at ho'
        cases ho'
      · exact h.pairs i j n n' o hn hn' ho ho'
  · rcases hback hn with ⟨-, rfl⟩ | hn
    · exact hgroup g hg
    · exact h.named i n g hn hg

/-- A new zone keeps a tree well formed: its two nodes are paired with each other, and no other node
is paired with one of them. Links are as before. -/
theorem WellFormed.addZone (h : t.WellFormed groups) (items : List RepeatItem) :
    (t.addZone items).WellFormed groups := by
  -- The output node of the new zone is paired with none, and no old node is paired with it.
  have hback : ∀ {i n'}, (t.addZone items).nodes[i]? = some n' →
      (n'.id = i ∧ n'.group = none ∧ n'.repeatItems = items ∧
        ∀ o, n'.pairedWith = some o → i = t.nodes.size ∧ o = t.nodes.size + 1) ∨
      t.nodes[i]? = some n' := by
    intro i n' hn'
    rw [getElem?_addZone] at hn'
    split at hn'
    next hi => cases hn'; exact .inl ⟨hi.symm, rfl, rfl, nofun⟩
    next =>
      split at hn'
      next hi =>
        cases hn'
        exact .inl ⟨hi.symm, rfl, rfl, fun o ho => ⟨hi, (Option.some.inj ho).symm⟩⟩
      next => exact .inr hn'
  have hold : ∀ (i : NodeId) (n : Node) (o : NodeId), t.nodes[i]? = some n →
      n.pairedWith = some o → o < t.nodes.size := by
    intro i n o hn ho
    obtain ⟨last, hlast, -, -⟩ := h.paired i n o hn ho
    exact lt_size_of_getElem? hlast
  refine ⟨fun i n hn => ?_, h.links.of_size rfl (by simp), h.apart, fun i n o hn ho => ?_,
    fun i j n n' o hn hn' ho ho' => ?_, fun i n g hn hg => ?_⟩
  · rcases hback hn with ⟨hid, -⟩ | hn
    · exact hid
    · exact h.ids i n hn
  · rcases hback hn with ⟨-, -, hitems, hpair⟩ | hn
    · obtain ⟨-, rfl⟩ := hpair o ho
      exact ⟨_, by rw [getElem?_addZone, if_pos rfl], rfl, hitems.symm⟩
    · obtain ⟨last, hlast, hkey, hitems⟩ := h.paired i n o hn ho
      exact ⟨last, (getElem?_addZone_of_lt (lt_size_of_getElem? hlast)).trans hlast, hkey, hitems⟩
  · rcases hback hn with ⟨-, -, -, hpair⟩ | hn
    · obtain ⟨hi, rfl⟩ := hpair o ho
      rcases hback hn' with ⟨-, -, -, hpair'⟩ | hn'
      · exact hi.trans (hpair' _ ho').1.symm
      · exact absurd (hold j n' _ hn' ho') (Nat.not_lt.2 (Nat.le_succ _))
    · rcases hback hn' with ⟨-, -, -, hpair'⟩ | hn'
      · obtain ⟨-, rfl⟩ := hpair' o ho'
        exact absurd (hold i n _ hn ho) (Nat.not_lt.2 (Nat.le_succ _))
      · exact h.pairs i j n n' o hn hn' ho ho'
  · rcases hback hn with ⟨-, hnone, -, -⟩ | hn
    · rw [hnone] at hg
      cases hg
    · exact h.named i n g hn hg

theorem LinksInRange.feed {node : NodeId} {input : Nat} {i : Item} (h : t.LinksInRange)
    (hnode : node < t.nodes.size) (hi : i.From (· < t.nodes.size)) :
    (t.feed node input i).LinksInRange := by
  intro l hl
  rw [size_nodes_feed]
  rcases mem_links_feed hl with hl | ⟨s, rfl, rfl⟩
  · exact h l hl
  · cases hi with | socket hs => exact ⟨hs, hnode⟩

/-- Feeding an existing node from existing nodes keeps a tree well formed, as it changes no role. The
socket that is fed has one link afterwards, because the link that it had is taken away. -/
theorem WellFormed.feed {node : NodeId} {input : Nat} {i : Item} (h : t.WellFormed groups)
    (hnode : node < t.nodes.size) (hi : i.From (· < t.nodes.size)) :
    (t.feed node input i).WellFormed groups := by
  refine h.of_roles (fun k => ?_) (h.links.feed hnode hi) ?_
  · cases i with
    | empty | socket | bundle => rfl
    | constant v =>
      simp only [NodeTree.feed, modifyNode, Array.getElem?_modify]
      split
      · rw [Option.map_map]
        rfl
      · rfl
  · cases i with
    | empty | constant | bundle => exact h.apart
    | socket s =>
      -- A link that entered the same socket is gone before the new one is added.
      simp only [NodeTree.feed, link, Array.toList_push, Array.toList_filter]
      refine List.pairwise_append.2 ⟨h.apart.filter _, List.pairwise_singleton .., ?_⟩
      intro k hk l hl
      cases List.mem_singleton.1 hl
      have hfree := (List.mem_filter.1 hk).2
      rintro ⟨hto, hsocket⟩
      simp [Link.enters, hto, hsocket] at hfree

theorem Edit.linksInRange (h : Edit strict base groups t t') (ht : t.LinksInRange) :
    t'.LinksInRange := by
  cases h with
  | add | zone | change => exact ht.of_size rfl (by simp)
  | feed _ hnode hi _ _ => exact ht.feed hnode (hi.imp fun _ hk => hk.1)

/-- An edit keeps a tree well formed, whichever of the edits it is. There is a lemma for each of
them. -/
theorem Edit.wellFormed (h : Edit strict base groups t t') (ht : t.WellFormed groups) :
    t'.WellFormed groups := by
  cases h with
  | add hid hpair hgroup => exact ht.push hid hpair hgroup
  | zone items => exact ht.addZone items
  | @change id f hrole _ =>
    refine ht.of_roles (fun i => ?_) (ht.links.of_size rfl (by simp)) ht.apart
    simp only [modifyNode, Array.getElem?_modify]
    split
    · rw [Option.map_map]
      exact Option.map_congr fun n _ => hrole n
    · rfl
  | feed _ hnode hi _ _ => exact ht.feed hnode (hi.imp fun _ hk => hk.1)

/-! ### No cycles -/

theorem Acyclic.of_links (h : t.Acyclic) (hl : t'.links = t.links) : t'.Acyclic := by
  have heq : t'.Joins = t.Joins := by
    unfold Joins
    rw [hl]
  rw [Acyclic, heq]
  exact h

/-- A link into a node that no link leaves closes no cycle: a path of the new tree is one of the old,
or it ends in the node, where no path goes on. -/
theorem Acyclic.feed {node : NodeId} {input : Nat} {i : Item} (h : t.Acyclic) (hsink : t.Sink node)
    (hi : i.From (· ≠ node)) : (t.feed node input i).Acyclic := by
  have hsink' : (t.feed node input i).Sink node := hsink.feed hi
  have hstep : ∀ {a b}, (t.feed node input i).Joins a b → t.Joins a b ∨ b = node := by
    rintro a b ⟨l, hl, rfl, rfl⟩
    rcases mem_links_feed hl with hl | ⟨s, -, rfl⟩
    · exact .inl ⟨l, hl, rfl, rfl⟩
    · exact .inr rfl
  -- A path is one of the old tree, or it ends in the node, where no path goes on.
  have hpath : ∀ {a b}, Relation.TransGen (t.feed node input i).Joins a b →
      Relation.TransGen t.Joins a b ∨ b = node := by
    intro a b hab
    induction hab with
    | single hjoin => exact (hstep hjoin).imp_left .single
    | tail _ hjoin ih =>
      rcases hstep hjoin with hold | rfl
      · rcases ih with ih | rfl
        · exact .inl (ih.tail hold)
        · obtain ⟨l, hl, hfrom, -⟩ := hold
          exact absurd hfrom (hsink l hl)
      · exact .inr rfl
  intro n hn
  rcases hpath hn with hold | rfl
  · exact h n hold
  · obtain ⟨b, ⟨l, hl, hfrom, -⟩, -⟩ := Relation.TransGen.head'_iff.1 hn
    exact hsink' l hl hfrom

/-- An edit makes no cycle. Feeding is the one that adds a link, and it ends at a node from which
none leaves. -/
theorem Edit.acyclic (h : Edit strict base groups t t') (ht : t.Acyclic) : t'.Acyclic := by
  cases h with
  | add | change | zone => exact ht.of_links rfl
  | feed _ _ hi hsink _ => exact ht.feed hsink (hi.imp fun _ hk => hk.2)

/-! ### Sockets that are fed once -/

theorem FedOnce.of_old (h : t.FedOnce) (ht : t.LinksInRange) (hl : t'.links = t.links)
    (hn : ∀ k < t.nodes.size, t'.nodes[k]? = t.nodes[k]?) : t'.FedOnce := by
  intro l hmem n hnode
  rw [hl] at hmem
  rw [hn _ (ht l hmem).2] at hnode
  exact h l hmem n hnode

/-- Feeding an input that is not fed yet keeps each input fed at most once. -/
theorem FedOnce.feed {node : NodeId} {input : Nat} {i : Item} (h : t.FedOnce)
    (hunfed : t.Unfed node input) : (t.feed node input i).FedOnce := by
  intro l hl n' hn'
  obtain ⟨n, hn, -, hinputs⟩ := exists_node_of_feed hn'
  rcases mem_links_feed hl with hold | ⟨s, rfl, rfl⟩
  · rcases hinputs with hinputs | ⟨hnode, v, -, hinputs⟩
    · rw [hinputs]
      exact h l hold n hn
    · have hne : l.toSocket ≠ input := fun heq => hunfed.link l hold ⟨hnode.symm, heq⟩
      rw [hinputs, Table.get?_insert, if_neg hne]
      exact h l hold n hn
  · rcases hinputs with hinputs | ⟨-, v, hv, -⟩
    · rw [hinputs]
      exact hunfed.value n hn
    · cases hv

/-- A change that leaves the values of every node's inputs alone. -/
theorem inputs_of_modifyNode {id k : NodeId} {f : Node → Node} (hf : ∀ n, (f n).inputs = n.inputs)
    {n' : Node} (h : (t.modifyNode id f).nodes[k]? = some n') :
    ∃ n, t.nodes[k]? = some n ∧ n'.inputs = n.inputs := by
  simp only [modifyNode, Array.getElem?_modify] at h
  split at h
  next =>
    obtain ⟨n, hn, rfl⟩ := Option.map_eq_some_iff.1 h
    exact ⟨n, hn, hf n⟩
  next => exact ⟨n', h, rfl⟩

/-- In a strict building every edit keeps each input fed at most once, by a value or by a link. A
strict edit feeds an input only that was not fed before. -/
theorem Edit.fedOnce (hs : strict) (h : Edit strict base groups t t') (hl : t.LinksInRange)
    (ht : t.FedOnce) : t'.FedOnce := by
  cases h with
  | add => exact ht.of_old hl rfl fun _ hk => getElem?_push_of_lt hk
  | zone => exact ht.of_old hl rfl fun _ hk => getElem?_addZone_of_lt hk
  | change _ _ hi =>
    intro l hmem n' hn'
    obtain ⟨n, hn, hinputs⟩ := inputs_of_modifyNode hi hn'
    rw [hinputs]
    exact ht l hmem n hn
  | feed _ _ _ _ hunfed => exact ht.feed (hunfed hs)

/-- Nodes that an edit may not feed stay unfed. An edit feeds nodes from `base` on only, such as
those that the running step has added. -/
theorem Edit.unfed {k : NodeId} {input : Nat} (h : Edit strict base groups t t') (hbase : k < base)
    (hk : k < t.nodes.size) (hunfed : t.Unfed k input) : t'.Unfed k input := by
  cases h with
  | add =>
    refine ⟨hunfed.link, fun n hn => hunfed.value n ?_⟩
    rwa [getElem?_push_of_lt hk] at hn
  | zone =>
    refine ⟨hunfed.link, fun n hn => hunfed.value n ?_⟩
    rwa [getElem?_addZone_of_lt hk] at hn
  | change _ _ hi =>
    refine ⟨hunfed.link, fun n' hn' => ?_⟩
    obtain ⟨n, hn, hinputs⟩ := inputs_of_modifyNode hi hn'
    rw [hinputs]
    exact hunfed.value n hn
  | feed hnode _ _ _ _ =>
    refine hunfed.feed ?_
    rintro ⟨rfl, -⟩
    exact absurd hbase (Nat.not_lt.2 hnode)

/-! ### What building keeps -/

/-- An edit keeps a tree sound: well formed, without cycles and, if building is strict, fed once. -/
theorem Edit.sound (h : Edit strict base groups t t') (ht : t.Sound strict groups) :
    t'.Sound strict groups :=
  ⟨h.wellFormed ht.wellFormed, h.acyclic ht.acyclic,
    fun hs => h.fedOnce hs ht.wellFormed.links (ht.fedOnce hs)⟩

/-- Building keeps a tree sound, by induction on the edits. -/
theorem Building.sound (h : Building strict base groups t t') (ht : t.Sound strict groups) :
    t'.Sound strict groups := by
  induction h with
  | refl => exact ht
  | tail _ hedit ih => exact hedit.sound ih

theorem Building.linksInRange (h : Building strict base groups t t') (ht : t.LinksInRange) :
    t'.LinksInRange := by
  induction h with
  | refl => exact ht
  | tail _ hedit ih => exact hedit.linksInRange ih

theorem Building.size_le (h : Building strict base groups t t') :
    t.nodes.size ≤ t'.nodes.size := by
  induction h with
  | refl => exact Nat.le_refl _
  | tail _ hedit ih => exact Nat.le_trans ih hedit.size_le

theorem Building.unfed {k : NodeId} {input : Nat} (h : Building strict base groups t t')
    (hbase : k < base) (hk : k < t.nodes.size) (hunfed : t.Unfed k input) : t'.Unfed k input := by
  induction h with
  | refl => exact hunfed
  | tail hbuild hedit ih => exact hedit.unfed hbase (Nat.lt_of_lt_of_le hk (Building.size_le hbuild)) ih

theorem Sound.mono (h : t.Sound strict groups) (hg : groups ⊆ groups') : t.Sound strict groups' :=
  ⟨{ h.wellFormed with named := fun i n g hn hname => hg (h.wellFormed.named i n g hn hname) },
    h.acyclic, h.fedOnce⟩

theorem Sound.addNode (h : t.Sound strict groups) (key : String) :
    (t.addNode key).Sound strict groups := by
  have hedit : Edit strict 0 groups t (t.push { id := t.nodes.size, key }) :=
    .add t rfl rfl (by simp)
  exact hedit.sound h

/-- A tree without nodes and links. -/
theorem sound_of_empty (hn : t.nodes = #[]) (hl : t.links = #[]) : t.Sound strict groups := by
  have hnone : ∀ (i : NodeId) (n : Node), t.nodes[i]? ≠ some n := by simp [hn]
  have hlinks : ∀ l, l ∉ t.links := by simp [hl]
  refine ⟨⟨fun i n h => absurd h (hnone i n), fun l h => absurd h (hlinks l), by simp [hl],
    fun i n o h => absurd h (hnone i n), fun i j n n' o h => absurd h (hnone i n),
    fun i n g h => absurd h (hnone i n)⟩, fun n hn => ?_, fun _ l h => absurd h (hlinks l)⟩
  obtain ⟨b, ⟨l, h, -⟩, -⟩ := Relation.TransGen.head'_iff.1 hn
  exact hlinks l h

end NodeTree

end NodeFormula

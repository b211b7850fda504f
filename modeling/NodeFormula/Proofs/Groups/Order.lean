import NodeFormula.Proofs.Groups.Calls
import NodeFormula.Proofs.Pipeline

/-!
# The order of node groups

The groups of a compiled formula have names of their own and are listed callee first: a group node
stands for a group that is listed before the tree it is in, and its links use sockets of that group.

A `Signature` says how many inputs and outputs the group of a name has. A machine fits a signature when
this holds of its trees and of the sockets that it can get at (`Machine.Fits`). Every run keeps this if
the calls in its ops are as the signature says, and no group is called in its own body
(`Machine.runOps_fits`). The first holds because definitions have names of their own, and the second
because a definition can only call what is defined before it.
-/

namespace NodeFormula

/-! ### Callees -/

/-- Every group node of a tree stands for one of the given groups, and the links at the node use sockets
of that group. -/
def NodeTree.CallsInto (callees : List NodeTree) (t : NodeTree) : Prop :=
  ∀ (k : NodeId) (n : Node) (g : String), t.nodes[k]? = some n → n.group = some g →
    ∃ c ∈ callees, c.name = g ∧
      (∀ l ∈ t.links, l.toNode = k → l.toSocket < c.inputs.length) ∧
      ∀ l ∈ t.links, l.fromNode = k → l.fromSocket < c.outputs.length

/-- The groups of a graph have names of their own, each calls only groups that are listed before it, and
the tree of the formula calls groups that are listed. -/
structure NodeGraph.CalleeFirst (g : NodeGraph) : Prop where
  names : (g.groups.map (·.name)).Nodup
  groups : ∀ (k : Nat) (t : NodeTree), g.groups[k]? = some t → t.CallsInto (g.groups.take k)
  tree : g.tree.CallsInto g.groups

/-- How many inputs and outputs a group has. -/
structure Arity where
  inputs : Nat
  outputs : Nat

/-- How many inputs and outputs the group of each name has. -/
abbrev Signature := String → Arity

/-- A call is as a signature says, and its body does not call the group itself. -/
structure GroupCall.Suits (sig : Signature) (c : GroupCall) : Prop where
  arity : sig c.name = ⟨c.inputs.length, c.outputs.length⟩
  apart : Op.AllCalls (fun d => d.name ≠ c.name) c.body

/-! ### Trees that fit -/

namespace NodeTree

variable {t t' t₁ : NodeTree} {sig : Signature} {names : List String} {k : NodeId}

/-- The group that a node stands for, if there is the node. -/
def groupAt (t : NodeTree) (k : NodeId) : Option (Option String) := t.nodes[k]?.map (·.group)

theorem groupAt_modifyNode (t : NodeTree) (id k : NodeId) {f : Node → Node}
    (hf : ∀ n, (f n).group = n.group) : (t.modifyNode id f).groupAt k = t.groupAt k := by
  simp only [groupAt, modifyNode, Array.getElem?_modify]
  split
  · rw [Option.map_map]
    exact Option.map_congr fun n _ => hf n
  · rfl

theorem groupAt_feed (t : NodeTree) (node k : NodeId) (input : Nat) (i : Item) :
    (t.feed node input i).groupAt k = t.groupAt k := by
  cases i with
  | empty | socket | bundle => rfl
  | constant v => exact groupAt_modifyNode t node k fun _ => rfl

theorem groupAt_push (t : NodeTree) (n : Node) (k : NodeId) :
    (t.push n).groupAt k = if k = t.nodes.size then some n.group else t.groupAt k := by
  rw [groupAt, getElem?_push]
  split <;> rfl

theorem groupAt_addZone (t : NodeTree) (items : List RepeatItem) (k : NodeId) :
    (t.addZone items).groupAt k =
      if k = t.nodes.size + 1 then some none
      else if k = t.nodes.size then some none else t.groupAt k := by
  rw [groupAt, getElem?_addZone]
  split
  · rfl
  · split <;> rfl

theorem groupAt_of_le (h : t.nodes.size ≤ k) : t.groupAt k = none := by
  rw [groupAt, Array.getElem?_eq_none h]
  rfl

/-- The nodes of a tree are still there and stand for the same groups. -/
def Keeps (t t' : NodeTree) : Prop := ∀ k o, t.groupAt k = some o → t'.groupAt k = some o

namespace Keeps

/-- A tree keeps its own nodes. -/
theorem refl (t : NodeTree) : t.Keeps t := fun _ _ h => h

/-- Keeping nodes and their groups composes along a run. -/
theorem trans (h₁ : t.Keeps t₁) (h₂ : t₁.Keeps t') : t.Keeps t' := fun k o h => h₂ k o (h₁ k o h)

theorem modifyNode (t : NodeTree) (id : NodeId) {f : Node → Node} (hf : ∀ n, (f n).group = n.group) :
    t.Keeps (t.modifyNode id f) := fun k o h => by rwa [groupAt_modifyNode t id k hf]

theorem feedAll (t : NodeTree) (node : NodeId) (feeds : List (Nat × Item)) :
    t.Keeps (t.feedAll node feeds) := by
  induction feeds generalizing t with
  | nil => exact .refl t
  | cons feed feeds ih =>
    have hfeed : t.Keeps (t.feed node feed.1 feed.2) := fun k o h => by rwa [groupAt_feed]
    exact hfeed.trans (ih _)

/-- A new node keeps the groups of the nodes before it. -/
theorem push (t : NodeTree) (n : Node) : t.Keeps (t.push n) := by
  intro k o h
  have hk : k ≠ t.nodes.size := by
    rintro rfl
    rw [groupAt_of_le (Nat.le_refl _)] at h
    cases h
  rwa [groupAt_push, if_neg hk]

theorem addZone (t : NodeTree) (items : List RepeatItem) : t.Keeps (t.addZone items) := by
  intro k o h
  have hk : k < t.nodes.size := Nat.lt_of_not_le fun hk => by
    rw [groupAt_of_le hk] at h
    cases h
  rwa [groupAt_addZone, if_neg (Nat.ne_of_lt (Nat.lt_succ_of_lt hk)), if_neg (Nat.ne_of_lt hk)]

end Keeps

/-- A node is there, and if it stands for a group then a number is below one of the group's. -/
def Within (t : NodeTree) (sockets : String → Nat) (k : NodeId) (i : Nat) : Prop :=
  ∃ o, t.groupAt k = some o ∧ ∀ g, o = some g → i < sockets g

/-- A node has an output socket, as far as a signature says. -/
abbrev Offers (sig : Signature) (t : NodeTree) : NodeId → Nat → Prop :=
  t.Within fun g => (sig g).outputs

/-- A node has an input socket, as far as a signature says. -/
abbrev Takes (sig : Signature) (t : NodeTree) : NodeId → Nat → Prop :=
  t.Within fun g => (sig g).inputs

theorem Keeps.within (h : t.Keeps t') {sockets : String → Nat} {i : Nat}
    (hw : t.Within sockets k i) : t'.Within sockets k i := by
  obtain ⟨o, ho, hlt⟩ := hw
  exact ⟨o, h k o ho, hlt⟩

/-- A node that stands for no group has every socket. -/
theorem within_of_none {sockets : String → Nat} (h : t.groupAt k = some none) (i : Nat) :
    t.Within sockets k i :=
  ⟨none, h, fun _ hg => by cases hg⟩

/-- The group nodes of a tree stand for groups of the given names, and its links use sockets that the
signature has for them. -/
structure Fits (sig : Signature) (names : List String) (t : NodeTree) : Prop where
  named : ∀ k g, t.groupAt k = some (some g) → g ∈ names
  entering : ∀ l ∈ t.links, t.Takes sig l.toNode l.toSocket
  leaving : ∀ l ∈ t.links, t.Offers sig l.fromNode l.fromSocket

end NodeTree

/-- The sockets of an item satisfy `P`. -/
inductive Item.Each (P : NodeId → Nat → Prop) : Item → Prop where
  | empty : Each P .empty
  | constant (v : Constant) : Each P (.constant v)
  | socket {s : Socket} : P s.node s.index → Each P (.socket s)
  | bundle {items : List Item} : (∀ i ∈ items, Each P i) → Each P (.bundle items)

theorem Item.Each.imp {P Q : NodeId → Nat → Prop} (hPQ : ∀ k i, P k i → Q k i) {i : Item}
    (h : i.Each P) : i.Each Q := by
  induction h with
  | empty => exact .empty
  | constant v => exact .constant v
  | socket hs => exact .socket (hPQ _ _ hs)
  | bundle _ ih => exact .bundle ih

namespace NodeTree.Fits

variable {t t' : NodeTree} {sig : Signature} {names names' : List String}

/-- A tree without nodes and links. -/
theorem of_empty (hn : t.nodes = #[]) (hl : t.links = #[]) : t.Fits sig names :=
  ⟨fun k g hg => by simp [groupAt, hn] at hg, by simp [hl], by simp [hl]⟩

theorem mono (h : t.Fits sig names) (hsub : names ⊆ names') : t.Fits sig names' :=
  ⟨fun k g hg => hsub (h.named k g hg), h.entering, h.leaving⟩

/-- A tree with the same links, and with more nodes that stand for groups of the given names. -/
theorem of_keeps (h : t.Fits sig names) (hk : t.Keeps t') (hl : t'.links = t.links)
    (hn : ∀ k g, t'.groupAt k = some (some g) → t.groupAt k = some (some g) ∨ g ∈ names) :
    t'.Fits sig names := by
  refine ⟨fun k g hg => (hn k g hg).elim (h.named k g) id, fun l hmem => ?_, fun l hmem => ?_⟩
  · rw [hl] at hmem
    exact hk.within (h.entering l hmem)
  · rw [hl] at hmem
    exact hk.within (h.leaving l hmem)

theorem modifyNode (h : t.Fits sig names) (id : NodeId) {f : Node → Node}
    (hf : ∀ n, (f n).group = n.group) : (t.modifyNode id f).Fits sig names :=
  h.of_keeps (.modifyNode t id hf) rfl fun k g hg => .inl (by rwa [groupAt_modifyNode t id k hf] at hg)

/-- A new node keeps the tree fitting, if its group is one that is finished. It has no links yet. -/
theorem push (h : t.Fits sig names) {n : Node} (hn : ∀ g, n.group = some g → g ∈ names) :
    (t.push n).Fits sig names := by
  refine h.of_keeps (.push t n) rfl fun k g hg => ?_
  rw [groupAt_push] at hg
  split at hg
  · exact .inr (hn g (Option.some.inj hg))
  · exact .inl hg

theorem addZone (h : t.Fits sig names) (items : List RepeatItem) : (t.addZone items).Fits sig names := by
  refine h.of_keeps (.addZone t items) rfl fun k g hg => .inl ?_
  rw [groupAt_addZone] at hg
  split at hg
  · cases hg
  · split at hg
    · cases hg
    · exact hg

/-- Feeding an input keeps the tree fitting: the link starts at a socket that its node offers and
ends at one that its node takes. -/
theorem feed (h : t.Fits sig names) {node : NodeId} {input : Nat} {i : Item}
    (hi : i.Each (t.Offers sig)) (ht : t.Takes sig node input) :
    (t.feed node input i).Fits sig names := by
  have hk : t.Keeps (t.feed node input i) := .feedAll t node [(input, i)]
  refine ⟨fun k g hg => ?_, fun l hl => ?_, fun l hl => ?_⟩
  · rw [groupAt_feed] at hg
    exact h.named k g hg
  · rcases mem_links_feed hl with hl | ⟨s, rfl, rfl⟩
    · exact hk.within (h.entering l hl)
    · exact hk.within ht
  · rcases mem_links_feed hl with hl | ⟨s, rfl, rfl⟩
    · exact hk.within (h.leaving l hl)
    · cases hi with | socket hs => exact hk.within hs

/-- Feeding all inputs of a node keeps the tree fitting, by induction on the inputs. -/
theorem feedAll (h : t.Fits sig names) {node : NodeId} {feeds : List (Nat × Item)}
    (hi : ∀ feed ∈ feeds, feed.2.Each (t.Offers sig)) (ht : ∀ feed ∈ feeds, t.Takes sig node feed.1) :
    (t.feedAll node feeds).Fits sig names := by
  induction feeds generalizing t with
  | nil => exact h
  | cons feed feeds ih =>
    have hk : t.Keeps (t.feed node feed.1 feed.2) := .feedAll t node [feed]
    refine ih (h.feed (hi feed (.head _)) (ht feed (.head _))) (fun other hother => ?_)
      fun other hother => hk.within (ht other (.tail _ hother))
    exact (hi other (.tail _ hother)).imp fun _ _ => hk.within

/-- Links that fit a signature use sockets of the groups that the signature is of. -/
theorem callsInto {callees : List NodeTree} (h : t.Fits sig (callees.map (·.name)))
    (hsig : ∀ c ∈ callees, sig c.name = ⟨c.inputs.length, c.outputs.length⟩) : t.CallsInto callees := by
  intro k n g hn hg
  have hat : t.groupAt k = some (some g) := by rw [groupAt, hn, Option.map_some, hg]
  have hbelow : ∀ {sockets : String → Nat} {i : Nat}, t.Within sockets k i → i < sockets g := by
    rintro sockets i ⟨o, ho, hlt⟩
    rw [hat] at ho
    cases ho
    exact hlt g rfl
  obtain ⟨c, hc, rfl⟩ := List.mem_map.1 (h.named k g hat)
  refine ⟨c, hc, rfl, fun l hl hto => ?_, fun l hl hfrom => ?_⟩
  · have hlt := hbelow (hto ▸ h.entering l hl)
    rwa [hsig c hc] at hlt
  · have hlt := hbelow (hfrom ▸ h.leaving l hl)
    rwa [hsig c hc] at hlt

end NodeTree.Fits

/-! ### Machines that fit -/

/-- Groups have names of their own and the arity that the signature says, and each fits with the names
before it. -/
structure Listed (sig : Signature) (groups : List NodeTree) : Prop where
  nodup : (groups.map (·.name)).Nodup
  arity : ∀ t ∈ groups, sig t.name = ⟨t.inputs.length, t.outputs.length⟩
  fits : ∀ (k : Nat) (t : NodeTree), groups[k]? = some t → t.Fits sig ((groups.take k).map (·.name))

theorem Listed.nil (sig : Signature) : Listed sig [] :=
  ⟨List.nodup_nil, List.forall_mem_nil _, fun _ _ h => by cases h⟩

/-- A group may be listed behind others if its name is new, it has the sockets of the signature, and
it calls into the groups before it only. -/
theorem Listed.concat {sig : Signature} {groups : List NodeTree} (h : Listed sig groups) {t : NodeTree}
    (hname : t.name ∉ groups.map (·.name)) (harity : sig t.name = ⟨t.inputs.length, t.outputs.length⟩)
    (ht : t.Fits sig (groups.map (·.name))) : Listed sig (groups ++ [t]) := by
  refine ⟨?_, fun u hu => ?_, fun k u hu => ?_⟩
  · rw [List.map_append]
    refine List.nodup_append.2 ⟨h.nodup, by simp, fun a ha b hb => ?_⟩
    cases List.mem_singleton.1 hb
    rintro rfl
    exact hname ha
  · rcases List.mem_append.1 hu with hu | hu
    · exact h.arity u hu
    · cases List.mem_singleton.1 hu
      exact harity
  · rcases Nat.lt_trichotomy k groups.length with hk | rfl | hk
    · rw [List.getElem?_append_left hk] at hu
      rw [List.take_append_of_le_length (Nat.le_of_lt hk)]
      exact h.fits k u hu
    · rw [List.getElem?_concat_length] at hu
      cases hu
      rw [List.take_left]
      exact ht
    · rw [List.getElem?_eq_none (by simp; omega)] at hu
      cases hu

namespace Machine

variable {m m' m₁ : Machine} {sig : Signature}

/-- The trees of a machine fit a signature, and so do the sockets on the stack and in variables. -/
structure Fits (sig : Signature) (m : Machine) : Prop where
  stack : ∀ i ∈ m.stack, i.Each (m.tree.Offers sig)
  env : ∀ x i, m.env.get? x = some i → i.Each (m.tree.Offers sig)
  outputs : ∀ i ∈ m.outputs, i.Each (m.tree.Offers sig)
  tree : m.tree.Fits sig m.groupNames
  groups : Listed sig m.groups

namespace Fits

theorem withStack (hm : m.Fits sig) {stack : List Item}
    (hs : ∀ i ∈ stack, i.Each (m.tree.Offers sig)) : { m with stack }.Fits sig :=
  ⟨hs, hm.env, hm.outputs, hm.tree, hm.groups⟩

theorem withNewest (hm : m.Fits sig) (id : Option NodeId) : { m with newest := id }.Fits sig :=
  ⟨hm.stack, hm.env, hm.outputs, hm.tree, hm.groups⟩

theorem withEnv (hm : m.Fits sig) {env : Table String Item}
    (he : ∀ x i, env.get? x = some i → i.Each (m.tree.Offers sig)) : { m with env }.Fits sig :=
  ⟨hm.stack, he, hm.outputs, hm.tree, hm.groups⟩

theorem withTree (hm : m.Fits sig) {t : NodeTree} (hk : m.tree.Keeps t)
    (ht : t.Fits sig m.groupNames) : { m with tree := t }.Fits sig :=
  ⟨fun i hi => (hm.stack i hi).imp fun _ _ => hk.within,
    fun x i hi => (hm.env x i hi).imp fun _ _ => hk.within,
    fun i hi => (hm.outputs i hi).imp fun _ _ => hk.within, ht, hm.groups⟩

theorem withGroups (hm : m.Fits sig) {groups : List NodeTree} (hl : Listed sig groups)
    (hsub : m.groupNames ⊆ groups.map (·.name)) : { m with groups }.Fits sig :=
  ⟨hm.stack, hm.env, hm.outputs, hm.tree.mono hsub, hl⟩

/-- A machine fits with an offered item pushed. -/
theorem push (hm : m.Fits sig) {i : Item} (hi : i.Each (m.tree.Offers sig)) : (m.push i).Fits sig :=
  hm.withStack (List.forall_mem_cons.2 ⟨hi, hm.stack⟩)

theorem pushOutputs (hm : m.Fits sig) {items : List Item}
    (hi : ∀ i ∈ items, i.Each (m.tree.Offers sig)) : (m.pushOutputs items).Fits sig := by
  unfold Machine.pushOutputs
  match items, hi with
  | [], _ => exact hm
  | [i], hi => exact hm.push (hi i (.head _))
  | i :: j :: rest, hi => exact hm.push (.bundle hi)

theorem stack_append (hm : m.Fits sig) {args rest : List Item} (hs : m.stack = args.reverse ++ rest) :
    (∀ i ∈ args, i.Each (m.tree.Offers sig)) ∧ ∀ i ∈ rest, i.Each (m.tree.Offers sig) := by
  have hstack := hm.stack
  rw [hs] at hstack
  exact ⟨fun i hi => hstack i (List.mem_append_left _ (List.mem_reverse.2 hi)),
    fun i hi => hstack i (List.mem_append_right _ hi)⟩

theorem stack_cons (hm : m.Fits sig) {i : Item} {rest : List Item} (hs : m.stack = i :: rest) :
    i.Each (m.tree.Offers sig) ∧ ∀ j ∈ rest, j.Each (m.tree.Offers sig) := by
  have hstack := hm.stack
  rw [hs] at hstack
  exact List.forall_mem_cons.1 hstack

end Fits

theorem each_of_get?_insert {P : NodeId → Nat → Prop} {env : Table String Item} {x : String} {i : Item}
    (henv : ∀ x i, env.get? x = some i → i.Each P) (hi : i.Each P) :
    ∀ y j, (env.insert x i).get? y = some j → j.Each P := by
  intro y j h
  rw [Table.get?_insert] at h
  split at h
  · cases h
    exact hi
  · exact henv y j h

/-- What holds of all items in an environment and of some more holds after binding these, by
induction on them. -/
theorem each_of_get?_insertAll {P : NodeId → Nat → Prop} {env : Table String Item}
    {pairs : List (String × Item)} (henv : ∀ x i, env.get? x = some i → i.Each P)
    (hpairs : ∀ p ∈ pairs, p.2.Each P) : ∀ x i, (env.insertAll pairs).get? x = some i → i.Each P := by
  intro x i h
  rw [Table.get?_insertAll] at h
  rcases Option.or_eq_some_iff.1 h with h | ⟨-, h⟩
  · obtain ⟨p, hfind, rfl⟩ := Option.map_eq_some_iff.1 h
    exact hpairs p (List.mem_reverse.1 (List.mem_of_find?_eq_some hfind))
  · exact henv x i h

/-- What a step does to a machine that fits: it fits still, and the nodes of its tree are kept. -/
structure Fitted (sig : Signature) (m m' : Machine) : Prop where
  fits : m'.Fits sig
  keeps : m.tree.Keeps m'.tree

/-- A step that keeps machines fitting. -/
def KeepsFit (sig : Signature) (body : Machine → Except RunError Machine) : Prop :=
  ∀ m m', body m = .ok m' → m.Fits sig → Fitted sig m m'

/-- A new node that is fed from the stack, with or without a group, keeps the machine fitting if its
group is there and takes the inputs that are fed. -/
theorem Fits.addNode (hm : m.Fits sig) (n : Node) (feeds : List (Nat × Item))
    (hn : ∀ g, n.group = some g → g ∈ m.groupNames)
    (hfeeds : ∀ feed ∈ feeds, feed.2.Each (m.tree.Offers sig))
    (htakes : ∀ feed ∈ feeds, ∀ g, n.group = some g → feed.1 < (sig g).inputs) :
    Fitted sig m { m with tree := (m.tree.push n).feedAll m.tree.nodes.size feeds } := by
  have hpush := NodeTree.Keeps.push m.tree n
  have hkeeps := hpush.trans (.feedAll (m.tree.push n) m.tree.nodes.size feeds)
  have hat : (m.tree.push n).groupAt m.tree.nodes.size = some n.group := by
    rw [NodeTree.groupAt_push, if_pos rfl]
  refine ⟨hm.withTree hkeeps ((hm.tree.push hn).feedAll (fun feed hfeed => ?_) fun feed hfeed => ?_),
    hkeeps⟩
  · exact (hfeeds feed hfeed).imp fun _ _ => hpush.within
  · exact ⟨n.group, hat, htakes feed hfeed⟩

theorem groupAt_addNode (t : NodeTree) (n : Node) (feeds : List (Nat × Item)) :
    ((t.push n).feedAll t.nodes.size feeds).groupAt t.nodes.size = some n.group := by
  refine NodeTree.Keeps.feedAll (t.push n) t.nodes.size feeds _ _ ?_
  rw [NodeTree.groupAt_push, if_pos rfl]

/-- A call of a builtin keeps the machine fitting. The node has no group, so all its sockets are in
order. -/
theorem Fitted.callBuiltin (hm : m.Fits sig) {node : NodeSpec} {types : List SocketType}
    (h : m.callBuiltin node types = .ok m') : Fitted sig m m' := by
  obtain ⟨args, rest, hs, -, -, rfl⟩ := callBuiltin_ok h
  obtain ⟨hargs, hrest⟩ := hm.stack_append hs
  let n : Node := { id := m.tree.nodes.size, key := node.key, props := Table.insertAll ∅ node.props }
  have hadd := (hm.withStack hrest).addNode n (node.inputs.zip args)
    (fun _ hg => by cases hg) (fun feed hfeed => hargs _ (List.of_mem_zip hfeed).2)
    fun _ _ _ hg => by cases hg
  refine ⟨.withNewest (hadd.fits.pushOutputs fun item hitem => ?_) _, ?_⟩
  · obtain ⟨i, t, rfl⟩ := mem_nodeOutputs hitem
    exact .socket (NodeTree.within_of_none (groupAt_addNode m.tree n _) i)
  · rw [pushOutputs_tree]
    exact hadd.keeps

theorem Fitted.createVar (hm : m.Fits sig) {x : String} (h : m.createVar x = .ok m') :
    Fitted sig m m' := by
  obtain rfl := createVar_ok h
  let n : Node := { id := m.tree.nodes.size, key := "NodeReroute", label := some x }
  have hadd := hm.addNode n [] (fun _ hg => by cases hg)
    (List.forall_mem_nil _) (List.forall_mem_nil _)
  refine ⟨.withNewest (hadd.fits.withEnv ?_) _, hadd.keeps⟩
  refine each_of_get?_insert hadd.fits.env (.socket (NodeTree.within_of_none ?_ 0))
  exact groupAt_addNode m.tree n []

theorem Fitted.modifyNewest (hm : m.Fits sig) {f : Node → Node} (h : m.modifyNewest f = .ok m')
    (hf : ∀ n, (f n).group = n.group) : Fitted sig m m' := by
  obtain ⟨id, rfl⟩ := modifyNewest_ok h
  have hkeeps : m.tree.Keeps (m.tree.modifyNode id f) := .modifyNode m.tree id hf
  exact ⟨hm.withTree hkeeps (hm.tree.modifyNode id hf), hkeeps⟩

/-- A call of a function keeps the machine fitting if its body does. The body runs in an environment
with the arguments, and the caller's comes back behind it. -/
theorem Fitted.callFunction (hm : m.Fits sig) {inputs : List String} {outputs : Nat}
    {body : Machine → Except RunError Machine} (hbody : KeepsFit sig body)
    (h : m.callFunction inputs outputs body = .ok m') : Fitted sig m m' := by
  obtain ⟨args, rest, inner, hs, -, hinner, rfl⟩ := callFunction_ok h
  obtain ⟨hargs, hrest⟩ := hm.stack_append hs
  have hin := hbody _ _ hinner ⟨List.forall_mem_nil _,
    each_of_get?_insertAll (by simp) fun p hp => hargs _ (List.of_mem_zip hp).2, fun i hi => ?_,
    hm.tree, hm.groups⟩
  · have hback : Fits sig { inner with stack := rest, env := m.env, outputs := m.outputs } :=
      ⟨fun i hi => (hrest i hi).imp fun _ _ => hin.keeps.within,
        fun x i hi => (hm.env x i hi).imp fun _ _ => hin.keeps.within,
        fun i hi => (hm.outputs i hi).imp fun _ _ => hin.keeps.within, hin.fits.tree, hin.fits.groups⟩
    refine ⟨hback.pushOutputs hin.fits.outputs, ?_⟩
    rw [pushOutputs_tree]
    exact hin.keeps
  · rw [List.eq_of_mem_replicate hi]
    exact .empty

theorem each_of_mem_itemSockets {t : NodeTree} {node : NodeId} (h : t.groupAt node = some none)
    {index : Nat} {items : List RepeatItem} :
    ∀ p ∈ itemSockets node index items, p.2.Each (t.Offers sig) := by
  intro p hp
  obtain ⟨q, -, rfl⟩ := List.mem_map.1 hp
  exact .socket (NodeTree.within_of_none h _)

/-- Where the body of a zone starts, the machine fits: the two nodes of the zone have no group, and
are fed from sockets that there are. -/
theorem Fits.zoneStart (hm : m.Fits sig) {items : List RepeatItem} {count : Item} {currents : List Item}
    (hcount : count.Each (m.tree.Offers sig)) (hcurrents : ∀ i ∈ currents, i.Each (m.tree.Offers sig)) :
    Fitted sig m (m.zoneStart items count currents) := by
  have hadd := NodeTree.Keeps.addZone m.tree items
  have hfirst : (m.tree.addZone items).groupAt m.tree.nodes.size = some none := by
    rw [NodeTree.groupAt_addZone, if_neg (Nat.ne_of_lt (Nat.lt_succ_self _)), if_pos rfl]
  have hkeeps : m.tree.Keeps (m.zoneStart items count currents).tree := hadd.trans (.feedAll _ _ _)
  have htree : (m.zoneStart items count currents).tree.Fits sig m.groupNames := by
    refine (hm.tree.addZone items).feedAll (fun feed hfeed => ?_) fun feed _ =>
      NodeTree.within_of_none hfirst feed.1
    exact (List.forall_mem_cons.2 ⟨hcount, hcurrents⟩ _ (mem_numbered hfeed)).imp
      fun _ _ => hadd.within
  have hfits := hm.withTree hkeeps htree
  refine ⟨(hfits.withStack (List.forall_mem_nil _)).withEnv ?_, hkeeps⟩
  refine each_of_get?_insertAll hfits.env (each_of_mem_itemSockets ?_)
  exact NodeTree.Keeps.feedAll _ _ _ _ _ hfirst

/-- What the end of a zone does keeps the machine fitting, where `last` is its output node. This node
has no group, so it may be fed at any input. -/
theorem Fits.zoneEnd (hm : m.Fits sig) {last : NodeId} (hlast : m.tree.groupAt last = some none)
    {items : List RepeatItem} {finals rest : List Item}
    (hfinals : ∀ i ∈ finals, i.Each (m.tree.Offers sig))
    (hrest : ∀ i ∈ rest, i.Each (m.tree.Offers sig)) :
    Fitted sig m (m.zoneEnd last items finals rest) := by
  have hkeeps := NodeTree.Keeps.feedAll m.tree last (numbered 0 finals)
  have htree : (m.tree.feedAll last (numbered 0 finals)).Fits sig m.groupNames :=
    hm.tree.feedAll (fun feed hfeed => hfinals _ (mem_numbered hfeed)) fun feed _ =>
      NodeTree.within_of_none hlast feed.1
  have hfits := hm.withTree hkeeps htree
  refine ⟨.withNewest ((hfits.withStack fun i hi => ?_).withEnv ?_) _, hkeeps⟩
  · exact (hrest i hi).imp fun _ _ => hkeeps.within
  · exact each_of_get?_insertAll hfits.env (each_of_mem_itemSockets (hkeeps _ _ hlast))

/-- A repeat zone keeps the machine fitting if its body does: what it carries goes in and out by
sockets of its two nodes. -/
theorem Fitted.zone (hm : m.Fits sig) {ops : List Op} {body : Machine → Except RunError Machine}
    (hbody : KeepsFit sig body) (h : m.zone ops body = .ok m') : Fitted sig m m' := by
  obtain ⟨count, rest, currents, inner, finals, hs, hcurrents, hinner, hfinals, rfl⟩ := zone_ok h
  obtain ⟨hcount, hrest⟩ := hm.stack_cons hs
  have hstart : Fitted sig m (m.zoneStart (m.carried ops) count currents) :=
    hm.zoneStart hcount (hcurrents.forall_mem hm.env)
  have hin := hbody _ _ hinner hstart.fits
  have hkeeps := hstart.keeps.trans hin.keeps
  have hlast : inner.tree.groupAt (m.tree.nodes.size + 1) = some none := by
    refine hin.keeps _ _ (NodeTree.Keeps.feedAll _ _ _ _ _ ?_)
    rw [NodeTree.groupAt_addZone, if_pos rfl]
  have hend : Fitted sig inner (inner.zoneEnd (m.tree.nodes.size + 1) (m.carried ops) finals rest) :=
    hin.fits.zoneEnd hlast (hfinals.forall_mem hin.fits.env)
      fun i hi => (hrest i hi).imp fun _ _ => hkeeps.within
  exact ⟨hend.fits, hkeeps.trans hend.keeps⟩

/-! ### Calls of groups -/

theorem fits_groupTree (sig : Signature) (names : List String) (name : String) (kind : TreeKind)
    (inputs outputs : List TypedParam) : (groupTree name kind inputs outputs).Fits sig names := by
  refine ((NodeTree.Fits.of_empty rfl rfl).push (fun _ hg => ?_)).push (fun _ hg => ?_)
  · cases hg
  · cases hg

/-- Where the body of a group starts, among groups that are listed. -/
theorem fits_groupStart (hg : Listed sig m.groups) (name : String)
    (inputs outputs : List TypedParam) : (m.groupStart name inputs outputs).Fits sig := by
  refine ⟨List.forall_mem_nil _, each_of_get?_insertAll (by simp) fun p hp => ?_, fun i hi => ?_,
    fits_groupTree .., hg⟩
  · obtain ⟨k, hk, rfl⟩ := List.mem_mapIdx.1 hp
    exact .socket (NodeTree.within_of_none rfl _)
  · rw [List.eq_of_mem_replicate hi]
    exact .empty

/-- The arity of a finished group is that of its call. -/
theorem arity_groupEnd {P : GroupCall → Prop} {inner : Machine} {name : String}
    {inputs outputs : List TypedParam} (h : Collects P (m.groupStart name inputs outputs) inner) :
    inner.groupEnd.name = name ∧ inner.groupEnd.inputs.length = inputs.length ∧
      inner.groupEnd.outputs.length = outputs.length := by
  have hheader : inner.groupEnd.header = (groupTree name m.tree.kind inputs outputs).header :=
    (NodeTree.header_feedAll ..).trans h.header
  have hinputs := congrArg (fun h => h.inputs.length) hheader
  have houtputs := congrArg (fun h => h.outputs.length) hheader
  simp only [NodeTree.header, groupTree, NodeTree.addNode, List.length_map] at hinputs houtputs
  exact ⟨congrArg TreeHeader.name hheader, hinputs, houtputs⟩

/-- The groups after a call are listed as the signature says, each behind those that it refers to,
and that of the call is among them. -/
theorem callGroup_listed {c : GroupCall} (hm : m.Fits sig) (hc : c.Suits sig)
    (hbody : KeepsFit sig (runOps c.body))
    (h : m.callGroup c.name c.inputs c.outputs (runOps c.body) = .ok m') :
    Listed sig m'.groups ∧ m.groupNames ⊆ m'.groupNames ∧ c.name ∈ m'.groupNames := by
  rcases callGroup_groups h with ⟨hmem, hgroups⟩ | ⟨hnew, inner, hinner, hgroups⟩
  · rw [groupNames, groupNames, hgroups]
    exact ⟨hm.groups, List.Subset.refl _, hmem⟩
  · have hin := hbody _ _ hinner (fits_groupStart hm.groups ..)
    have hcollects := runOps_collects c.body hc.apart _ _ hinner
    obtain ⟨hname, hinputs, houtputs⟩ := arity_groupEnd hcollects
    -- The body adds no group of this name, so the name is still new where the group is added.
    have hfresh : c.name ∉ inner.groupNames := hcollects.notMem_names hnew
    have harity : sig inner.groupEnd.name =
        ⟨inner.groupEnd.inputs.length, inner.groupEnd.outputs.length⟩ := by
      rw [hname, hc.arity, hinputs, houtputs]
    have hout : inner.tree.groupAt 1 = some none := hin.keeps 1 none rfl
    have htree : inner.groupEnd.Fits sig inner.groupNames :=
      hin.fits.tree.feedAll (fun feed hfeed => hin.fits.outputs _ (mem_mapIdx_pair hfeed))
        fun feed _ => NodeTree.within_of_none hout feed.1
    rw [groupNames, groupNames, hgroups, List.map_append]
    refine ⟨hin.fits.groups.concat (hname ▸ hfresh) harity htree, ?_, ?_⟩
    · exact List.Subset.trans hcollects.names_subset (List.subset_append_left ..)
    · exact List.mem_append_right _ (List.mem_singleton.2 hname.symm)

/-- A call of a group keeps the machine fitting. At the first call the body is run in a tree of its
own, which is then listed behind the groups that it calls, and the node of the call has the sockets
of the signature. -/
theorem Fitted.callGroup {c : GroupCall} (hm : m.Fits sig) (hc : c.Suits sig)
    (hbody : KeepsFit sig (runOps c.body))
    (h : m.callGroup c.name c.inputs c.outputs (runOps c.body) = .ok m') : Fitted sig m m' := by
  obtain ⟨hlisted, hsub, hname⟩ := callGroup_listed hm hc hbody h
  obtain ⟨args, rest, groups, hs, hlen, -, rfl⟩ := callGroup_built h
  simp only [groupNames, pushOutputs_groups] at hlisted hsub hname
  obtain ⟨hargs, hrest⟩ := hm.stack_append hs
  let n : Node := {
    id := m.tree.nodes.size
    key := m.tree.kind.groupKey
    group := some c.name }
  have hadd := ((hm.withStack hrest).withGroups hlisted hsub).addNode n
    (args.mapIdx fun i item => (i, item)) (fun g hg => ?_)
    (fun feed hfeed => hargs _ (mem_mapIdx_pair hfeed)) fun feed hfeed g hg => ?_
  · refine ⟨.withNewest (hadd.fits.pushOutputs fun item hitem => ?_) _, ?_⟩
    · obtain ⟨i, hi, rfl⟩ := List.mem_mapIdx.1 hitem
      refine .socket ⟨some c.name, groupAt_addNode m.tree n _, fun g hg => ?_⟩
      cases hg
      change i < (sig c.name).outputs
      rw [hc.arity]
      exact hi
    · rw [pushOutputs_tree]
      exact hadd.keeps
  · cases hg
    exact hname
  · cases hg
    obtain ⟨i, hi, rfl⟩ := List.mem_mapIdx.1 hfeed
    rw [hc.arity, ← hlen]
    exact hi

mutual

/-- Each op keeps the machine fitting if its calls suit the signature, by induction on the op and its
body. Only a call of a group adds to the groups. -/
theorem runOp_fits : (op : Op) → op.Calls (GroupCall.Suits sig) → KeepsFit sig (runOp op)
  | .pushValue (some v), _, _, _, h, hm => by
    cases h
    exact ⟨hm.push (.constant v), .refl _⟩
  | .pushValue none, _, _, _, h, hm => by
    cases h
    exact ⟨hm.push .empty, .refl _⟩
  | .createVar _, _, _, _, h, hm => .createVar hm h
  | .getVar _, _, _, _, h, hm => by
    obtain ⟨i, hget, rfl⟩ := getVar_ok h
    exact ⟨hm.push (hm.env _ _ hget), .refl _⟩
  | .bindVar x, _, _, _, h, hm => by
    obtain ⟨i, rest, hs, rfl⟩ := bindVar_ok h
    obtain ⟨hi, hrest⟩ := hm.stack_cons hs
    exact ⟨(hm.withStack hrest).withEnv (each_of_get?_insert hm.env hi), .refl _⟩
  | .destroyVar x, _, m, _, h, hm => by
    cases h
    refine ⟨hm.withEnv fun y i hi => hm.env y i ?_, .refl _⟩
    rw [Table.get?_erase] at hi
    split at hi
    · cases hi
    · exact hi
  | .getOutput _, _, _, _, h, hm => by
    obtain ⟨items, rest, part, hs, hp, rfl⟩ := getOutput_ok h
    obtain ⟨hbundle, hrest⟩ := hm.stack_cons hs
    cases hbundle with
    | bundle hitems =>
      exact ⟨hm.withStack (List.forall_mem_cons.2 ⟨hitems _ (List.mem_of_getElem? hp), hrest⟩),
        .refl _⟩
  | .setOutput _ _, _, _, _, h, hm => .modifyNewest hm h fun _ => rfl
  | .renameNode _, _, _, _, h, hm => .modifyNewest hm h fun _ => rfl
  | .setFunctionOut _, _, _, _, h, hm => by
    obtain ⟨item, rest, hs, rfl⟩ := setFunctionOut_ok h
    obtain ⟨hitem, hrest⟩ := hm.stack_cons hs
    refine ⟨⟨hrest, hm.env, fun i hi => ?_, hm.tree, hm.groups⟩, .refl _⟩
    rcases List.mem_or_eq_of_mem_set hi with hi | rfl
    · exact hm.outputs i hi
    · exact hitem
  | .splitStruct, _, _, _, h, hm => by
    obtain ⟨items, rest, hs, rfl⟩ := splitBundle_ok h
    obtain ⟨hbundle, hrest⟩ := hm.stack_cons hs
    cases hbundle with
    | bundle hitems =>
      refine ⟨hm.withStack fun i hi => ?_, .refl _⟩
      rcases List.mem_append.1 hi with hi | hi
      · exact hitems i (List.mem_reverse.1 hi)
      · exact hrest i hi
  | .pop, _, _, _, h, hm => by
    obtain ⟨i, rest, hs, rfl⟩ := runOp_pop_ok h
    exact ⟨hm.withStack (hm.stack_cons hs).2, .refl _⟩
  | .callBuiltin _ _, _, _, _, h, hm => .callBuiltin hm h
  | .callFunction _ _ _ body, hop, _, _, h, hm => by
    rw [Op.Calls] at hop
    exact .callFunction hm (runOps_fits body hop) h
  | .callGroup _ _ _ body, hop, _, _, h, hm => by
    rw [Op.Calls] at hop
    exact .callGroup hm hop.1 (runOps_fits body hop.2) h
  | .zone body, hop, _, _, h, hm => by
    rw [Op.Calls] at hop
    exact .zone hm (runOps_fits body hop) h
  | .endOfStatement, _, _, _, h, hm => by
    cases h
    exact ⟨hm.withStack (List.forall_mem_nil _), .refl _⟩

/-- Every run whose calls suit a signature keeps machines fitting, op by op. -/
theorem runOps_fits : (ops : List Op) → Op.AllCalls (GroupCall.Suits sig) ops →
    KeepsFit sig (runOps ops)
  | [], _, _, _, h, hm => by
    cases h
    exact ⟨hm, .refl _⟩
  | op :: ops, hops, m, m', h, hm => by
    rw [Op.AllCalls] at hops
    obtain ⟨m₁, h₁, h⟩ := runOps_cons_ok.1 h
    have hfirst := runOp_fits op hops.1 m m₁ h₁ hm
    have hrest := runOps_fits ops hops.2 m₁ m' h hfirst.fits
    exact ⟨hrest.fits, hfirst.keeps.trans hrest.keeps⟩

end

end Machine

/-! ### Graphs -/

/-- The graph that ops build lists its groups callee first, if their calls suit one signature. -/
theorem NodeGraph.calleeFirst_of_ofOps {sig : Signature} {kind : TreeKind} {name : String}
    {ops : List Op} {g : NodeGraph} (hops : Op.AllCalls (GroupCall.Suits sig) ops)
    (h : NodeGraph.ofOps kind name ops = .ok g) : g.CalleeFirst := by
  obtain ⟨m, hm, h⟩ := Machine.run_bind_ok.1 h
  cases h
  have hstart : Machine.Fits sig { tree := { name, kind } } :=
    ⟨List.forall_mem_nil _, fun _ _ hx => (by cases hx), List.forall_mem_nil _,
      .of_empty rfl rfl, .nil sig⟩
  have hend := (Machine.runOps_fits ops hops _ m hm hstart).fits
  refine ⟨hend.groups.nodup, fun k t ht => ?_, hend.tree.callsInto hend.groups.arity⟩
  refine (hend.groups.fits k t ht).callsInto fun c hc => hend.groups.arity c ?_
  exact List.mem_of_mem_take hc

namespace Layout

theorem exists_node_of_tree {t : NodeTree} {k : NodeId} {n : Node} (h : (tree t).nodes[k]? = some n) :
    ∃ n₀, t.nodes[k]? = some n₀ ∧ n.group = n₀.group := by
  simp only [tree, List.getElem?_toArray, List.getElem?_zipWith, Array.getElem?_toList] at h
  split at h
  next n₀ c hn _ =>
    cases h
    exact ⟨n₀, hn, rfl⟩
  next => cases h

theorem callsInto_tree {callees : List NodeTree} {t : NodeTree} (h : t.CallsInto callees) :
    (tree t).CallsInto (callees.map tree) := by
  intro k n g hn hg
  obtain ⟨n₀, hn₀, hgroup⟩ := exists_node_of_tree hn
  obtain ⟨c, hc, hname, hlinks⟩ := h k n₀ g hn₀ (hgroup ▸ hg)
  exact ⟨tree c, List.mem_map_of_mem hc, hname, hlinks⟩

/-- Layout keeps the order of the groups and which groups the nodes of a tree call, as it changes
positions only. -/
theorem calleeFirst_graph {g : NodeGraph} (h : g.CalleeFirst) : (graph g).CalleeFirst := by
  refine ⟨?_, fun k t ht => ?_, callsInto_tree h.tree⟩
  · change ((g.groups.map tree).map (·.name)).Nodup
    rw [List.map_map]
    exact h.names
  · change (g.groups.map tree)[k]? = some t at ht
    rw [List.getElem?_map] at ht
    obtain ⟨u, hu, rfl⟩ := Option.map_eq_some_iff.1 ht
    change (tree u).CallsInto ((g.groups.map tree).take k)
    rw [← List.map_take]
    exact callsInto_tree (h.groups k u hu)

end Layout

/-! ### Compiled formulas -/

/-- Where definitions have names of their own, there is a signature for them. -/
theorem exists_signature {Q : TypedFunction → Prop}
    (hunique : ∀ f g, Q f → Q g → f.name = g.name → f = g) :
    ∃ sig : Signature, ∀ f, Q f → sig f.name = ⟨f.inputs.length, f.outputs.length⟩ := by
  classical
  refine ⟨fun name => if h : ∃ f, Q f ∧ f.name = name
    then ⟨h.choose.inputs.length, h.choose.outputs.length⟩ else ⟨0, 0⟩, fun f hf => ?_⟩
  have h : ∃ g, Q g ∧ g.name = f.name := ⟨f, hf, rfl⟩
  exact (dif_pos h).trans (by rw [hunique _ f h.choose_spec.1 hf h.choose_spec.2])

/-- The calls in a well-typed formula suit a signature. -/
theorem BlockTyped.suits {S : Setting} {Γ' : TypeEnv} {stmts : List TypedStmt} {ops : List Op}
    (hS : S.Runnable) (h : BlockTyped S TypeEnv.empty stmts Γ') (hops : lower S.tree stmts = .ok ops) :
    ∃ sig, Op.AllCalls (GroupCall.Suits sig) ops := by
  obtain ⟨sig, hsig⟩ := exists_signature hS.unique
  refine ⟨sig, (h.calls hops).imp (fun c hc => ?_) ops⟩
  have hapart := hc.apart hS.unique
  obtain ⟨f, -, hf, -, -, hname, hinputs, houtputs, -⟩ := hc
  refine ⟨?_, hapart⟩
  rw [hname, hinputs, houtputs]
  exact hsig f hf

namespace Compilation

variable {source : Source} {options : CompileOptions} {result : Compilation}

/-- The groups of every compiled formula have names of their own and are listed callee first, and links
at group nodes use sockets of the groups' interfaces. -/
theorem compile_calleeFirst (h : compile source options = .ok result) :
    result.graph.CalleeFirst := by
  obtain ⟨stmts, g, hcheck, hops, hg, hgraph⟩ := compile_ok h
  obtain ⟨known, Γ', hS, htyped⟩ := typed_of_check hcheck (.inl trivial)
  obtain ⟨sig, hsuits⟩ := htyped.suits hS hops
  rw [hgraph]
  exact Layout.calleeFirst_graph (NodeGraph.calleeFirst_of_ofOps hsuits hg)

/-- A library with a group that a group of the formula calls. -/
def pairLibrary : Source where
  name := "pairs"
  text := "ng swap(a: float, b: float = 1) -> c: float, d: float \x7b c = b; d = a; \x7d"

/-- A formula whose groups are called in another order than they are defined, in a function, in a
group and in a zone. -/
def layeredFormula : Source where
  name := "formula"
  text := "ng twice(a: float) -> b: float \x7b p, q = swap(a); b = p + q; \x7d
    ng half(a: float) -> b: float \x7b b = a / 2; \x7d
    fn mixed(a: float) -> b: float \x7b _, s = swap(half(a), a); b = s; \x7d
    x = 1.0; repeat 3 \x7b x = mixed(twice(x)); \x7d"

/-- A formula with a group that calls another one of its library, and the order in which the three
groups are listed. A group stands behind all that it calls. -/
theorem compile_layeredFormula : ∃ result,
    compile layeredFormula { tree := .geometry, libraries := [pairLibrary] } = .ok result ∧
    result.graph.groups.map (·.name) = ["swap", "twice", "half"] ∧ result.graph.CalleeFirst := by
  obtain ⟨stmts, result, -, hcompile, hnames⟩ := exists_of_yields layeredFormula
    { tree := .geometry, libraries := [pairLibrary] }
    (fun _ result => result.graph.groups.map (·.name) = ["swap", "twice", "half"]) (by decide +kernel)
  exact ⟨result, hcompile, of_decide_eq_true hnames, compile_calleeFirst hcompile⟩

end Compilation

end NodeFormula

import Mathlib.Data.List.Perm.Subperm
import Mathlib.Order.Bounds.Basic
import NodeFormula.Proofs.Graph.Edit
import NodeFormula.Proofs.Graph.Layout

/-!
# Columns are longest paths

The columns of a tree start at zero and are raised link by link. They never exceed the lengths of
paths (`Attained`): a column is always the length of some path that ends at its node. And after `k`
passes they are at least as long as all paths of up to `k` links (`Covers`), whatever the order of
the links. A pass that changes nothing ends the work; it would change nothing ever after, so all
paths are covered by then. Without cycles a path visits a node once, so there are fewer links in a
path than nodes in the tree, and the passes are enough (`columns_longest`).
-/

namespace NodeFormula

namespace NodeTree

variable {t : NodeTree} {v : NodeId} {n : Nat}

/-- A path of links of a given length ends at a node. -/
inductive PathTo (t : NodeTree) : NodeId → Nat → Prop where
  | start (v : NodeId) : PathTo t v 0
  | link {u v : NodeId} {n : Nat} : PathTo t u n → t.Joins u v → PathTo t v (n + 1)

/-- The nodes that a path passes before its end are distinct, and the end is reached from each. -/
theorem PathTo.exists_nodes (hlinks : t.LinksInRange) (hacyclic : t.Acyclic) (h : t.PathTo v n) :
    ∃ nodes : List NodeId, nodes.length = n ∧ nodes.Nodup ∧
      ∀ u ∈ nodes, u < t.nodes.size ∧ Relation.TransGen t.Joins u v := by
  induction h with
  | start v => exact ⟨[], rfl, .nil, List.forall_mem_nil _⟩
  | @link u v n _ huv ih =>
    obtain ⟨nodes, hlength, hnodup, hnodes⟩ := ih
    refine ⟨u :: nodes, by rw [List.length_cons, hlength], List.nodup_cons.2 ⟨?_, hnodup⟩,
      List.forall_mem_cons.2 ⟨⟨?_, .single huv⟩, ?_⟩⟩
    · exact fun hmem => hacyclic u (hnodes u hmem).2
    · obtain ⟨l, hl, rfl, -⟩ := huv
      exact (hlinks l hl).1
    · exact fun w hw => ⟨(hnodes w hw).1, (hnodes w hw).2.tail huv⟩

/-- A path without a cycle has fewer links than the tree has nodes, as it meets no node twice. So
relaxing the columns as many times as there are nodes reaches the longest path. -/
theorem PathTo.lt_size (hlinks : t.LinksInRange) (hacyclic : t.Acyclic) (hv : v < t.nodes.size)
    (h : t.PathTo v n) : n < t.nodes.size := by
  obtain ⟨nodes, hlength, hnodup, hnodes⟩ := h.exists_nodes hlinks hacyclic
  have hall : (v :: nodes).Nodup :=
    List.nodup_cons.2 ⟨fun hmem => hacyclic v (hnodes v hmem).2, hnodup⟩
  have hsubset : v :: nodes ⊆ List.range t.nodes.size := by
    intro u hu
    obtain rfl | hu := List.mem_cons.1 hu
    · exact List.mem_range.2 hv
    · exact List.mem_range.2 (hnodes u hu).1
  have hle := (List.subperm_of_subset hall hsubset).length_le
  simp only [List.length_cons, List.length_range, hlength] at hle
  exact hle

/-- A tree whose links all go from a smaller to a greater number has no cycle. -/
theorem Acyclic.of_increasing (h : ∀ l ∈ t.links, l.fromNode < l.toNode) : t.Acyclic := by
  have hlt : ∀ {a b}, Relation.TransGen t.Joins a b → a < b := by
    intro a b hab
    induction hab with
    | single hab =>
      obtain ⟨l, hl, rfl, rfl⟩ := hab
      exact h l hl
    | tail _ hbc ih =>
      obtain ⟨l, hl, rfl, rfl⟩ := hbc
      exact Nat.lt_trans ih (h l hl)
  exact fun n hn => Nat.lt_irrefl n (hlt hn)

/-- Paths depend on which nodes are joined, not on the order or the number of links. -/
theorem PathTo.of_joins {t' : NodeTree} (hjoins : ∀ a b, t.Joins a b → t'.Joins a b)
    (h : t.PathTo v n) : t'.PathTo v n := by
  induction h with
  | start v => exact .start v
  | link _ huv ih => exact .link ih (hjoins _ _ huv)

end NodeTree

namespace Layout

variable {t : NodeTree} {cols : Array Nat} {k : Nat}

/-! ### One link -/

/-- One link raises the column of the node that it enters to one more than the column of the node
that it leaves, and changes no other. -/
theorem getD_relax (cols : Array Nat) (l : Link) (v : NodeId) :
    (relax cols l).getD v 0 =
      if v = l.toNode ∧ v < cols.size then max (cols.getD v 0) (cols.getD l.fromNode 0 + 1)
      else cols.getD v 0 := by
  unfold relax
  simp only
  split
  next hlt =>
    simp only [Array.getD_eq_getD_getElem?, Array.getElem?_setIfInBounds] at hlt ⊢
    by_cases hv : l.toNode = v
    · subst hv
      by_cases hsize : l.toNode < cols.size
      · simp only [if_pos, hsize, and_self, Option.getD_some]
        exact (Nat.max_eq_right (Nat.le_of_lt hlt)).symm
      · simp [hsize]
    · simp [hv, Ne.symm hv]
  next hle =>
    split
    next hv => rw [hv.1, Nat.max_eq_left (Nat.le_of_not_lt hle)]
    next => rfl

theorem le_relax (cols : Array Nat) (l : Link) (v : NodeId) :
    cols.getD v 0 ≤ (relax cols l).getD v 0 := by
  rw [getD_relax]
  split
  · exact Nat.le_max_left ..
  · exact Nat.le_refl _

/-! ### Columns are lengths of paths -/

/-- Every column is the length of a path that ends at its node. -/
def Attained (t : NodeTree) (cols : Array Nat) : Prop := ∀ v, t.PathTo v (cols.getD v 0)

/-- Raising a column by a link keeps columns lengths of paths: a path is made longer by the link. -/
theorem attained_relax (h : Attained t cols) {l : Link} (hl : l ∈ t.links) :
    Attained t (relax cols l) := by
  intro v
  rw [getD_relax]
  split
  next hv =>
    obtain hle | hle := Nat.le_total (cols.getD l.fromNode 0 + 1) (cols.getD v 0)
    · rw [Nat.max_eq_left hle]
      exact h v
    · rw [Nat.max_eq_right hle, hv.1]
      exact .link (h l.fromNode) ⟨l, hl, rfl, rfl⟩
  next => exact h v

theorem attained_pass (h : Attained t cols) : Attained t (pass t.links cols) := by
  unfold pass
  rw [← Array.foldl_toList]
  exact List.foldlRecOn _ _ h fun cols hcols l hl =>
    attained_relax hcols (Array.mem_toList_iff.1 hl)

theorem attained_settle (h : Attained t cols) : Attained t (settle t.links k cols) := by
  induction k generalizing cols with
  | zero => exact h
  | succ k ih =>
    rw [settle]
    split
    · exact h
    · exact ih (attained_pass h)

/-! ### Columns cover paths -/

/-- The columns are at least as great as the lengths of all paths of up to `k` links. -/
def Covers (t : NodeTree) (k : Nat) (cols : Array Nat) : Prop :=
  ∀ v n, v < t.nodes.size → t.PathTo v n → n ≤ k → n ≤ cols.getD v 0

theorem le_foldl_relax (ls : List Link) (cols : Array Nat) (v : NodeId) :
    cols.getD v 0 ≤ (ls.foldl relax cols).getD v 0 := by
  induction ls generalizing cols with
  | nil => exact Nat.le_refl _
  | cons l ls ih => exact (le_relax cols l v).trans (ih _)

/-- After a pass, the target of each link is to the right of where its source was before. -/
theorem lt_foldl_relax {ls : List Link} {l : Link} (hl : l ∈ ls) (hto : l.toNode < cols.size) :
    cols.getD l.fromNode 0 < (ls.foldl relax cols).getD l.toNode 0 := by
  induction ls generalizing cols with
  | nil => cases hl
  | cons x ls ih =>
    rw [List.foldl_cons]
    obtain rfl | hl := List.mem_cons.1 hl
    · refine Nat.lt_of_lt_of_le ?_ (le_foldl_relax ls _ _)
      rw [getD_relax, if_pos ⟨rfl, hto⟩]
      exact Nat.lt_of_lt_of_le (Nat.lt_succ_self _) (Nat.le_max_right ..)
    · exact Nat.lt_of_le_of_lt (le_relax cols x _) (ih hl (by rwa [size_relax]))

/-- A pass covers paths that are longer by one link. The last link of such a path is met in the pass,
when the column before it has reached its length already. -/
theorem covers_pass (hlinks : t.LinksInRange) (hsize : cols.size = t.nodes.size)
    (h : Covers t k cols) : Covers t (k + 1) (pass t.links cols) := by
  intro v n hv hpath hn
  unfold pass
  rw [← Array.foldl_toList]
  cases hpath with
  | start => exact Nat.zero_le _
  | @link u _ n hpath huv =>
    obtain ⟨l, hl, rfl, rfl⟩ := huv
    have hcovered := h l.fromNode n (hlinks l hl).1 hpath (Nat.le_of_succ_le_succ hn)
    exact Nat.lt_of_le_of_lt hcovered
      (lt_foldl_relax (Array.mem_toList_iff.2 hl) (by rw [hsize]; exact hv))

/-- Columns that a pass leaves alone cover all paths. -/
theorem covers_of_pass_eq (hlinks : t.LinksInRange) (hsize : cols.size = t.nodes.size)
    (heq : pass t.links cols = cols) (h : Covers t 0 cols) (m : Nat) : Covers t m cols := by
  induction m with
  | zero => exact h
  | succ m ih =>
    have hpass := covers_pass hlinks hsize ih
    rwa [heq] at hpass

/-- After some passes all paths of as many more links are covered, by induction on the passes. If a
pass changes nothing, all that follow would not either. -/
theorem covers_settle (hlinks : t.LinksInRange) (hsize : cols.size = t.nodes.size)
    (h : Covers t k cols) (m : Nat) : Covers t (k + m) (settle t.links m cols) := by
  induction m generalizing k cols with
  | zero => exact h
  | succ m ih =>
    rw [settle]
    split
    next heq =>
      exact covers_of_pass_eq hlinks hsize heq (fun v n hv hpath hn => h v n hv hpath (by omega)) _
    next =>
      rw [Nat.add_comm m 1, ← Nat.add_assoc]
      exact ih (by rw [size_pass, hsize]) (covers_pass hlinks hsize h)

/-! ### The columns of a tree -/

/-- In a tree without cycles the column of a node is the length of the longest path to it. -/
theorem getD_columns_isGreatest (hlinks : t.LinksInRange) (hacyclic : t.Acyclic) {v : NodeId}
    (hv : v < t.nodes.size) : IsGreatest {n | t.PathTo v n} ((columns t).getD v 0) := by
  have hsize : (Array.replicate t.nodes.size 0).size = t.nodes.size := Array.size_replicate
  have hzero : ∀ u, (Array.replicate t.nodes.size 0).getD u 0 = 0 := by
    intro u
    simp only [Array.getD_eq_getD_getElem?, Array.getElem?_replicate]
    split <;> rfl
  have hattained : Attained t (columns t) := by
    refine attained_settle fun u => ?_
    rw [hzero]
    exact .start u
  have hcovers : Covers t (0 + t.nodes.size) (columns t) :=
    covers_settle hlinks hsize (fun u n _ _ hn => Nat.le_trans hn (Nat.zero_le _)) _
  refine ⟨hattained v, fun n hpath => hcovers v n hv hpath ?_⟩
  rw [Nat.zero_add]
  exact Nat.le_of_lt (hpath.lt_size hlinks hacyclic hv)

/-- Trees of as many nodes whose links join the same nodes have the same columns. -/
theorem columns_congr {t' : NodeTree} (hlinks : t.LinksInRange) (hacyclic : t.Acyclic)
    (hsize : t'.nodes.size = t.nodes.size) (hmem : ∀ l, l ∈ t'.links ↔ l ∈ t.links) :
    columns t' = columns t := by
  have hjoins : t'.Joins = t.Joins := by
    funext a b
    simp only [NodeTree.Joins, hmem]
  have hpaths : ∀ v, {n | t'.PathTo v n} = {n | t.PathTo v n} := fun v => Set.ext fun n =>
    ⟨.of_joins fun a b h => hjoins ▸ h, .of_joins fun a b h => hjoins ▸ h⟩
  have hlinks' : t'.LinksInRange := fun l hl => hsize ▸ hlinks l ((hmem l).1 hl)
  have hacyclic' : t'.Acyclic := by
    rw [NodeTree.Acyclic, hjoins]
    exact hacyclic
  refine Array.ext (by simp [hsize]) fun v hv' hv => ?_
  rw [size_columns] at hv' hv
  have hgreatest := getD_columns_isGreatest hlinks' hacyclic' hv'
  rw [hpaths] at hgreatest
  simpa [Array.getD, hv, hv'] using hgreatest.unique (getD_columns_isGreatest hlinks hacyclic hv)

/-- The column of a node is the length of the longest path that ends there, in whatever order the
links stand, and every link goes to the right. -/
theorem columns_longest (hlinks : t.LinksInRange) (hacyclic : t.Acyclic) :
    (∀ v, v < t.nodes.size →
      ∃ c, (columns t)[v]? = some c ∧ IsGreatest {n | t.PathTo v n} c) ∧
    (∀ links : Array Link, links.Perm t.links → columns { t with links } = columns t) ∧
    (∀ l ∈ t.links, ∃ c d, (columns t)[l.fromNode]? = some c ∧
      (columns t)[l.toNode]? = some d ∧ c < d) := by
  have hlongest : ∀ v, v < t.nodes.size →
      ∃ c, (columns t)[v]? = some c ∧ IsGreatest {n | t.PathTo v n} c := by
    intro v hv
    refine ⟨(columns t).getD v 0, ?_, getD_columns_isGreatest hlinks hacyclic hv⟩
    simp [Array.getD, hv]
  refine ⟨hlongest, fun links hperm => columns_congr hlinks hacyclic rfl fun l => hperm.mem_iff, ?_⟩
  intro l hl
  obtain ⟨c, hc, hcpath⟩ := hlongest l.fromNode (hlinks l hl).1
  obtain ⟨d, hd, hdpath⟩ := hlongest l.toNode (hlinks l hl).2
  -- the longest path to the source goes on over the link
  exact ⟨c, d, hc, hd, hdpath.2 (.link hcpath.1 ⟨l, hl, rfl, rfl⟩)⟩

/-- A chain of four nodes with its links from the last to the first, and two links past it. -/
def chain : NodeTree where
  name := "chain"
  kind := .shader
  nodes := Array.ofFn fun i : Fin 4 => { id := i, key := "ShaderNodeMath" }
  links := #[⟨2, 0, 3, 0⟩, ⟨1, 0, 2, 0⟩, ⟨0, 0, 1, 0⟩, ⟨0, 0, 3, 1⟩, ⟨0, 0, 3, 2⟩]

theorem chain_increasing : ∀ l ∈ chain.links, l.fromNode < l.toNode := by decide

/-- A chain of four nodes, with two direct links from its first node to its last. The last node is in
the column of the longest path, and the columns are the same for the links in the reverse order. -/
theorem columns_longest_chain :
    chain.LinksInRange ∧ chain.Acyclic ∧ columns chain = #[0, 1, 2, 3] ∧
      IsGreatest {n | chain.PathTo 3 n} 3 ∧
      columns { chain with links := chain.links.reverse } = #[0, 1, 2, 3] := by
  have hlinks : chain.LinksInRange := by unfold NodeTree.LinksInRange; decide
  have hacyclic : chain.Acyclic := .of_increasing chain_increasing
  have hcolumns : columns chain = #[0, 1, 2, 3] := by decide
  obtain ⟨hlongest, hperm, -⟩ := columns_longest hlinks hacyclic
  obtain ⟨c, hc, hgreatest⟩ := hlongest 3 (by decide)
  obtain rfl : 3 = c := by simpa [hcolumns] using hc
  have hreverse : chain.links.reverse.Perm chain.links := by
    rw [Array.perm_iff_toList_perm, Array.toList_reverse]
    exact List.reverse_perm _
  exact ⟨hlinks, hacyclic, hcolumns, hgreatest, (hperm _ hreverse).trans hcolumns⟩

end Layout

end NodeFormula

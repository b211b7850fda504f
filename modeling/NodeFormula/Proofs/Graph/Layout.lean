import NodeFormula.Graph.Layout
import NodeFormula.Proofs.Graph.Machine

/-!
# Layout keeps the tree

Placing the nodes of a tree gives each node a cell, so no node is lost, and links stay what they were.
In particular the ends of links are still nodes of the tree.
-/

namespace NodeFormula.Layout

@[simp] theorem size_relax (columns : Array Nat) (l : Link) :
    (relax columns l).size = columns.size := by
  unfold relax
  simp only
  split <;> simp

@[simp] theorem size_pass (links : Array Link) (columns : Array Nat) :
    (pass links columns).size = columns.size := by
  unfold pass
  rw [← Array.foldl_toList]
  generalize links.toList = ls
  induction ls generalizing columns with
  | nil => rfl
  | cons l ls ih => rw [List.foldl_cons, ih, size_relax]

/-- The passes over the links give every node a column as before, by induction on their number. -/
@[simp] theorem size_settle (links : Array Link) (n : Nat) (columns : Array Nat) :
    (settle links n columns).size = columns.size := by
  induction n generalizing columns with
  | zero => rfl
  | succ n ih =>
    rw [settle]
    split
    · rfl
    · rw [ih, size_pass]

/-- Every node has a column. -/
@[simp] theorem size_columns (t : NodeTree) : (columns t).size = t.nodes.size := by
  simp [columns]

@[simp] theorem length_rows (filled : Table Nat Nat) (cols : List Nat) :
    (rows filled cols).length = cols.length := by
  induction cols generalizing filled with
  | nil => rfl
  | cons c cols ih => simp [rows, ih]

/-- No node is lost. -/
@[simp] theorem size_nodes_tree (t : NodeTree) : (tree t).nodes.size = t.nodes.size := by
  simp [tree]

/-- What is picked from the nodes of a tree does not depend on where they are. -/
theorem filterMap_tree {α : Type} {g : Node → Option α}
    (hg : ∀ n column row, g (place n column row) = g n) (t : NodeTree) :
    (tree t).nodes.toList.filterMap g = t.nodes.toList.filterMap g := by
  have hlist : ∀ (nodes : List Node) (cells : List (Nat × Nat)), nodes.length ≤ cells.length →
      (List.zipWith (fun n c => place n c.1 c.2) nodes cells).filterMap g = nodes.filterMap g := by
    intro nodes
    induction nodes with
    | nil => exact fun _ _ => rfl
    | cons n nodes ih =>
      intro cells hlen
      cases cells with
      | nil => cases hlen
      | cons c cells =>
        rw [List.zipWith_cons_cons, List.filterMap_cons, List.filterMap_cons, hg,
          ih cells (Nat.le_of_succ_le_succ hlen)]
  exact hlist _ _ (by simp)

@[simp] theorem links_tree (t : NodeTree) : (tree t).links = t.links := rfl

theorem linksInRange_tree {t : NodeTree} (h : t.LinksInRange) : (tree t).LinksInRange := by
  intro l hl
  rw [size_nodes_tree]
  exact h l hl

theorem linksInRange_graph {g : NodeGraph} (h : ∀ t ∈ g.trees, t.LinksInRange) :
    ∀ t ∈ (graph g).trees, t.LinksInRange := by
  intro t ht
  have hmap : (graph g).trees = g.trees.map tree := rfl
  rw [hmap] at ht
  obtain ⟨u, hu, rfl⟩ := List.mem_map.1 ht
  exact linksInRange_tree (h u hu)

end NodeFormula.Layout

import NodeFormula.Proofs.Folding.Comparisons
import NodeFormula.Proofs.Graph.Columns

/-!
# Nodes on a grid

Layout gives every node a cell of a grid, in trees with and without cycles. In a cycle the columns go
up with each pass until the passes are over, so they may be greater than the number of nodes; still
every column has a counter, and the rows of a column are counted from zero in the order in which its
nodes were added (`rows_of_column`). Distinct nodes thus have distinct cells.

Layout looks up columns by the ends of links and counters by columns. `tree?` is layout with every
look-up checked, and gives the same (`tree?_eq_some`). Cells are written as products of doubles, which
are exact for numbers of up to 53 binary digits, so nodes in distinct cells stand apart
(`nodes_on_grid`).
-/

namespace NodeFormula.Layout

variable {t : NodeTree} {cols : Array Nat}

/-! ### Rows -/

/-- The rows of a column are counted on from the number of rows that it has, in order. -/
theorem rows_of_column (filled : Table Nat Nat) (cols : List Nat) (c : Nat) :
    ((cols.zip (rows filled cols)).filter (·.1 == c)).map (·.2) =
      List.range' ((filled.get? c).getD 0) (cols.count c) := by
  induction cols generalizing filled with
  | nil => rfl
  | cons d cols ih =>
    rw [rows, List.zip_cons_cons]
    by_cases hd : d = c
    · subst hd
      rw [List.filter_cons_of_pos (by simp), List.map_cons, ih, List.count_cons_self,
        List.range'_succ, Table.get?_insert, if_pos rfl]
      rfl
    · rw [List.filter_cons_of_neg (by simpa using hd), ih, List.count_cons_of_ne hd,
        Table.get?_insert, if_neg (Ne.symm hd)]

/-- The cells of the nodes of a tree, in order: the column and the row of each. -/
def cells (t : NodeTree) : List (Nat × Nat) := (columns t).toList.zip (rows ∅ (columns t).toList)

@[simp] theorem length_cells (t : NodeTree) : (cells t).length = t.nodes.size := by
  simp [cells]

theorem map_fst_cells (t : NodeTree) : (cells t).map (·.1) = (columns t).toList :=
  List.map_fst_zip (by simp)

/-- The nodes of a column have the rows from zero on, in the order of the nodes. -/
theorem rows_cells (t : NodeTree) (c : Nat) :
    ((cells t).filter (·.1 == c)).map (·.2) = List.range ((cells t).countP (·.1 == c)) := by
  have hcount : (cells t).countP (·.1 == c) = (columns t).toList.count c := by
    rw [← map_fst_cells, List.count, List.countP_map]
    rfl
  rw [hcount, List.range_eq_range']
  exact rows_of_column ∅ _ c

/-- No two nodes have the same cell, since the rows of a column are counted. -/
theorem nodup_cells (t : NodeTree) : (cells t).Nodup := by
  rw [List.nodup_iff_count_le_one]
  intro cell
  have hrows : ((cells t).filter (·.1 == cell.1)).Nodup := by
    refine List.Nodup.of_map (·.2) ?_
    rw [rows_cells]
    exact List.nodup_range
  calc (cells t).count cell = ((cells t).filter (·.1 == cell.1)).count cell :=
        (List.count_filter (by simp)).symm
    _ ≤ 1 := List.nodup_iff_count_le_one.1 hrows cell

/-! ### Layout with every index checked -/

/-- Write at an index of an array, if it is one. -/
def put? (a : Array Nat) (i v : Nat) : Option (Array Nat) :=
  if i < a.size then some (a.setIfInBounds i v) else none

/-- Move the target of a link to the right of its source. Both ends have to have a column. -/
def relax? (columns : Array Nat) (l : Link) : Option (Array Nat) := do
  let source ← columns[l.fromNode]?
  let target ← columns[l.toNode]?
  if target < source + 1 then put? columns l.toNode (source + 1) else some columns

/-- Relax every link once, in order. -/
def pass? (links : Array Link) (columns : Array Nat) : Option (Array Nat) :=
  links.toList.foldlM relax? columns

/-- Repeat passes until one changes nothing, at most the given number of times. -/
def settle? (links : Array Link) : Nat → Array Nat → Option (Array Nat)
  | 0, columns => some columns
  | n + 1, columns => do
    let next ← pass? links columns
    if next = columns then some columns else settle? links n next

/-- The row of each node, given the columns of the nodes in order and the number of rows that each
column has so far. Every column has to have a counter. -/
def rows? (filled : Array Nat) : List Nat → Option (List Nat)
  | [] => some []
  | c :: rest => do
    let row ← filled[c]?
    let filled ← put? filled c (row + 1)
    let others ← rows? filled rest
    return row :: others

/-- One more than the greatest column, or zero if there is none. -/
def columnCount (cols : List Nat) : Nat := (cols.max?.map (· + 1)).getD 0

/-- Place every node of a tree, with a counter for each column up to the greatest. -/
def tree? (t : NodeTree) : Option NodeTree := do
  let columns ← settle? t.links t.nodes.size (Array.replicate t.nodes.size 0)
  let cols := columns.toList
  let counted ← rows? (Array.replicate (columnCount cols) 0) cols
  return { t with
    nodes := (List.zipWith (fun n c => place n c.1 c.2) t.nodes.toList (cols.zip counted)).toArray }

theorem relax?_eq_some {l : Link} (hfrom : l.fromNode < cols.size) (hto : l.toNode < cols.size) :
    relax? cols l = some (relax cols l) := by
  simp only [relax?, relax, put?, Array.getD_eq_getD_getElem?, Array.getElem?_eq_getElem hfrom,
    Array.getElem?_eq_getElem hto, if_pos hto, Option.bind_eq_bind, Option.bind_some,
    Option.getD_some]
  split <;> rfl

/-- A pass over links in range never looks up a missing column, by induction on the links. -/
theorem pass?_eq_some (hlinks : t.LinksInRange) (hsize : cols.size = t.nodes.size) :
    pass? t.links cols = some (pass t.links cols) := by
  have hlist : ∀ (ls : List Link) (cols : Array Nat), cols.size = t.nodes.size →
      (∀ l ∈ ls, l ∈ t.links) → ls.foldlM relax? cols = some (ls.foldl relax cols) := by
    intro ls
    induction ls with
    | nil => exact fun _ _ _ => rfl
    | cons l ls ih =>
      intro cols hsize hmem
      obtain ⟨hfrom, hto⟩ := hlinks l (hmem l (.head _))
      rw [List.foldlM_cons, relax?_eq_some (hsize ▸ hfrom) (hsize ▸ hto)]
      exact ih _ ((size_relax cols l).trans hsize) fun k hk => hmem k (.tail _ hk)
  unfold pass? pass
  rw [← Array.foldl_toList]
  exact hlist _ cols hsize fun l hl => Array.mem_toList_iff.1 hl

/-- The passes never look up a missing column, by induction on their number. -/
theorem settle?_eq_some (hlinks : t.LinksInRange) (hsize : cols.size = t.nodes.size) (n : Nat) :
    settle? t.links n cols = some (settle t.links n cols) := by
  induction n generalizing cols with
  | zero => rfl
  | succ n ih =>
    rw [settle?, pass?_eq_some hlinks hsize, settle]
    simp only [Option.bind_eq_bind, Option.bind_some]
    split
    · rfl
    · exact ih ((size_pass _ _).trans hsize)

theorem lt_columnCount {cols : List Nat} {c : Nat} (h : c ∈ cols) : c < columnCount cols := by
  unfold columnCount
  cases hmax : cols.max? with
  | none =>
    rw [List.max?_eq_none_iff.1 hmax] at h
    cases h
  | some greatest => exact Nat.lt_succ_of_le ((List.max?_eq_some_iff.1 hmax).2 c h)

/-- Counters in an array count like those in a table, if every column has one. The induction is on
the columns, and counting up a column keeps array and table alike. -/
theorem rows?_eq_some {counters : Array Nat} {filled : Table Nat Nat} {cols : List Nat}
    (hsame : ∀ c < counters.size, counters[c]? = some ((filled.get? c).getD 0))
    (hcols : ∀ c ∈ cols, c < counters.size) : rows? counters cols = some (rows filled cols) := by
  induction cols generalizing counters filled with
  | nil => rfl
  | cons c cols ih =>
    have hc := hcols c (.head _)
    have hrest : rows? (counters.setIfInBounds c ((filled.get? c).getD 0 + 1)) cols =
        some (rows (filled.insert c ((filled.get? c).getD 0 + 1)) cols) := by
      refine ih (fun d hd => ?_) fun d hd => ?_
      · rw [Array.size_setIfInBounds] at hd
        rw [Array.getElem?_setIfInBounds, Table.get?_insert]
        by_cases hcd : c = d
        · rw [if_pos hcd, if_pos hc, if_pos hcd.symm]
          rfl
        · rw [if_neg hcd, if_neg (Ne.symm hcd)]
          exact hsame d hd
      · rw [Array.size_setIfInBounds]
        exact hcols d (.tail _ hd)
    rw [rows?, hsame c hc, rows]
    simp only [put?, if_pos hc, Option.bind_eq_bind, Option.bind_some, hrest]
    rfl

/-- Every index that layout looks up is there: the nodes of each link, the column of each node and
the counter of each column. So layout with checked look-ups is layout. -/
theorem tree?_eq_some (hlinks : t.LinksInRange) : tree? t = some (tree t) := by
  have hcounted : rows? (Array.replicate (columnCount (columns t).toList) 0) (columns t).toList =
      some (rows ∅ (columns t).toList) := by
    refine rows?_eq_some (fun c hc => ?_) fun c hc => ?_
    · rw [Array.size_replicate] at hc
      rw [Array.getElem?_replicate, if_pos hc]
      rfl
    · rw [Array.size_replicate]
      exact lt_columnCount hc
  rw [tree?, settle?_eq_some hlinks Array.size_replicate]
  change (rows? (Array.replicate (columnCount (columns t).toList) 0) (columns t).toList).bind _ = _
  rw [hcounted]
  rfl

/-! ### Places -/

section
open Double

theorem holds_columnWidth : Holds columnWidth.toModel.unpack 200 := by
  have hunpack : columnWidth.toModel.unpack = .finite .positive (200 * 2 ^ 45) (-45) (by decide) :=
    rfl
  rw [hunpack]
  exact .finite (k := 7) (n := 200) _ ⟨by decide, by decide⟩ rfl (by decide) rfl

theorem holds_rowHeight : Holds rowHeight.toModel.unpack 150 := by
  have hunpack : rowHeight.toModel.unpack = .finite .positive (150 * 2 ^ 45) (-45) (by decide) :=
    rfl
  rw [hunpack]
  exact .finite (k := 7) (n := 150) _ ⟨by decide, by decide⟩ rfl (by decide) rfl

theorem holds_ofNat_of_lt {k : Nat} (hk : k < 2 ^ 53) : Holds (Float.ofNat k).toModel.unpack k := by
  have hholds := holds_ofNat (n := k) (by omega)
  rwa [← nearest_natCast, nearest_of_natAbs_le (by simpa using hk.le)] at hholds

/-- The place of a node is exact if the products have at most 53 binary digits. -/
theorem holds_place (n : Node) {column row : Nat} (hcolumn : 200 * column < 2 ^ 53)
    (hrow : 150 * row < 2 ^ 53) :
    Holds (place n column row).x.toModel.unpack (200 * column) ∧
      Holds (place n column row).y.toModel.unpack (-(150 * row)) := by
  constructor
  · have hx := (holds_ofNat_of_lt (k := column) (by omega)).mul holds_columnWidth (by omega)
    have hmodel : (place n column row).x.toModel = Float.Model.pack
        ((Float.ofNat column).toModel.unpack.mul .binary64 columnWidth.toModel.unpack) := rfl
    rw [hmodel, hx.unpack_pack, Int.mul_comm]
    exact hx
  · have hneg := (holds_ofNat_of_lt (k := row) (by omega)).neg
    have hy := hneg.mul holds_rowHeight (by omega)
    have hmodel : (place n column row).y.toModel = Float.Model.pack
        ((Float.Model.pack (Float.ofNat row).toModel.unpack.neg).unpack.mul .binary64
          rowHeight.toModel.unpack) := rfl
    have hvalue : -(150 * (row : Int)) = -(row : Int) * 150 := by omega
    rw [hmodel, hneg.unpack_pack, hy.unpack_pack, hvalue]
    exact hy

end

/-- Nodes in distinct cells stand apart if their places are exact. -/
theorem place_apart (n n' : Node) {cell cell' : Nat × Nat} (hne : cell ≠ cell')
    (hcell : 200 * cell.1 < 2 ^ 53 ∧ 150 * cell.2 < 2 ^ 53)
    (hcell' : 200 * cell'.1 < 2 ^ 53 ∧ 150 * cell'.2 < 2 ^ 53) :
    ((place n cell.1 cell.2).x == (place n' cell'.1 cell'.2).x &&
      (place n cell.1 cell.2).y == (place n' cell'.1 cell'.2).y) = false := by
  obtain ⟨hx, hy⟩ := holds_place n hcell.1 hcell.2
  obtain ⟨hx', hy'⟩ := holds_place n' hcell'.1 hcell'.2
  rw [Double.beq_eq hx hx', Double.beq_eq hy hy', ← Bool.decide_and, decide_eq_false_iff_not]
  rintro ⟨hcolumn, hrow⟩
  exact hne (Prod.ext (by omega) (by omega))

theorem getElem?_tree {i : NodeId} {n : Node} (hn : t.nodes[i]? = some n) : ∃ cell,
    (cells t)[i]? = some cell ∧ (tree t).nodes[i]? = some (place n cell.1 cell.2) := by
  have hlt : i < (cells t).length := by
    rw [length_cells]
    exact NodeTree.lt_size_of_getElem? hn
  have hcell := List.getElem?_eq_getElem hlt
  refine ⟨_, hcell, ?_⟩
  change (List.zipWith _ t.nodes.toList (cells t)).toArray[i]? = _
  rw [List.getElem?_toArray, List.getElem?_zipWith, Array.getElem?_toList, hn, hcell]

theorem exists_cell_of_getElem?_tree {i : NodeId} {n' : Node} (hn' : (tree t).nodes[i]? = some n') :
    ∃ n cell, (cells t)[i]? = some cell ∧ n' = place n cell.1 cell.2 := by
  have hlt := NodeTree.lt_size_of_getElem? hn'
  rw [size_nodes_tree] at hlt
  obtain ⟨cell, hcell, hplaced⟩ := getElem?_tree (Array.getElem?_eq_getElem hlt)
  exact ⟨_, cell, hcell, Option.some_inj.1 (hn'.symm.trans hplaced)⟩

/-- Layout looks up no index that is not there, and changes nothing but the places of nodes. It gives
every node a cell in its column, such that distinct nodes have distinct cells and the nodes of a
column have the rows from zero on, in the order in which they were added. A node stands where its cell
is if the products are exact, and if all are then no two nodes stand at one place. -/
theorem nodes_on_grid (hlinks : t.LinksInRange) :
    tree? t = some (tree t) ∧
    tree t = { t with nodes := (tree t).nodes } ∧
    (tree t).nodes.size = t.nodes.size ∧
    (cells t).map (·.1) = (columns t).toList ∧
    (cells t).Nodup ∧
    (∀ c, ((cells t).filter (·.1 == c)).map (·.2) = List.range ((cells t).countP (·.1 == c))) ∧
    (∀ (i : NodeId) (n : Node), t.nodes[i]? = some n → ∃ column row n',
      (cells t)[i]? = some (column, row) ∧
      (tree t).nodes[i]? = some n' ∧
      n' = { n with x := Float.ofNat column * 200.0, y := -(Float.ofNat row) * 150.0 } ∧
      (200 * column < 2 ^ 53 → 150 * row < 2 ^ 53 →
        Double.Holds n'.x.toModel.unpack (200 * column) ∧
        Double.Holds n'.y.toModel.unpack (-(150 * row)))) ∧
    ((∀ cell ∈ cells t, 200 * cell.1 < 2 ^ 53 ∧ 150 * cell.2 < 2 ^ 53) →
      ∀ (i j : NodeId) (n n' : Node), (tree t).nodes[i]? = some n → (tree t).nodes[j]? = some n' →
        i ≠ j → (n.x == n'.x && n.y == n'.y) = false) := by
  refine ⟨tree?_eq_some hlinks, rfl, size_nodes_tree t, map_fst_cells t, nodup_cells t, rows_cells t,
    fun i n hn => ?_, fun hsmall i j n n' hi hj hne => ?_⟩
  · obtain ⟨⟨column, row⟩, hcell, hnode⟩ := getElem?_tree hn
    exact ⟨column, row, _, hcell, hnode, rfl, holds_place n⟩
  · obtain ⟨old, cell, hcell, rfl⟩ := exists_cell_of_getElem?_tree hi
    obtain ⟨old', cell', hcell', rfl⟩ := exists_cell_of_getElem?_tree hj
    have hcells : cell ≠ cell' := by
      rintro rfl
      exact hne ((List.getElem?_inj (List.getElem?_eq_some_iff.1 hcell).1 (nodup_cells t)).1
        (hcell.trans hcell'.symm))
    exact place_apart old old' hcells (hsmall _ (List.mem_of_getElem? hcell))
      (hsmall _ (List.mem_of_getElem? hcell'))

/-- Two nodes in a cycle, and two that are alone. The cycle is passed four times, so its columns are
greater than the number of nodes. -/
def ring : NodeTree where
  name := "ring"
  kind := .geometry
  nodes := Array.ofFn fun i : Fin 4 => { id := i, key := "ShaderNodeMath" }
  links := #[⟨0, 0, 2, 0⟩, ⟨2, 0, 0, 0⟩]

/-- A tree with a cycle, in which columns exceed the number of nodes. Its layout looks up nothing
that is missing, and two nodes of the same column stand apart. -/
theorem nodes_on_grid_ring :
    ring.LinksInRange ∧ tree? ring = some (tree ring) ∧
      cells ring = [(8, 0), (0, 0), (7, 0), (0, 1)] ∧
      ∀ n n', (tree ring).nodes[1]? = some n → (tree ring).nodes[3]? = some n' →
        (n.x == n'.x && n.y == n'.y) = false := by
  have hlinks : ring.LinksInRange := by unfold NodeTree.LinksInRange; decide
  have hcells : cells ring = [(8, 0), (0, 0), (7, 0), (0, 1)] := by decide +kernel
  obtain ⟨hindices, -, -, -, -, -, -, hapart⟩ := nodes_on_grid hlinks
  refine ⟨hlinks, hindices, hcells, fun n n' hn hn' => hapart ?_ 1 3 n n' hn hn' (by decide)⟩
  rw [hcells]
  decide

end NodeFormula.Layout

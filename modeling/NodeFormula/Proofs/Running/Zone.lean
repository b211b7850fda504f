import NodeFormula.Proofs.Running.Steps

/-!
# How runs end

`Ends` relates a run to what the widths of variables foretell: with a result, the run succeeds in a
machine as described; without one, the run fails because a bundle meets a socket, and for no other
reason. `zone_ends` is the case where the two outcomes part: the variables that a zone carries are
those of width one that its body binds, and each must have width one again where the zone ends.
-/

namespace NodeFormula.Machine

/-- A run ends as the widths foretell. -/
def Ends (r : Option Widths) (x : Except RunError Machine) (Q : Widths → Machine → Prop) : Prop :=
  match r with
  | some w => ∃ m, x = .ok m ∧ Q w m
  | none => x = .error .bundleToSocket

namespace Ends

variable {r : Option Widths} {x : Except RunError Machine} {Q Q' : Widths → Machine → Prop}

/-- A run that succeeds ends as foretold. -/
theorem ok {w : Widths} {m : Machine} (h : Q w m) : Ends (some w) (.ok m) Q := ⟨m, rfl, h⟩

/-- Two runs in a row end as foretold if the first does and the second does from where the first
ends. A failure of the first is one of both. -/
theorem bind {g : Widths → Option Widths} {f : Machine → Except RunError Machine} (h : Ends r x Q)
    (hf : ∀ w m, Q w m → Ends (g w) (f m) Q') : Ends (r >>= g) (x >>= f) Q' := by
  cases r with
  | none =>
    have hx : x = .error .bundleToSocket := h
    rw [hx]
    exact rfl
  | some w =>
    obtain ⟨m, rfl, hm⟩ := h
    exact hf w m hm

/-- A step that cannot fail may be put behind a run, and the run ends as foretold by the same
widths. -/
theorem step {f : Machine → Except RunError Machine} (h : Ends r x Q)
    (hf : ∀ w m, Q w m → ∃ m', f m = .ok m' ∧ Q' w m') : Ends r (x >>= f) Q' := by
  cases r with
  | none =>
    have hx : x = .error .bundleToSocket := h
    rw [hx]
    exact rfl
  | some w =>
    obtain ⟨m, rfl, hm⟩ := h
    obtain ⟨m', hm', hq⟩ := hf w m hm
    exact ⟨m', hm', hq⟩

theorem mono (h : Ends r x Q) (hq : ∀ w m, Q w m → Q' w m) : Ends r x Q' := by
  cases r with
  | none => exact h
  | some w =>
    obtain ⟨m, hx, hm⟩ := h
    exact ⟨m, hx, hq w m hm⟩

/-- The widths have a result for a run that succeeds, and the machine is as described for these
widths. Without a result the run would have failed. -/
theorem of_ok {m : Machine} (h : Ends r x Q) (hx : x = .ok m) : ∃ w, r = some w ∧ Q w m := by
  cases r with
  | none =>
    have hfail : x = .error .bundleToSocket := h
    rw [hfail] at hx
    cases hx
  | some w =>
    obtain ⟨m', hm', hq⟩ := h
    rw [hm'] at hx
    cases hx
    exact ⟨w, rfl, hq⟩

end Ends

/-- The variables with names in `P` stand for items of the given widths. -/
def EnvAgrees (P : String → Prop) (w : Widths) (env : Table String Item) : Prop :=
  ∀ x, P x → Option.Rel Item.HasWidth (env.get? x) (w x)

namespace EnvAgrees

variable {P : String → Prop} {w : Widths} {env : Table String Item}

theorem exists_item (h : EnvAgrees P w env) {x : String} {n : Nat} (hx : P x) (hw : w x = some n) :
    ∃ i, env.get? x = some i ∧ i.HasWidth n := by
  have hr := h x hx
  rw [hw] at hr
  cases he : env.get? x with
  | none => rw [he] at hr; cases hr
  | some i => rw [he] at hr; cases hr with | some hi => exact ⟨i, rfl, hi⟩

theorem exists_width (h : EnvAgrees P w env) {x : String} {i : Item} (hx : P x)
    (he : env.get? x = some i) : ∃ n, w x = some n ∧ i.HasWidth n := by
  have hr := h x hx
  rw [he] at hr
  cases hw : w x with
  | none => rw [hw] at hr; cases hr
  | some n => rw [hw] at hr; cases hr with | some hi => exact ⟨n, rfl, hi⟩

theorem insert (h : EnvAgrees P w env) (x : String) {i : Item} {n : Nat} (hi : i.HasWidth n) :
    EnvAgrees P (w.bind x n) (env.insert x i) := by
  intro y hy
  rw [Table.get?_insert]
  split
  next heq => rw [heq, Widths.bind_self]; exact .some hi
  next hne => rw [Widths.bind_of_ne hne]; exact h y hy

/-- A variable with another kind of name changes nothing. -/
theorem insert_other (h : EnvAgrees P w env) {x : String} (hx : ¬ P x) (i : Item) :
    EnvAgrees P w (env.insert x i) := by
  intro y hy
  rw [Table.get?_insert, if_neg]
  · exact h y hy
  · rintro rfl
    exact hx hy

theorem erase_other (h : EnvAgrees P w env) {x : String} (hx : ¬ P x) :
    EnvAgrees P w (env.erase x) := by
  intro y hy
  rw [Table.get?_erase, if_neg]
  · exact h y hy
  · rintro rfl
    exact hx hy

/-- A variable of width one may be bound to another single value. -/
theorem rebind (h : EnvAgrees P w env) {x : String} {i : Item} (hw : w x = some 1) (hi : i.Single) :
    EnvAgrees P w (env.insert x i) := by
  intro y hy
  rw [Table.get?_insert]
  split
  next heq => rw [heq, hw]; exact .some (.single hi)
  next => exact h y hy

end EnvAgrees

/-! ### The variables that ops bind -/

/-- A variable that is bound is collected, except for those with a `#`, which are temporary and do
not count. -/
theorem mem_boundNames_bindVar (seen : List String) (n x : String) :
    x ∈ boundNames seen (.bindVar n) ↔ x ∈ seen ∨ '#' ∉ n.toList ∧ x = n := by
  rw [boundNames]
  by_cases hn : '#' ∈ n.toList
  · simp [hn]
  · by_cases hs : n ∈ seen
    · simp only [List.contains_iff_mem.2 hs, Bool.or_true, if_true, hn, not_false_eq_true, true_and]
      constructor
      · exact .inl
      · rintro (h | rfl)
        · exact h
        · exact hs
    · simp [hn, hs]

mutual

theorem mem_boundNames : (op : Op) → ∀ (seen : List String) (x : String),
    x ∈ boundNames seen op ↔ x ∈ seen ∨ x ∈ boundNames [] op
  | .bindVar n, seen, x => by simp [mem_boundNames_bindVar]
  | .zone body, seen, x => mem_boundNamesAll body seen x
  | .pushValue _, _, _ | .createVar _, _, _ | .getVar _, _, _ | .destroyVar _, _, _
  | .getOutput _, _, _ | .setOutput _ _, _, _ | .setFunctionOut _, _, _ | .splitStruct, _, _
  | .pop, _, _ | .callBuiltin _ _, _, _ | .callFunction _ _ _ _, _, _ | .callGroup _ _ _ _, _, _
  | .renameNode _, _, _ | .endOfStatement, _, _ => by simp [boundNames]

theorem mem_boundNamesAll : (ops : List Op) → ∀ (seen : List String) (x : String),
    x ∈ boundNamesAll seen ops ↔ x ∈ seen ∨ x ∈ boundNamesAll [] ops
  | [], _, _ => by simp [boundNamesAll]
  | op :: ops, seen, x => by
    rw [boundNamesAll, boundNamesAll, mem_boundNamesAll ops, mem_boundNames op seen,
      mem_boundNamesAll ops (boundNames [] op)]
    exact or_assoc

end

theorem mem_boundNamesAll_append (a b : List Op) (x : String) :
    x ∈ boundNamesAll [] (a ++ b) ↔ x ∈ boundNamesAll [] a ∨ x ∈ boundNamesAll [] b := by
  rw [boundNamesAll_append]
  exact mem_boundNamesAll b _ x

/-! ### Zones -/

variable {m : Machine} {P : String → Prop} {w : Widths}

/-- Connecting the variables of a zone's items fails exactly where one stands for a bundle, and
changes nothing but the tree and these variables. The induction is on the items. -/
theorem threadItems_ends (items : List RepeatItem) {node : NodeId} (index : Nat)
    (hn : node < m.tree.nodes.size) (henv : EnvAgrees P w m.env)
    (hitems : ∀ item ∈ items, P item.name ∧ w item.name ≠ none) :
    Ends (if items.all fun item => w item.name = some 1 then some w else none)
      (m.threadItems node index items)
      fun w' m' => w' = w ∧ EnvAgrees P w m'.env ∧ m'.stack = m.stack ∧ m'.outputs = m.outputs ∧
        m'.groups = m.groups ∧ m.tree.nodes.size = m'.tree.nodes.size := by
  induction items generalizing m index with
  | nil => exact .ok ⟨rfl, henv, rfl, rfl, rfl, rfl⟩
  | cons item items ih =>
    obtain ⟨hP, hbound⟩ := hitems item (.head _)
    obtain ⟨n, hw⟩ := Option.ne_none_iff_exists'.1 hbound
    obtain ⟨i, hget, hi⟩ := henv.exists_item hP hw
    have hgets : m.get item.name = .ok i := by rw [get, hget]
    by_cases hone : n = 1
    · subst hone
      obtain ⟨t, hconnect, hsize⟩ := connect_runs m node index hn (.inr hi.single_of_one)
      have hrest := ih (m := { m with
          tree := t
          env := m.env.insert item.name (.socket ⟨node, index, item.type⟩) }) (index + 1)
        (by rw [hsize]; exact hn) (henv.rebind hw (.socket _)) fun j hj => hitems j (.tail _ hj)
      have heq : m.threadItems node index (item :: items) = threadItems { m with
          tree := t
          env := m.env.insert item.name (.socket ⟨node, index, item.type⟩) } node (index + 1) items := by
        rw [threadItems, hgets]
        change (m.connect node index i >>= fun m => _) = _
        rw [hconnect]
        rfl
      rw [heq]
      simpa only [List.all_cons, hw, decide_true, Bool.true_and, hsize] using hrest
    · obtain ⟨parts, rfl⟩ : ∃ parts, i = .bundle parts := by
        cases hi with
        | single => exact absurd rfl hone
        | @bundle parts => exact ⟨parts, rfl⟩
      have hfalse : ¬ ((item :: items).all fun item => w item.name = some 1) = true := by
        simp [hw, hone]
      rw [if_neg hfalse]
      change m.threadItems node index (item :: items) = .error .bundleToSocket
      rw [threadItems, hgets]
      rfl

/-- A zone with its count on the stack gets its two nodes. What is left is to connect the variables
that it carries, before and after its body. -/
theorem zone_enters {count : Item} {rest : List Item} (hs : m.stack = count :: rest)
    (hc : count.Single) (ops : List Op) :
    ∃ (m₁ : Machine) (first last : NodeId), first < m₁.tree.nodes.size ∧
      last < m₁.tree.nodes.size ∧ m₁.stack = rest ∧ Frame m m₁ ∧
      ∀ body, m.zone ops body = (do
        let m₂ ← m₁.threadItems first 1 (m.carried ops)
        let inner ← body { m₂ with stack := [] }
        let m₃ ← ({ inner with stack := m₂.stack }).threadItems last 0 (m.carried ops)
        return { m₃ with newest := some last }) := by
  let first := m.tree.nextId
  let t₁ := (m.tree.addNode "GeometryNodeRepeatInput").addNode "GeometryNodeRepeatOutput"
  let last := (m.tree.addNode "GeometryNodeRepeatInput").nextId
  have hsize : t₁.nodes.size = m.tree.nodes.size + 2 := by simp [t₁]
  have hfirst : first < t₁.nodes.size := by
    change m.tree.nodes.size < _
    omega
  have hlast : last < t₁.nodes.size := by
    change (m.tree.addNode "GeometryNodeRepeatInput").nodes.size < _
    rw [NodeTree.size_nodes_addNode]
    omega
  obtain ⟨t₂, hcount, hsize₂⟩ := connect_runs
    { m with
      stack := rest
      tree := t₁.modifyNode first fun n => { n with pairedWith := some last } }
    first 0 (by simpa using hfirst) (.inr hc)
  have hsize₂' : t₂.nodes.size = t₁.nodes.size := by simpa using hsize₂
  let mark (n : Node) : Node := { n with repeatItems := m.carried ops }
  refine ⟨{ m with stack := rest, tree := (t₂.modifyNode first mark).modifyNode last mark }, first,
    last, ?_, ?_, rfl, ⟨rfl, rfl, rfl⟩, fun body => ?_⟩
  · simpa [hsize₂'] using hfirst
  · simpa [hsize₂'] using hlast
  · have hpair := modifyNode_runs (m := { m with stack := rest, tree := t₁ }) hfirst
      fun n => { n with pairedWith := some last }
    have hfirst₂ : first < t₂.nodes.size := by rw [hsize₂']; exact hfirst
    have hlast₂ : last < (t₂.modifyNode first mark).nodes.size := by simpa [hsize₂'] using hlast
    have hmark₁ := modifyNode_runs (m := { m with stack := rest, tree := t₂ }) hfirst₂ mark
    have hmark₂ :=
      modifyNode_runs (m := { m with stack := rest, tree := t₂.modifyNode first mark }) hlast₂ mark
    have hpop : m.pop = .ok (count, { m with stack := rest }) := by rw [pop, hs]
    unfold zone
    refine (bind_of_ok hpop _).trans ?_
    refine (bind_of_ok hpair _).trans ?_
    refine (bind_of_ok hcount _).trans ?_
    refine (bind_of_ok hmark₁ _).trans ?_
    exact (bind_of_ok hmark₂ _).trans rfl

/-- A zone carries the variables of width one that its body binds: a single value has a type to be
carried with, and a bundle has none. -/
theorem mem_carried {ops : List Op} {bound : List String} (henv : EnvAgrees P w m.env)
    (hbound : ∀ x, x ∈ boundNamesAll [] ops ↔ x ∈ bound) (hP : ∀ x ∈ bound, P x) (x : String) :
    (∃ item ∈ m.carried ops, item.name = x) ↔ x ∈ bound ∧ w x = some 1 := by
  constructor
  · rintro ⟨item, hitem, rfl⟩
    obtain ⟨y, hy, hmap⟩ := List.mem_filterMap.1 hitem
    obtain ⟨t, ht, rfl⟩ := Option.map_eq_some_iff.1 hmap
    obtain ⟨i, hi, hti⟩ := Option.bind_eq_some_iff.1 ht
    have hb := (hbound y).1 hy
    obtain ⟨n, hn, hwidth⟩ := henv.exists_width (hP y hb) hi
    have hone := hwidth.isSome_type?.1 (by rw [hti]; rfl)
    exact ⟨hb, by rw [hn, hone]⟩
  · rintro ⟨hb, hw⟩
    obtain ⟨i, hi, hwidth⟩ := henv.exists_item (hP x hb) hw
    obtain ⟨t, ht⟩ := Option.isSome_iff_exists.1 (hwidth.isSome_type?.2 rfl)
    refine ⟨⟨x, t⟩, List.mem_filterMap.2 ⟨x, (hbound x).2 hb, ?_⟩, rfl⟩
    rw [hi, Option.bind_some, ht]
    rfl

/-- The variables that a zone carries all have width one again where it ends exactly if the widths
say so. -/
theorem all_carried {ops : List Op} {bound : List String} (henv : EnvAgrees P w m.env)
    (hbound : ∀ x, x ∈ boundNamesAll [] ops ↔ x ∈ bound) (hP : ∀ x ∈ bound, P x) (after : Widths) :
    ((m.carried ops).all fun item => after item.name = some 1) = w.keepsCarried after bound := by
  rw [Bool.eq_iff_iff, List.all_eq_true, Widths.keepsCarried, List.all_eq_true]
  simp only [decide_eq_true_eq, Bool.or_eq_true, ne_eq, decide_not, Bool.not_eq_eq_eq_not,
    Bool.not_true, decide_eq_false_iff_not]
  constructor
  · intro h x hx
    by_cases hw : w x = some 1
    · obtain ⟨item, hitem, rfl⟩ := (mem_carried henv hbound hP x).2 ⟨hx, hw⟩
      exact .inr (h item hitem)
    · exact .inl hw
  · intro h item hitem
    obtain ⟨hb, hw⟩ := (mem_carried henv hbound hP item.name).1 ⟨item, hitem, rfl⟩
    rcases h item.name hb with h | h
    · exact absurd hw h
    · exact h

/-- A zone runs if its body does and each variable that it carries ends with width one. The variables
have width one where it starts, so that only the end can fail, where one has become a bundle. -/
theorem zone_ends {ops : List Op} {bound : List String} {body : Machine → Except RunError Machine}
    {r : Option Widths} {count : Item} {rest : List Item}
    {Q : Widths → List Item → List NodeTree → Prop} (hs : m.stack = count :: rest)
    (hc : count.Single) (henv : EnvAgrees P w m.env)
    (hbound : ∀ x, x ∈ boundNamesAll [] ops ↔ x ∈ bound) (hP : ∀ x ∈ bound, P x)
    (hgrow : OnlyExtends body) (hkeeps : ∀ w', r = some w' → w.Keeps w')
    (hbody : ∀ m₁ : Machine, EnvAgrees P w m₁.env → m₁.outputs = m.outputs → m₁.groups = m.groups →
      Ends r (body m₁) fun w' m' => EnvAgrees P w' m'.env ∧ Q w' m'.outputs m'.groups) :
    Ends (r >>= fun w' => if w.keepsCarried w' bound then some w' else none) (m.zone ops body)
      fun w' m' => EnvAgrees P w' m'.env ∧ Q w' m'.outputs m'.groups := by
  obtain ⟨m₁, first, last, hfirst, hlast, -, hframe, hzone⟩ := zone_enters hs hc ops
  rw [hzone body]
  have hitems : ∀ item ∈ m.carried ops, P item.name ∧ w item.name = some 1 := by
    intro item hitem
    obtain ⟨hb, hw⟩ := (mem_carried henv hbound hP item.name).1 ⟨item, hitem, rfl⟩
    exact ⟨hP _ hb, hw⟩
  -- The variables have width one where the zone starts, so entering it cannot fail.
  have henter := threadItems_ends (m := m₁) (w := w) (m.carried ops) 1 hfirst
    (by rw [hframe.env]; exact henv) fun item hitem => ⟨(hitems item hitem).1, by rw [(hitems item hitem).2]; exact nofun⟩
  rw [if_pos (List.all_eq_true.2 fun item hitem => by simpa using (hitems item hitem).2)] at henter
  obtain ⟨m₂, hm₂, -, henv₂, -, houtputs₂, hgroups₂, hsize₂⟩ := henter
  rw [bind_of_ok hm₂]
  have hrun := hbody { m₂ with stack := [] } henv₂ (houtputs₂.trans hframe.outputs)
    (hgroups₂.trans hframe.groups)
  cases r with
  | none =>
    have hx : body { m₂ with stack := [] } = .error .bundleToSocket := hrun
    rw [hx]
    exact rfl
  | some w' =>
    obtain ⟨inner, hinner, henv', hq⟩ := hrun
    rw [bind_of_ok hinner]
    have hsize : m₂.tree.nodes.size ≤ inner.tree.nodes.size := (hgrow _ _ hinner).nodes
    have hleave := threadItems_ends (m := { inner with stack := m₂.stack }) (w := w')
      (m.carried ops) 0 (Nat.lt_of_lt_of_le (hsize₂ ▸ hlast) hsize) henv'
      fun item hitem =>
        ⟨(hitems item hitem).1, hkeeps w' rfl _ (by rw [(hitems item hitem).2]; exact nofun)⟩
    rw [all_carried henv hbound hP w'] at hleave
    refine hleave.step fun w'' m₃ h => ⟨_, rfl, ?_⟩
    obtain ⟨rfl, henv₃, -, houtputs₃, hgroups₃, -⟩ := h
    exact ⟨henv₃, by simpa only [houtputs₃, hgroups₃] using hq⟩

end NodeFormula.Machine

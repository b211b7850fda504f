import NodeFormula.Proofs.Groups.Calls

/-!
# Temporary variables and node groups

A definition is lowered anew at each call, with temporary variables that are numbered on from those
before. So two calls of a group have bodies that differ in the numbers of temporary variables, and in
the bodies of the groups that are called in turn. Neither shows in the tree that is built.

`Renamed n n'` relates the names of two lowerings of one body whose numbers start at `n` and `n'`. The
ops of the two are the same up to these names (`Lower.stmts_parallel`). Runs of such ops, from machines
that are the same up to these names and to the groups that are finished, end in such machines
(`Machine.runOps_renames`). So the tree of a group is determined by its definition
(`GroupCall.Builds.unique`).
-/

namespace NodeFormula

/-! ### Names -/

theorem Lower.temporary_inj {a b : String} {k l : Nat} (ha : '#' ∉ a.toList) :
    s!"{a}#{k}" = s!"{b}#{l}" ↔ a = b ∧ k = l := by
  refine ⟨fun h => ?_, fun ⟨hab, hkl⟩ => by rw [hab, hkl]⟩
  have hkl : k = l := Decidable.byContradiction fun hne => Lower.temporary_ne ha hne h
  have hlist := congrArg String.toList h
  rw [hkl, Lower.toList_temporary, Lower.toList_temporary] at hlist
  exact ⟨String.toList_inj.1 (List.append_cancel_right hlist), hkl⟩

/-- Names in two lowerings of one body, whose temporary variables are numbered from `n` and from `n'`
on. -/
inductive Renamed (n n' : Nat) : String → String → Prop where
  | plain {x : String} : '#' ∉ x.toList → Renamed n n' x x
  | temporary {base : String} {k l : Nat} : '#' ∉ base.toList → k + n' = l + n →
      Renamed n n' s!"{base}#{k}" s!"{base}#{l}"

namespace Renamed

variable {n n' : Nat} {a b a' b' : String}

/-- Names are paired one to one: names of the formula with themselves, and temporary variables by
their numbers, which differ by the same amount. -/
theorem eq_iff (h : Renamed n n' a b) (h' : Renamed n n' a' b') : a = a' ↔ b = b' := by
  cases h with
  | plain hx =>
    cases h' with
    | plain => exact Iff.rfl
    | @temporary base k l =>
      have hne : ∀ j, a ≠ s!"{base}#{j}" := fun j heq => hx (heq ▸ Lower.mem_temporary base j)
      exact iff_of_false (hne k) (hne l)
  | @temporary base k l hbase hk =>
    cases h' with
    | plain hx =>
      have hne : ∀ j, s!"{base}#{j}" ≠ a' := fun j heq => hx (heq ▸ Lower.mem_temporary base j)
      exact iff_of_false (hne k) (hne l)
    | temporary _ hl =>
      rw [Lower.temporary_inj hbase, Lower.temporary_inj hbase]
      exact and_congr_right fun _ => by omega

end Renamed

/-! ### Ops -/

section
variable (n n' : Nat)

mutual

/-- Two ops are the same up to the names of temporary variables and the bodies of groups. -/
inductive Op.Renames : Op → Op → Prop where
  | same {op : Op} : op.Bare (fun _ => False) → Op.Renames op op
  | createVar {x : String} : '#' ∉ x.toList → Op.Renames (.createVar x) (.createVar x)
  | getVar {a b : String} : Renamed n n' a b → Op.Renames (.getVar a) (.getVar b)
  | bindVar {a b : String} : Renamed n n' a b → Op.Renames (.bindVar a) (.bindVar b)
  | destroyVar {a b : String} : Renamed n n' a b → Op.Renames (.destroyVar a) (.destroyVar b)
  | callFunction {name : String} {inputs : List String} {outputs : Nat} {body body' : List Op} :
      (∀ x ∈ inputs, '#' ∉ x.toList) → Op.AllRename body body' →
      Op.Renames (.callFunction name inputs outputs body) (.callFunction name inputs outputs body')
  | callGroup {name : String} {inputs outputs : List TypedParam} {body body' : List Op} :
      Op.Renames (.callGroup name inputs outputs body) (.callGroup name inputs outputs body')
  | zone {body body' : List Op} : Op.AllRename body body' → Op.Renames (.zone body) (.zone body')

/-- Ops are the same in order, up to the names of temporary variables and the bodies of groups. -/
inductive Op.AllRename : List Op → List Op → Prop where
  | nil : Op.AllRename [] []
  | cons {op op' : Op} {ops ops' : List Op} : Op.Renames op op' → Op.AllRename ops ops' →
      Op.AllRename (op :: ops) (op' :: ops')

end

end

namespace Op

variable {n n' : Nat}

/-- Ops in a row are the same up to names if both parts are. -/
theorem AllRename.append {a a' b b' : List Op} (ha : AllRename n n' a a')
    (hb : AllRename n n' b b') : AllRename n n' (a ++ b) (a' ++ b') := by
  induction a generalizing a' with
  | nil =>
    cases ha
    exact hb
  | cons op ops ih =>
    cases ha with
    | cons hop hops => exact .cons hop (ih hops)

/-- One op is the same up to names if it is so as a list. -/
theorem AllRename.single {op op' : Op} (h : Renames n n' op op') : AllRename n n' [op] [op'] :=
  .cons h .nil

theorem Bare.renames {op : Op} (h : op.Bare fun x => '#' ∉ x.toList) : Renames n n' op op := by
  cases op with
  | createVar => exact .createVar h
  | getVar => exact .getVar (.plain h)
  | bindVar => exact .bindVar (.plain h)
  | destroyVar => exact .destroyVar (.plain h)
  | callFunction | callGroup | zone => cases h
  | _ => exact .same trivial

theorem allRename_of_bare {ops : List Op} (h : ∀ op ∈ ops, op.Bare fun x => '#' ∉ x.toList) :
    AllRename n n' ops ops := by
  induction ops with
  | nil => exact .nil
  | cons op ops ih => exact .cons (h op (.head _)).renames (ih fun o ho => h o (.tail _ ho))

end Op

namespace Machine

variable {n n' : Nat}

mutual

/-- Ops that are the same up to temporary variables bind the same names. Temporary variables are not
collected, so a zone carries the same variables in both. -/
theorem boundNames_renames : (op : Op) → ∀ {op' : Op}, op.Renames n n' op' → ∀ seen,
    boundNames seen op' = boundNames seen op
  | .bindVar _, _, h, seen => by
    cases h with
    | same h => cases h
    | bindVar hx =>
      cases hx with
      | plain => rfl
      | temporary =>
        rw [boundNames_temporary (Lower.mem_temporary ..), boundNames_temporary (Lower.mem_temporary ..)]
  | .zone body, _, h, seen => by
    cases h with
    | same h => cases h
    | zone hbody =>
      rw [boundNames, boundNames]
      exact boundNamesAll_renames body hbody seen
  | .pushValue _, _, h, _ | .createVar _, _, h, _ | .getVar _, _, h, _ | .destroyVar _, _, h, _
  | .getOutput _, _, h, _ | .setOutput _ _, _, h, _ | .setFunctionOut _, _, h, _
  | .splitStruct, _, h, _ | .pop, _, h, _ | .callBuiltin _ _, _, h, _
  | .callFunction _ _ _ _, _, h, _ | .callGroup _ _ _ _, _, h, _ | .renameNode _, _, h, _
  | .endOfStatement, _, h, _ => by cases h <;> simp only [boundNames]

/-- Ops that are the same up to temporary variables bind the same variables. -/
theorem boundNamesAll_renames : (ops : List Op) → ∀ {ops' : List Op}, Op.AllRename n n' ops ops' →
    ∀ seen, boundNamesAll seen ops' = boundNamesAll seen ops
  | [], _, h, _ => by
    cases h
    rfl
  | op :: ops, _, h, seen => by
    cases h with
    | cons hop hops =>
      rw [boundNamesAll, boundNamesAll, boundNames_renames op hop seen]
      exact boundNamesAll_renames ops hops _

end

/-! ### Machines -/

/-- Variables stand for the same, up to their names. -/
def EnvRenames (n n' : Nat) (env env' : Table String Item) : Prop :=
  ∀ a b, Renamed n n' a b → env'.get? b = env.get? a

namespace EnvRenames

variable {env env' : Table String Item}

theorem insert (h : EnvRenames n n' env env') {x y : String} (hxy : Renamed n n' x y) (i : Item) :
    EnvRenames n n' (env.insert x i) (env'.insert y i) := by
  intro a b hab
  rw [Table.get?_insert, Table.get?_insert, h a b hab]
  simp only [hab.eq_iff hxy]

theorem erase (h : EnvRenames n n' env env') {x y : String} (hxy : Renamed n n' x y) :
    EnvRenames n n' (env.erase x) (env'.erase y) := by
  intro a b hab
  rw [Table.get?_erase, Table.get?_erase, h a b hab]
  simp only [hab.eq_iff hxy]

theorem insertAll {pairs : List (String × Item)} (h : EnvRenames n n' env env')
    (hp : ∀ p ∈ pairs, '#' ∉ p.1.toList) :
    EnvRenames n n' (env.insertAll pairs) (env'.insertAll pairs) := by
  induction pairs generalizing env env' with
  | nil => exact h
  | cons p pairs ih =>
    exact ih (h.insert (.plain (hp p (.head _))) p.2) fun q hq => hp q (.tail _ hq)

theorem ofList {pairs : List (String × Item)} (hp : ∀ p ∈ pairs, '#' ∉ p.1.toList) :
    EnvRenames n n' (Table.ofList pairs) (Table.ofList pairs) := by
  have hempty : EnvRenames n n' ∅ ∅ := fun _ _ _ => rfl
  exact hempty.insertAll hp

end EnvRenames

/-- Two machines are the same up to the names of temporary variables and the finished groups. -/
structure Renames (n n' : Nat) (m m' : Machine) : Prop where
  tree : m'.tree = m.tree
  stack : m'.stack = m.stack
  env : EnvRenames n n' m.env m'.env
  outputs : m'.outputs = m.outputs
  newest : m'.newest = m.newest

/-- Two steps that keep machines the same, where both succeed. -/
def InStep (n n' : Nat) (f f' : Machine → Except RunError Machine) : Prop :=
  ∀ m m' r r', m.Renames n n' m' → f m = .ok r → f' m' = .ok r' → r.Renames n n' r'

variable {m m' r r' : Machine}

/-- Pushing the same item keeps machines the same up to names. -/
theorem Renames.push (h : m.Renames n n' m') (i : Item) : (m.push i).Renames n n' (m'.push i) :=
  ⟨h.tree, congrArg (i :: ·) h.stack, h.env, h.outputs, h.newest⟩

theorem Renames.pushOutputs (h : m.Renames n n' m') (items : List Item) :
    (m.pushOutputs items).Renames n n' (m'.pushOutputs items) := by
  unfold Machine.pushOutputs
  split
  · exact h
  · exact h.push _

theorem Renames.withNewest (h : m.Renames n n' m') (id : Option NodeId) :
    { m with newest := id }.Renames n n' { m' with newest := id } :=
  ⟨h.tree, h.stack, h.env, h.outputs, rfl⟩

/-- A stack is split in one way only. -/
theorem args_unique {stack args args' rest rest' : List Item} (h : stack = args.reverse ++ rest)
    (h' : stack = args'.reverse ++ rest') (hlen : args.length = args'.length) :
    args = args' ∧ rest = rest' := by
  obtain ⟨hargs, hrest⟩ := List.append_inj (h.symm.trans h') (by simpa using hlen)
  exact ⟨List.reverse_inj.1 hargs, hrest⟩

theorem modifyNewest_newest {f : Node → Node} (h : m.modifyNewest f = .ok m') :
    ∃ id, m.newest = some id ∧ m' = { m with tree := m.tree.modifyNode id f } := by
  unfold modifyNewest at h
  split at h
  next id hid => exact ⟨id, hid, modifyNode_ok h⟩
  next => cases h

theorem Renames.modifyNewest (hm : m.Renames n n' m') {f : Node → Node}
    (h : m.modifyNewest f = .ok r) (h' : m'.modifyNewest f = .ok r') : r.Renames n n' r' := by
  obtain ⟨id, hid, rfl⟩ := modifyNewest_newest h
  obtain ⟨id', hid', rfl⟩ := modifyNewest_newest h'
  rw [hm.newest, hid] at hid'
  cases hid'
  exact ⟨congrArg (·.modifyNode id f) hm.tree, hm.stack, hm.env, hm.outputs, hm.newest⟩

theorem Renames.callBuiltin (hm : m.Renames n n' m') {node : NodeSpec} {types : List SocketType}
    (h : m.callBuiltin node types = .ok r) (h' : m'.callBuiltin node types = .ok r') :
    r.Renames n n' r' := by
  obtain ⟨args, rest, hs, hlen, -, rfl⟩ := callBuiltin_ok h
  obtain ⟨args', rest', hs', hlen', -, rfl⟩ := callBuiltin_ok h'
  rw [hm.stack] at hs'
  obtain ⟨rfl, rfl⟩ := args_unique hs hs' (hlen.trans hlen'.symm)
  rw [hm.tree]
  exact .withNewest (.pushOutputs (by exact ⟨rfl, rfl, hm.env, hm.outputs, hm.newest⟩) _) _

theorem Renames.createVar (hm : m.Renames n n' m') {x : String} (hx : '#' ∉ x.toList)
    (h : m.createVar x = .ok r) (h' : m'.createVar x = .ok r') : r.Renames n n' r' := by
  obtain rfl := createVar_ok h
  obtain rfl := createVar_ok h'
  rw [hm.tree]
  exact ⟨rfl, hm.stack, hm.env.insert (.plain hx) _, hm.outputs, rfl⟩

/-- A call of the same function keeps machines the same up to names, if the two bodies do. -/
theorem Renames.callFunction (hm : m.Renames n n' m') {inputs : List String} {outputs : Nat}
    {f f' : Machine → Except RunError Machine} (hinputs : ∀ x ∈ inputs, '#' ∉ x.toList)
    (hf : InStep n n' f f') (h : m.callFunction inputs outputs f = .ok r)
    (h' : m'.callFunction inputs outputs f' = .ok r') : r.Renames n n' r' := by
  obtain ⟨args, rest, inner, hs, hlen, hinner, rfl⟩ := callFunction_ok h
  obtain ⟨args', rest', inner', hs', hlen', hinner', rfl⟩ := callFunction_ok h'
  rw [hm.stack] at hs'
  obtain ⟨rfl, rfl⟩ := args_unique hs hs' (hlen.trans hlen'.symm)
  have hin : inner.Renames n n' inner' := by
    refine hf _ _ _ _ ?_ hinner hinner'
    exact ⟨hm.tree, rfl, .ofList fun p hp => hinputs _ (List.of_mem_zip hp).1, rfl, hm.newest⟩
  rw [hin.outputs]
  exact .pushOutputs (by exact ⟨hin.tree, rfl, hm.env, hm.outputs, hin.newest⟩) _

theorem Renames.callGroup (hm : m.Renames n n' m') {name : String} {inputs outputs : List TypedParam}
    {f f' : Machine → Except RunError Machine} (h : m.callGroup name inputs outputs f = .ok r)
    (h' : m'.callGroup name inputs outputs f' = .ok r') : r.Renames n n' r' := by
  obtain ⟨args, rest, groups, hs, hlen, -, rfl⟩ := callGroup_built h
  obtain ⟨args', rest', groups', hs', hlen', -, rfl⟩ := callGroup_built h'
  rw [hm.stack] at hs'
  obtain ⟨rfl, rfl⟩ := args_unique hs hs' (hlen.trans hlen'.symm)
  rw [hm.tree]
  exact .withNewest (.pushOutputs (by exact ⟨rfl, rfl, hm.env, hm.outputs, hm.newest⟩) _) _

/-! ### Zones -/

mutual

/-- The names that an op binds and that are collected are those of the formula. -/
theorem plain_of_mem_boundNames : (op : Op) → ∀ x ∈ boundNames [] op, '#' ∉ x.toList
  | .bindVar y, x, h => by
    rw [mem_boundNames_bindVar] at h
    rcases h with h | ⟨hy, rfl⟩
    · cases h
    · exact hy
  | .zone body, x, h => plain_of_mem_boundNamesAll body x h
  | .pushValue _, _, h | .createVar _, _, h | .getVar _, _, h | .destroyVar _, _, h
  | .getOutput _, _, h | .setOutput _ _, _, h | .setFunctionOut _, _, h | .splitStruct, _, h
  | .pop, _, h | .callBuiltin _ _, _, h | .callFunction _ _ _ _, _, h | .callGroup _ _ _ _, _, h
  | .renameNode _, _, h | .endOfStatement, _, h => by simp [boundNames] at h

/-- Temporary variables do not count among those that ops bind. -/
theorem plain_of_mem_boundNamesAll : (ops : List Op) → ∀ x ∈ boundNamesAll [] ops, '#' ∉ x.toList
  | [], _, h => by cases h
  | op :: ops, x, h => by
    rw [boundNamesAll, mem_boundNamesAll] at h
    exact h.elim (plain_of_mem_boundNames op x) (plain_of_mem_boundNamesAll ops x)

end

theorem plain_of_mem_carried {ops : List Op} {item : RepeatItem} (h : item ∈ m.carried ops) :
    '#' ∉ item.name.toList := by
  obtain ⟨x, hx, hitem⟩ := List.mem_filterMap.1 h
  obtain ⟨t, -, rfl⟩ := Option.map_eq_some_iff.1 hitem
  exact plain_of_mem_boundNamesAll ops x hx

/-- A zone carries the same variables with the same types in both runs. -/
theorem Renames.carried (hm : m.Renames n n' m') {ops ops' : List Op}
    (hops : Op.AllRename n n' ops ops') : m'.carried ops' = m.carried ops := by
  rw [Machine.carried, Machine.carried, boundNamesAll_renames ops hops]
  refine List.filterMap_congr fun x hx => ?_
  rw [hm.env x x (.plain (plain_of_mem_boundNamesAll ops x hx))]

/-- Environments that are the same up to names hold the same items for variables of the formula. -/
theorem EnvRenames.holds_unique {env env' : Table String Item} (h : EnvRenames n n' env env')
    {items : List RepeatItem} (hitems : ∀ item ∈ items, '#' ∉ item.name.toList)
    {currents currents' : List Item} (hc : Holds env items currents)
    (hc' : Holds env' items currents') : currents' = currents := by
  induction hc generalizing currents' with
  | nil =>
    cases hc'
    rfl
  | cons hitem _ ih =>
    cases hc' with
    | cons hitem' hrest =>
      rw [h _ _ (.plain (hitems _ (.head _))), hitem] at hitem'
      cases hitem'
      rw [ih (fun item hmem => hitems item (.tail _ hmem)) hrest]

theorem plain_of_mem_itemSockets {node : NodeId} {index : Nat} {items : List RepeatItem}
    (hitems : ∀ item ∈ items, '#' ∉ item.name.toList) :
    ∀ p ∈ itemSockets node index items, '#' ∉ p.1.toList := by
  intro p hp
  obtain ⟨q, hq, rfl⟩ := List.mem_map.1 hp
  exact hitems _ (List.fst_mem_of_mem_zipIdx hq)

/-- A repeat zone keeps machines the same up to names if its two bodies do: it carries the same
variables, so its nodes have the same sockets. -/
theorem Renames.zone (hm : m.Renames n n' m') {ops ops' : List Op}
    (hops : Op.AllRename n n' ops ops') {f f' : Machine → Except RunError Machine}
    (hf : InStep n n' f f') (h : m.zone ops f = .ok r) (h' : m'.zone ops' f' = .ok r') :
    r.Renames n n' r' := by
  obtain ⟨count, rest, currents, inner, finals, hs, hcurrents, hinner, hfinals, rfl⟩ := zone_ok h
  obtain ⟨count', rest', currents', inner', finals', hs', hcurrents', hinner', hfinals', rfl⟩ :=
    zone_ok h'
  rw [hm.stack, hs] at hs'
  cases hs'
  have hplain : ∀ item ∈ m.carried ops, '#' ∉ item.name.toList := fun _ => plain_of_mem_carried
  rw [hm.carried hops] at hcurrents' hinner' hfinals' ⊢
  rw [hm.env.holds_unique hplain hcurrents hcurrents'] at hinner'
  have hstart : (m.zoneStart (m.carried ops) count currents).Renames n n'
      (m'.zoneStart (m.carried ops) count currents) := by
    unfold zoneStart
    rw [hm.tree]
    exact ⟨rfl, rfl, hm.env.insertAll (plain_of_mem_itemSockets hplain), hm.outputs, hm.newest⟩
  have hin := hf _ _ _ _ hstart hinner hinner'
  rw [hin.env.holds_unique hplain hfinals hfinals', hm.tree]
  unfold zoneEnd
  rw [hin.tree]
  exact ⟨rfl, rfl, hin.env.insertAll (plain_of_mem_itemSockets hplain), hin.outputs, rfl⟩

/-! ### Runs -/

/-- An op without variables and bodies does the same to machines that are the same up to names, since
it looks at the stack and the tree only. -/
theorem inStep_of_bare {op : Op} (hop : op.Bare fun _ => False) : InStep n n' (runOp op) (runOp op) := by
  intro m m' r r' hm h h'
  cases op with
  | createVar | getVar | bindVar | destroyVar | callFunction | callGroup | zone => cases hop
  | pushValue v =>
    cases v <;> cases h <;> cases h' <;> exact hm.push _
  | getOutput k =>
    obtain ⟨items, rest, part, hs, hp, rfl⟩ := getOutput_ok h
    obtain ⟨items', rest', part', hs', hp', rfl⟩ := getOutput_ok h'
    rw [hm.stack, hs] at hs'
    cases hs'
    rw [hp] at hp'
    cases hp'
    exact ⟨hm.tree, rfl, hm.env, hm.outputs, hm.newest⟩
  | setOutput => exact hm.modifyNewest h h'
  | renameNode => exact hm.modifyNewest h h'
  | setFunctionOut k =>
    obtain ⟨item, rest, hs, rfl⟩ := setFunctionOut_ok h
    obtain ⟨item', rest', hs', rfl⟩ := setFunctionOut_ok h'
    rw [hm.stack, hs] at hs'
    cases hs'
    exact ⟨hm.tree, rfl, hm.env, congrArg (·.set k item) hm.outputs, hm.newest⟩
  | splitStruct =>
    obtain ⟨items, rest, hs, rfl⟩ := splitBundle_ok h
    obtain ⟨items', rest', hs', rfl⟩ := splitBundle_ok h'
    rw [hm.stack, hs] at hs'
    cases hs'
    exact ⟨hm.tree, rfl, hm.env, hm.outputs, hm.newest⟩
  | pop =>
    obtain ⟨item, rest, hs, rfl⟩ := runOp_pop_ok h
    obtain ⟨item', rest', hs', rfl⟩ := runOp_pop_ok h'
    rw [hm.stack, hs] at hs'
    cases hs'
    exact ⟨hm.tree, rfl, hm.env, hm.outputs, hm.newest⟩
  | callBuiltin => exact hm.callBuiltin h h'
  | endOfStatement =>
    cases h
    cases h'
    exact ⟨hm.tree, rfl, hm.env, hm.outputs, hm.newest⟩

mutual

/-- Ops that are the same up to names run in step, by induction on the op and its body. The names of
temporary variables are never written to a graph, so the trees are equal. -/
theorem runOp_renames : (op : Op) → ∀ {op' : Op}, op.Renames n n' op' →
    InStep n n' (runOp op) (runOp op')
  | .createVar _, _, hop, _, _, _, _, hm, h, h' => by
    cases hop with
    | same hbare => cases hbare
    | createVar hx => exact hm.createVar hx h h'
  | .getVar _, _, hop, _, _, _, _, hm, h, h' => by
    cases hop with
    | same hbare => cases hbare
    | getVar hab =>
      obtain ⟨i, hget, rfl⟩ := getVar_ok h
      obtain ⟨i', hget', rfl⟩ := getVar_ok h'
      rw [hm.env _ _ hab, hget] at hget'
      cases hget'
      exact hm.push i
  | .bindVar _, _, hop, _, _, _, _, hm, h, h' => by
    cases hop with
    | same hbare => cases hbare
    | bindVar hab =>
      obtain ⟨i, rest, hs, rfl⟩ := bindVar_ok h
      obtain ⟨i', rest', hs', rfl⟩ := bindVar_ok h'
      rw [hm.stack, hs] at hs'
      cases hs'
      exact ⟨hm.tree, rfl, hm.env.insert hab i, hm.outputs, hm.newest⟩
  | .destroyVar _, _, hop, _, _, _, _, hm, h, h' => by
    cases hop with
    | same hbare => cases hbare
    | destroyVar hab =>
      cases h
      cases h'
      exact ⟨hm.tree, hm.stack, hm.env.erase hab, hm.outputs, hm.newest⟩
  | .callFunction _ _ _ body, _, hop, _, _, _, _, hm, h, h' => by
    cases hop with
    | same hbare => cases hbare
    | callFunction hinputs hbody =>
      exact hm.callFunction hinputs (runOps_renames body hbody) h h'
  | .callGroup _ _ _ _, _, hop, _, _, _, _, hm, h, h' => by
    cases hop with
    | same hbare => cases hbare
    | callGroup => exact hm.callGroup h h'
  | .zone body, _, hop, _, _, _, _, hm, h, h' => by
    cases hop with
    | same hbare => cases hbare
    | zone hbody => exact hm.zone hbody (runOps_renames body hbody) h h'
  | .pushValue _, _, hop, _, _, _, _, hm, h, h' | .getOutput _, _, hop, _, _, _, _, hm, h, h'
  | .setOutput _ _, _, hop, _, _, _, _, hm, h, h' | .setFunctionOut _, _, hop, _, _, _, _, hm, h, h'
  | .splitStruct, _, hop, _, _, _, _, hm, h, h' | .pop, _, hop, _, _, _, _, hm, h, h'
  | .callBuiltin _ _, _, hop, _, _, _, _, hm, h, h' | .renameNode _, _, hop, _, _, _, _, hm, h, h'
  | .endOfStatement, _, hop, _, _, _, _, hm, h, h' => by
    cases hop with
    | same hbare => exact inStep_of_bare hbare _ _ _ _ hm h h'

/-- Runs of ops that are the same up to temporary variables and bodies of groups build the same
tree. -/
theorem runOps_renames : (ops : List Op) → ∀ {ops' : List Op}, Op.AllRename n n' ops ops' →
    InStep n n' (runOps ops) (runOps ops')
  | [], _, hops, _, _, _, _, hm, h, h' => by
    cases hops
    cases h
    cases h'
    exact hm
  | op :: ops, _, hops, m, m', r, r', hm, h, h' => by
    cases hops with
    | cons hop hops =>
      obtain ⟨m₁, h₁, h⟩ := runOps_cons_ok.1 h
      obtain ⟨m₁', h₁', h'⟩ := runOps_cons_ok.1 h'
      exact runOps_renames ops hops m₁ m₁' r r' (runOp_renames op hop m m' m₁ m₁' hm h₁ h₁') h h'

end

end Machine

/-! ### Lowering -/

theorem Op.AllRename.flatMap {n n' : Nat} {f g : Nat → List Op}
    (h : ∀ i, Op.AllRename n n' (f i) (g i)) (is : List Nat) :
    Op.AllRename n n' (is.flatMap f) (is.flatMap g) := by
  induction is with
  | nil => exact .nil
  | cons i is ih => exact (h i).append ih

section
variable {n n' : Nat} {tree : TreeKind} {ops ops' : List Op}

/-- Reading a component gives the same ops up to the variable that is read from. -/
theorem Component.renames_readOps {k : Component} {a b : String} (hab : Renamed n n' a b)
    (h : k.readOps tree a = .ok ops) (h' : k.readOps tree b = .ok ops') :
    Op.AllRename n n' ops ops' := by
  unfold readOps at h h'
  cases hsplit : tree.separate k.object with
  | none =>
    rw [hsplit] at h
    cases h
  | some split =>
    rw [hsplit] at h h'
    cases h
    cases h'
    exact .cons (.getVar hab) (.cons (.same trivial) (.single (.same trivial)))

/-- Writing a component gives the same ops up to the variables that hold the object and the value. -/
theorem Component.renames_writeOps {k : Component} {x object object' value value' : String}
    (hx : '#' ∉ x.toList) (ho : Renamed n n' object object') (hv : Renamed n n' value value')
    (h : k.writeOps tree x object value = .ok ops) (h' : k.writeOps tree x object' value' = .ok ops') :
    Op.AllRename n n' ops ops' := by
  unfold writeOps at h h'
  cases hsplit : tree.separate k.object with
  | none =>
    rw [hsplit] at h
    cases h
  | some split =>
    cases hjoin : tree.combine k.object with
    | none =>
      rw [hsplit, hjoin] at h
      cases h
    | some join =>
      rw [hsplit, hjoin] at h h'
      cases h
      cases h'
      have hstart : Op.AllRename n n' [.getVar object, split.op, .bindVar object]
          [.getVar object', split.op, .bindVar object'] :=
        .cons (.getVar ho) (.cons (.same trivial) (.single (.bindVar ho)))
      have hend : Op.AllRename n n' [join.op, .bindVar x] [join.op, .bindVar x] :=
        .cons (.same trivial) (.single (.bindVar (.plain hx)))
      refine (hstart.append (.flatMap (fun i => ?_) _)).append hend
      split
      · exact .single (.getVar hv)
      · exact .cons (.getVar ho) (.single (.same trivial))

end

namespace Lower

variable {α β γ δ : Type} {n n' : Nat} {R : α → β → Prop} {R' : γ → δ → Prop}

/-- Two steps of lowering with counters as far apart as `n` and `n'` keep them so where both succeed,
and give results that are related. -/
structure Parallel (n n' : Nat) (R : α → β → Prop) (x : Lower α) (y : Lower β) : Prop where
  run : ∀ {k k' l l' : Nat} {a : α} {b : β}, k + n' = k' + n → x k = .ok (a, l) →
    y k' = .ok (b, l') → R a b ∧ l + n' = l' + n

namespace Parallel

theorem pure {a : α} {b : β} (h : R a b) : Parallel n n' R (Pure.pure a) (Pure.pure b) :=
  ⟨fun hk hx hy => by
    cases hx
    cases hy
    exact ⟨h, hk⟩⟩

/-- Two lowerings in a row are in parallel if each is: both take the same number of temporary
variables. -/
theorem bind {x : Lower α} {y : Lower β} {f : α → Lower γ} {g : β → Lower δ}
    (hxy : Parallel n n' R x y) (hfg : ∀ a b, R a b → Parallel n n' R' (f a) (g b)) :
    Parallel n n' R' (x >>= f) (y >>= g) := by
  refine ⟨fun hk hx hy => ?_⟩
  obtain ⟨a, l, ha, hf⟩ := bind_ok_iff.1 hx
  obtain ⟨b, l', hb, hg⟩ := bind_ok_iff.1 hy
  obtain ⟨hab, hl⟩ := hxy.run hk ha hb
  exact (hfg a b hab).run hl hf hg

/-- A step that takes no number is in parallel with itself. -/
theorem lift {x : Except LoweringError α} {y : Except LoweringError β}
    (h : ∀ a b, x = .ok a → y = .ok b → R a b) : Parallel n n' R (liftM x) (liftM y) := by
  refine ⟨fun hk hx hy => ?_⟩
  obtain ⟨ha, rfl⟩ := lift_ok_iff.1 hx
  obtain ⟨hb, rfl⟩ := lift_ok_iff.1 hy
  exact ⟨h _ _ ha hb, hk⟩

/-- Ops that name no temporary variable are the same. -/
theorem lift_bare {x : Except LoweringError (List Op)}
    (h : ∀ ops, x = .ok ops → ∀ op ∈ ops, op.Bare fun x => '#' ∉ x.toList) :
    Parallel n n' (Op.AllRename n n') (liftM x) (liftM x) := by
  refine .lift fun a b ha hb => ?_
  cases ha.symm.trans hb
  exact Op.allRename_of_bare (h a ha)

theorem temporary {base : String} (hbase : '#' ∉ base.toList) :
    Parallel n n' (Renamed n n') (Lower.temporary base) (Lower.temporary base) := by
  refine ⟨fun hk hx hy => ?_⟩
  cases hx
  cases hy
  exact ⟨.temporary hbase hk, by omega⟩

end Parallel

theorem renames_firstOutput {e : TypedExpr} {ops ops' : List Op} (h : Op.AllRename n n' ops ops') :
    Op.AllRename n n' (firstOutput e ops) (firstOutput e ops') := by
  unfold firstOutput
  split
  · exact h.append (.single (.same trivial))
  · exact h

variable {tree : TreeKind} {Q : TypedFunction → Prop}

mutual

/-- An expression without temporary variables of its own is lowered to ops that are the same up to
names, by induction on the expression. -/
theorem expr_parallel : (e : TypedExpr) → e.Uses (fun x => '#' ∉ x.toList) Q →
    Parallel n n' (Op.AllRename n n') (expr tree e) (expr tree e)
  | .constant _ _, _ => by
    rw [expr]
    exact .pure (.single (.same trivial))
  | .var _ fresh _, hx => by
    rw [expr]
    refine .pure ?_
    split
    · exact .cons (.createVar hx) (.single (.getVar (.plain hx)))
    · exact .single (.getVar (.plain hx))
  | .node _ args _, hu => by
    rw [expr]
    refine (args_parallel args hu).bind fun pushed pushed' hpushed => .pure ?_
    refine (hpushed.append (Op.allRename_of_bare fun op hop => ?_)).append (.single (.same trivial))
    cases List.eq_of_mem_replicate hop
    trivial
  | .call ⟨name, kind, inputs, outputs, body⟩ args _, ⟨hargs, _, hinputs, hbody⟩ => by
    rw [expr]
    refine (args_parallel args hargs).bind fun pushed pushed' hpushed => ?_
    refine (Parallel.lift_bare fun _ h => bare_pushDefaults h).bind fun defaults defaults' hdefaults => ?_
    refine (stmts_parallel _ body hbody).bind fun inner inner' hinner => .pure ?_
    refine (hpushed.append hdefaults).append (.single ?_)
    cases kind with
    | group => exact .callGroup
    | function =>
      refine .callFunction (fun x hx => ?_) hinner
      obtain ⟨p, hp, rfl⟩ := List.mem_map.1 hx
      exact hinputs p hp
  | .output e _ _, hu => by
    rw [expr]
    exact (expr_parallel e hu).bind fun ops ops' hops => .pure (hops.append (.single (.same trivial)))
  | .component e part _, hu => by
    rw [expr]
    refine (expr_parallel e hu).bind fun ops ops' hops => ?_
    refine (Parallel.temporary (by decide)).bind fun temp temp' htemp => ?_
    refine (Parallel.lift fun _ _ => part.renames_readOps htemp).bind fun reading reading' hreading => ?_
    exact .pure (((renames_firstOutput hops).append (.cons (.bindVar htemp) hreading)).append
      (.single (.destroyVar htemp)))

theorem args_parallel : (es : List TypedExpr) → TypedExpr.AllUse (fun x => '#' ∉ x.toList) Q es →
    Parallel n n' (Op.AllRename n n') (args tree es) (args tree es)
  | [], _ => by
    rw [args]
    exact .pure .nil
  | e :: es, ⟨he, hes⟩ => by
    rw [args]
    refine (expr_parallel e he).bind fun first first' hfirst => ?_
    refine (args_parallel es hes).bind fun others others' hothers => ?_
    exact .pure ((renames_firstOutput hfirst).append hothers)

/-- A statement is lowered to ops that are the same up to names, whichever numbers its temporary
variables start from. The induction is on the statement. -/
theorem stmt_parallel (outputs : List String) : (s : TypedStmt) →
    s.Uses (fun x => '#' ∉ x.toList) Q →
    Parallel n n' (Op.AllRename n n') (stmt tree outputs s) (stmt tree outputs s)
  | .expr e, hu => by
    rw [stmt]
    exact (expr_parallel e hu).bind fun ops ops' hops => .pure (hops.append (.single (.same trivial)))
  | .assign targets e, ⟨htargets, he⟩ => by
    cases hc : e.constant? with
    | some v =>
      simp only [stmt, hc]
      refine (Parallel.lift_bare fun _ h => bare_assignConstant htargets h).bind fun ops ops' hops => ?_
      exact .pure (hops.append (.single (.same trivial)))
    | none =>
      simp only [stmt, hc]
      refine (expr_parallel e he).bind fun ops ops' hops => ?_
      refine (Parallel.lift_bare fun _ h => bare_storeAll htargets h).bind fun storing storing' hstoring => ?_
      exact .pure ((hops.append hstoring).append (.single (.same trivial)))
  | .setField x object part value, ⟨hx, hobject, hvalue⟩ => by
    rw [stmt]
    refine (expr_parallel value hvalue).bind fun valueOps valueOps' hvalueOps => ?_
    refine (Parallel.temporary (by decide)).bind fun valueTemp valueTemp' hvalueTemp => ?_
    refine (expr_parallel object hobject).bind fun objectOps objectOps' hobjectOps => ?_
    refine (Parallel.temporary hx).bind fun objectTemp objectTemp' hobjectTemp => ?_
    refine (Parallel.lift fun _ _ => part.renames_writeOps hx hobjectTemp hvalueTemp).bind
      fun writing writing' hwriting => .pure ?_
    refine ((((renames_firstOutput hvalueOps).append (.cons (.bindVar hvalueTemp) hobjectOps)).append
      (.cons (.bindVar hobjectTemp) hwriting))).append ?_
    exact .cons (.destroyVar hvalueTemp) (.cons (.destroyVar hobjectTemp) (.single (.same trivial)))
  | .zone count body, ⟨hcount, hbody⟩ => by
    rw [stmt]
    refine (stmts_parallel outputs body hbody).bind fun inner inner' hinner => ?_
    refine (expr_parallel count hcount).bind fun ops ops' hops => .pure ?_
    exact (renames_firstOutput hops).append (.cons (.zone hinner) (.single (.same trivial)))

/-- Two lowerings of statements give the same ops, up to temporary variables and bodies of groups. -/
theorem stmts_parallel (outputs : List String) : (ss : List TypedStmt) →
    TypedStmt.AllUse (fun x => '#' ∉ x.toList) Q ss →
    Parallel n n' (Op.AllRename n n') (stmts tree outputs ss) (stmts tree outputs ss)
  | [], _ => by
    rw [stmts]
    exact .pure .nil
  | s :: ss, ⟨hs, hss⟩ => by
    rw [stmts]
    refine (stmt_parallel outputs s hs).bind fun first first' hfirst => ?_
    exact (stmts_parallel outputs ss hss).bind fun others others' hothers =>
      .pure (hfirst.append hothers)

end

end Lower

/-! ### Groups -/

/-- The tree of a group is determined by its definition: two calls of one definition build the same
tree, whatever the temporary variables are numbered from and whatever groups are finished. -/
theorem GroupCall.Builds.unique {tree kind : TreeKind} {Q : TypedFunction → Prop} {f : TypedFunction}
    {c c' : GroupCall} {t t' : NodeTree} (hinputs : ∀ p ∈ f.inputs, '#' ∉ p.name.toList)
    (huses : TypedStmt.AllUse (fun x => '#' ∉ x.toList) Q f.body) (hc : c.Lowers tree f)
    (hc' : c'.Lowers tree f) (h : c.Builds kind t) (h' : c'.Builds kind t') : t = t' := by
  obtain ⟨hname, hin, hout, n, l, hbody⟩ := hc
  obtain ⟨hname', hin', hout', n', l', hbody'⟩ := hc'
  obtain ⟨m, inner, hkind, hrun, rfl⟩ := h
  obtain ⟨m', inner', hkind', hrun', rfl⟩ := h'
  have hops : Op.AllRename n n' c.body c'.body :=
    ((Lower.stmts_parallel _ f.body huses).run (Nat.add_comm n n') hbody hbody').1
  have hstart : (m.groupStart c.name c.inputs c.outputs).Renames n n'
      (m'.groupStart c'.name c'.inputs c'.outputs) := by
    unfold Machine.groupStart
    rw [hname, hname', hin, hin', hout, hout', hkind, hkind']
    refine ⟨rfl, rfl, .ofList fun p hp => ?_, rfl, rfl⟩
    obtain ⟨i, hi, rfl⟩ := List.mem_mapIdx.1 hp
    exact hinputs _ (List.getElem_mem hi)
  have hend := Machine.runOps_renames c.body hops _ _ _ _ hstart hrun hrun'
  rw [Machine.groupEnd, Machine.groupEnd, hend.tree, hend.outputs]

end NodeFormula

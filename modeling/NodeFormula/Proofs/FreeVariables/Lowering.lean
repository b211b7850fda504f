import NodeFormula.Proofs.Balance.Steps
import NodeFormula.Proofs.FreeVariables.Checking

/-!
# Free variables in ops

What the ops of a well-typed formula do to variables. `Op.Lowered` says what these ops look like, as far
as variables and the nodes for them go: variables are created outside all bodies only, a node of the
catalog is no node for a variable, and only a node that has just been added is labelled. The ops of a
statement are of this form, and access variables as the statement does (`StmtTyped.lowered`). Temporary
variables come in between; their names hold a `#`, and they are not created.

So where no variable of a formula is created after another access, none is in its ops
(`Op.Lowered.unused_before_create`), and none is created twice (`Op.Lowered.nodup_allCreations`).
-/

namespace NodeFormula

/-! ### Accesses and creations of ops -/

mutual

/-- The accesses of an op in its own scope, which bodies of zones are part of and bodies of definitions
are not. -/
def Op.accesses : Op → List Access
  | .createVar x => [.create x]
  | .getVar x => [.use x]
  | .bindVar x => [.use x]
  | .zone body => Op.allAccesses body
  | _ => []

/-- The accesses of ops in their own scope. -/
def Op.allAccesses : List Op → List Access
  | [] => []
  | op :: ops => op.accesses ++ Op.allAccesses ops

end

mutual

/-- The variables that an op creates, with those that are created in its body. -/
def Op.creations : Op → List String
  | .createVar x => [x]
  | .callFunction _ _ _ body => Op.allCreations body
  | .callGroup _ _ _ body => Op.allCreations body
  | .zone body => Op.allCreations body
  | _ => []

/-- The variables that ops create, with those that are created in bodies. -/
def Op.allCreations : List Op → List String
  | [] => []
  | op :: ops => op.creations ++ Op.allCreations ops

end

namespace Op

theorem allAccesses_append (a b : List Op) : allAccesses (a ++ b) = allAccesses a ++ allAccesses b := by
  induction a with
  | nil => rfl
  | cons op ops ih => rw [List.cons_append, allAccesses, allAccesses, ih, List.append_assoc]

theorem allAccesses_eq_nil {ops : List Op} (h : ∀ op ∈ ops, op.accesses = []) :
    allAccesses ops = [] := by
  induction ops with
  | nil => rfl
  | cons op ops ih =>
    obtain ⟨hop, hops⟩ := List.forall_mem_cons.1 h
    rw [allAccesses, hop, ih hops]
    rfl

theorem allCreations_append (a b : List Op) :
    allCreations (a ++ b) = allCreations a ++ allCreations b := by
  induction a with
  | nil => rfl
  | cons op ops ih => rw [List.cons_append, allCreations, allCreations, ih, List.append_assoc]

theorem mem_allCreations {ops : List Op} {x : String} :
    x ∈ allCreations ops ↔ ∃ op ∈ ops, x ∈ op.creations := by
  induction ops with
  | nil => simp [allCreations]
  | cons op ops ih => simp [allCreations, ih]

theorem allCreations_eq_nil {ops : List Op} (h : ∀ op ∈ ops, op.creations = []) :
    allCreations ops = [] := by
  refine List.eq_nil_iff_forall_not_mem.2 fun x hx => ?_
  obtain ⟨op, hop, hx⟩ := mem_allCreations.1 hx
  rw [h op hop] at hx
  exact List.not_mem_nil hx

/-! ### The form of lowered ops -/

/-- An op that only moves values on the stack or drops a temporary variable. -/
def Idle : Op → Prop
  | .pushValue _ | .destroyVar _ | .getOutput _ | .setFunctionOut _ | .splitStruct | .pop
  | .endOfStatement => True
  | _ => False

/-- Ops of the form that formulas are lowered to, with their accesses to variables of the formula. Where
free variables are not allowed none is created. -/
inductive Lowered : Bool → List Access → List Op → Prop where
  | nil {free : Bool} : Lowered free [] []
  | append {free : Bool} {as bs : List Access} {a b : List Op} :
      Lowered free as a → Lowered free bs b → Lowered free (as ++ bs) (a ++ b)
  | idle {free : Bool} {op : Op} : op.Idle → Lowered free [] [op]
  | read {free : Bool} (x : String) : Lowered free [.use x] [.getVar x]
  | bind {free : Bool} (x : String) : Lowered free [.use x] [.bindVar x]
  | readTemporary {free : Bool} {x : String} : '#' ∈ x.toList → Lowered free [] [.getVar x]
  | bindTemporary {free : Bool} {x : String} : '#' ∈ x.toList → Lowered free [] [.bindVar x]
  | create {x : String} : '#' ∉ x.toList → Lowered true [.create x] [.createVar x]
  /-- A node that may be labelled at once. -/
  | node {free : Bool} {spec : NodeSpec} {types : List SocketType} {marks : List Op} :
      spec.key ≠ "NodeReroute" → (∀ op ∈ marks, Machine.Marks op) →
      Lowered free [] (.callBuiltin spec types :: marks)
  | function {free : Bool} {name : String} {inputs : List String} {outputs : Nat}
      {as : List Access} {body : List Op} :
      Lowered false as body → Lowered free [] [.callFunction name inputs outputs body]
  | group {free : Bool} {name : String} {inputs outputs : List TypedParam} {as : List Access}
      {body : List Op} : Lowered false as body → Lowered free [] [.callGroup name inputs outputs body]
  | zone {free : Bool} {as : List Access} {body : List Op} :
      Lowered false as body → Lowered free as [.zone body]

namespace Lowered

variable {free : Bool} {as bs : List Access} {a b ops : List Op}

/-- Ops without accesses of their own, before or behind others. -/
theorem append_right (ha : Lowered free as a) (hb : Lowered free [] b) : Lowered free as (a ++ b) := by
  simpa using ha.append hb

theorem append_left (ha : Lowered free [] a) (hb : Lowered free bs b) : Lowered free bs (a ++ b) :=
  ha.append hb

/-- One op without accesses may be put in front of others. -/
theorem cons {op : Op} (hop : Lowered free [] [op]) (h : Lowered free as ops) :
    Lowered free as (op :: ops) :=
  append_left hop h

theorem idles (h : ∀ op ∈ ops, op.Idle) : Lowered free [] ops := by
  induction ops with
  | nil => exact .nil
  | cons op ops ih =>
    obtain ⟨hop, hops⟩ := List.forall_mem_cons.1 h
    exact .cons (.idle hop) (ih hops)

/-- A node of the catalog. -/
theorem call {spec : NodeSpec} {types : List SocketType} (h : spec.key ≠ "NodeReroute") :
    Lowered free [] [.callBuiltin spec types] :=
  .node h (List.forall_mem_nil _)

end Lowered

/-! ### Accesses of lowered ops -/

theorem Idle.accesses_creations_eq_nil {op : Op} (h : op.Idle) :
    op.accesses = [] ∧ op.creations = [] := by
  cases op with
  | pushValue | destroyVar | getOutput | setFunctionOut | splitStruct | pop | endOfStatement =>
    exact ⟨rfl, rfl⟩
  | createVar | getVar | bindVar | setOutput | callBuiltin | callFunction | callGroup | renameNode
  | zone => exact h.elim

theorem accesses_creations_of_marks {op : Op} (h : Machine.Marks op) :
    op.accesses = [] ∧ op.creations = [] := by
  cases h with
  | setOutput | renameNode => exact ⟨rfl, rfl⟩

/-- An op that creates nothing in a body. Where free variables are allowed it may create one itself,
which is no temporary variable. -/
def CreatesOutside (free : Bool) (op : Op) : Prop :=
  (free = true ∧ ∃ x, '#' ∉ x.toList ∧ op = .createVar x) ∨ op.creations = []

theorem allCreations_of_closed {ops : List Op} (h : ∀ op ∈ ops, CreatesOutside false op) :
    allCreations ops = [] :=
  allCreations_eq_nil fun op hop => (h op hop).resolve_left fun hfree => Bool.false_ne_true hfree.1

namespace Lowered

variable {free : Bool} {as : List Access} {ops : List Op}

/-- In ops of this form variables are created outside all bodies, and only where the setting allows
it. -/
theorem createsOutside (h : Lowered free as ops) : ∀ op ∈ ops, CreatesOutside free op := by
  induction h with
  | nil => exact List.forall_mem_nil _
  | append _ _ iha ihb => exact List.forall_mem_append.2 ⟨iha, ihb⟩
  | idle hop => exact List.forall_mem_singleton.2 (.inr hop.accesses_creations_eq_nil.2)
  | read | bind | readTemporary | bindTemporary => exact List.forall_mem_singleton.2 (.inr rfl)
  | create hx => exact List.forall_mem_singleton.2 (.inl ⟨rfl, _, hx, rfl⟩)
  | node _ hmarks =>
    exact List.forall_mem_cons.2
      ⟨.inr rfl, fun op hop => .inr (accesses_creations_of_marks (hmarks op hop)).2⟩
  | function _ ih | group _ ih | zone _ ih =>
    exact List.forall_mem_singleton.2 (.inr (allCreations_of_closed ih))

/-- In a body nothing is created. -/
theorem allCreations_eq_nil (h : Lowered false as ops) : allCreations ops = [] :=
  allCreations_of_closed h.createsOutside

/-- The accesses to variables of the formula are among those of the statements, in their order. -/
theorem accesses_sublist (h : Lowered free as ops) :
    ((allAccesses ops).filter fun a => '#' ∉ a.name.toList).Sublist as := by
  induction h with
  | nil => exact .slnil
  | append _ _ iha ihb =>
    rw [allAccesses_append, List.filter_append]
    exact iha.append ihb
  | idle hop => simp [allAccesses, hop.accesses_creations_eq_nil.1]
  | read | bind | create => exact List.filter_sublist
  | readTemporary hx | bindTemporary hx => simp [allAccesses, Op.accesses, Access.name, hx]
  | node _ hmarks =>
    simp [allAccesses, Op.accesses,
      allAccesses_eq_nil fun op hop => (accesses_creations_of_marks (hmarks op hop)).1]
  | function | group => exact .slnil
  | zone _ ih => simpa [allAccesses, Op.accesses] using ih

/-- Where accesses are in order in the statements, they are so in the ops. A temporary variable is never
created, so it does not matter where it is used. -/
theorem unused_before_create (h : Lowered free as ops) (has : as.Pairwise Access.MayPrecede)
    {pre post : List Op} {x : String} (hops : ops = pre ++ .createVar x :: post) :
    ∀ a ∈ allAccesses pre, a.name ≠ x := by
  rintro a ha rfl
  have hplain : '#' ∉ a.name.toList := by
    obtain ⟨-, x, hx, heq⟩ | hnil := h.createsOutside (.createVar a.name) (by simp [hops])
    · cases heq
      exact hx
    · cases hnil
  have hsorted := has.sublist h.accesses_sublist
  rw [hops, allAccesses_append, List.filter_append] at hsorted
  have hcreate : Access.create a.name ∈
      (allAccesses (.createVar a.name :: post)).filter fun a => '#' ∉ a.name.toList :=
    List.mem_filter.2 ⟨.head _, decide_eq_true hplain⟩
  have hbefore : a ∈ (allAccesses pre).filter fun a => '#' ∉ a.name.toList :=
    List.mem_filter.2 ⟨ha, decide_eq_true hplain⟩
  exact (List.pairwise_append.1 hsorted).2.2 a hbefore _ hcreate rfl

/-- The variables that ops of this form create are created by the statement that they come from, in
its order. -/
theorem creations_sublist (h : Lowered free as ops) :
    ((allCreations ops).map Access.create).Sublist as := by
  induction h with
  | nil => exact .slnil
  | append _ _ iha ihb =>
    rw [allCreations_append, List.map_append]
    exact iha.append ihb
  | idle hop => simp [allCreations, hop.accesses_creations_eq_nil.2]
  | read | bind | readTemporary | bindTemporary | create => simp [allCreations, Op.creations]
  | node _ hmarks =>
    simp [allCreations, Op.creations,
      Op.allCreations_eq_nil fun op hop => (accesses_creations_of_marks (hmarks op hop)).2]
  | function h | group h | zone h => simp [allCreations, Op.creations, h.allCreations_eq_nil]

/-- What is created is created once. -/
theorem nodup_allCreations (h : Lowered free as ops) (has : as.Pairwise Access.MayPrecede) :
    (allCreations ops).Nodup := by
  refine List.Pairwise.imp (fun hxy heq => ?_) (List.pairwise_map.1 (has.sublist h.creations_sublist))
  exact hxy (by rw [heq]; rfl)

end Lowered

end Op

/-! ### Parts of statements -/

/-- No function of the catalog is a node for a variable. -/
theorem TreeKind.key_ne_reroute (tree : TreeKind) :
    ∀ e ∈ tree.catalog, e.2.node.key ≠ "NodeReroute" := by
  cases tree <;> decide +kernel

section
variable {free : Bool} {tree : TreeKind} {type : SocketType} {o : Overload} {ops : List Op}

theorem TreeKind.lowered_combine (h : tree.combine type = some o) : Op.Lowered free [] [o.op] := by
  obtain ⟨name, ho⟩ := mem_overloads_of_combine h
  exact .call (tree.key_ne_reroute _ (mem_catalog_of_mem_overloads ho))

theorem TreeKind.lowered_separate (h : tree.separate type = some o) : Op.Lowered free [] [o.op] := by
  have key : ∀ t ∈ SocketType.all, ∀ o ∈ tree.separate t, o.node.key ≠ "NodeReroute" := by
    cases tree <;> decide +kernel
  exact .call (key type (SocketType.mem_all type) o h)

theorem TreeKind.lowered_constantInput {name : String} {v : Constant}
    (h : tree.constantInput name v = .ok ops) : Op.Lowered free [] ops := by
  obtain ⟨values, node, type, marks, -, -, hkey, hmarks, rfl⟩ := Machine.constantInput_shape h
  refine .append_left (.idles fun op hop => ?_) (.node hkey hmarks)
  obtain ⟨v, -, rfl⟩ := List.mem_map.1 hop
  trivial

/-- A component of a temporary variable is read. -/
theorem Component.lowered_readOps {k : Component} {temp : String} (htemp : '#' ∈ temp.toList)
    (h : k.readOps tree temp = .ok ops) : Op.Lowered free [] ops := by
  unfold readOps at h
  split at h
  next o ho =>
    cases h
    exact .cons (.readTemporary htemp) (.append_right (TreeKind.lowered_separate ho) (.idle trivial))
  next => cases h

/-- A component is replaced by way of temporary variables. Of the formula's variables only the target
is bound, once, however many components are pushed on the way. -/
theorem Component.lowered_writeOps {k : Component} {target object value : String}
    (hobject : '#' ∈ object.toList) (hvalue : '#' ∈ value.toList)
    (h : k.writeOps tree target object value = .ok ops) : Op.Lowered free [.use target] ops := by
  unfold writeOps at h
  split at h
  next => cases h
  next => cases h
  next split join hsplit hjoin =>
    cases h
    have hparts : ∀ indices : List Nat, Op.Lowered free [] (indices.flatMap fun i =>
        if i = k.index then [Op.getVar value] else [.getVar object, .getOutput i]) := by
      intro indices
      induction indices with
      | nil => exact .nil
      | cons i indices ih =>
        rw [List.flatMap_cons]
        refine .append_left ?_ ih
        by_cases hi : i = k.index
        · rw [if_pos hi]
          exact .readTemporary hvalue
        · rw [if_neg hi]
          exact .cons (.readTemporary hobject) (.idle trivial)
    have hread : Op.Lowered free [] [.getVar object, split.op, .bindVar object] :=
      .cons (.readTemporary hobject) (.append_right (TreeKind.lowered_separate hsplit)
        (.bindTemporary hobject))
    have hjoined : Op.Lowered free [.use target] [join.op, .bindVar target] :=
      .append_left (TreeKind.lowered_combine hjoin) (.bind target)
    exact .append_left (.append_right hread (hparts _)) hjoined

namespace Lower

theorem lowered_firstOutput {e : TypedExpr} {as : List Access} (h : Op.Lowered free as ops) :
    Op.Lowered free as (firstOutput e ops) := by
  unfold firstOutput
  cases e.shape with
  | bundle => exact h.append_right (.idle trivial)
  | single => exact h

theorem lowered_store (t : TypedTarget) : Op.Lowered free t.accesses [store t] := by
  cases t with
  | var x => exact .bind x
  | output i => exact .idle trivial
  | ignore => exact .idle trivial

theorem lowered_stores (targets : List TypedTarget) :
    Op.Lowered free (targets.flatMap TypedTarget.accesses) (targets.map store) := by
  induction targets with
  | nil => exact .nil
  | cons t targets ih =>
    rw [List.flatMap_cons]
    exact (lowered_store t).append ih

/-- Storing the parts of a value accesses the targets from the last to the first, because the last
part is on top of the stack. -/
theorem lowered_storeAll {e : TypedExpr} {targets : List TypedTarget}
    (h : storeAll tree e targets = .ok ops) :
    Op.Lowered free (targets.reverse.flatMap TypedTarget.accesses) ops := by
  have hunpack : ∀ parts : Nat, Op.Lowered free (targets.reverse.flatMap TypedTarget.accesses)
      (.splitStruct :: List.replicate (parts - targets.length) .pop ++ targets.reverse.map store) := by
    intro parts
    refine .append_left (.cons (.idle trivial) (.idles fun op hop => ?_)) (lowered_stores _)
    rw [List.eq_of_mem_replicate hop]
    trivial
  unfold storeAll at h
  split at h
  next =>
    cases h
    exact .nil
  next i =>
    cases h
    exact .append_left (lowered_firstOutput .nil) (.idle trivial)
  next t _ =>
    cases h
    have hstore : Op.Lowered free t.accesses [store t] := lowered_store t
    simpa using hstore
  next =>
    simp only at h
    split at h
    next =>
      cases h
      exact hunpack _
    next =>
      split at h
      next => cases h
      next type _ =>
        split at h
        next => cases h
        next o ho =>
          cases h
          exact .cons (TreeKind.lowered_separate ho) (hunpack _)

/-- Assigning a constant accesses the targets, from the last to the first. -/
theorem lowered_assignConstant {outputs : List String} {targets : List TypedTarget} {v : Constant}
    (h : assignConstant tree outputs targets v = .ok ops) :
    Op.Lowered free (targets.reverse.flatMap TypedTarget.accesses) ops := by
  unfold assignConstant at h
  split at h
  next x =>
    obtain ⟨input, hinput, h⟩ := Machine.run_bind_ok.1 h
    cases h
    exact .append_left (TreeKind.lowered_constantInput hinput) (.bind x)
  next i =>
    split at h
    next => cases h
    next n _ =>
      obtain ⟨input, hinput, h⟩ := Machine.run_bind_ok.1 h
      cases h
      exact .append_left (TreeKind.lowered_constantInput hinput) (.idle trivial)
  next =>
    cases h
    exact .nil
  next => cases h

end Lower

end

/-! ### Well-typed formulas -/

mutual

/-- The ops of a well-typed expression access variables as the expression does, by induction on the
expression. The bodies of functions that it calls access variables of their own. -/
theorem ExprTyped.lowered : (e : TypedExpr) → ∀ {S : Setting} {Γ Γ' : TypeEnv} {n n' : Nat}
    {ops : List Op}, S.Runnable → ExprTyped S Γ e Γ' → Lower.expr S.tree e n = .ok (ops, n') →
    Op.Lowered S.free e.accesses ops
  | .constant .., _, _, _, _, _, _, _, _, hops => by
    cases hops
    exact .idle trivial
  | .var x fresh _, S, _, _, _, _, _, hS, h, hops => by
    cases h with
    | var =>
      cases hops
      exact .read x
    | free hfree hx =>
      cases hops
      rw [hfree]
      exact .append (.create (hS.plain x hx)) (.read x)
  | .node _ args _, S, _, _, _, _, _, hS, h, hops => by
    rw [Lower.expr] at hops
    obtain ⟨pushed, n₁, hpushed, hops⟩ := Lower.bind_ok_iff.1 hops
    cases hops
    cases h with
    | node hmem ha =>
      refine .append_right (.append_right (ArgsTyped.lowered args hS ha hpushed) (.idles ?_))
        (.call (S.tree.key_ne_reroute _ hmem))
      intro op hop
      rw [List.eq_of_mem_replicate hop]
      trivial
  | .call ⟨name, kind, inputs, outputs, body⟩ args _, S, _, _, _, _, _, hS, h, hops => by
    rw [Lower.expr] at hops
    obtain ⟨pushed, n₁, hpushed, hops⟩ := Lower.bind_ok_iff.1 hops
    obtain ⟨defaults, n₂, hdefaults, hops⟩ := Lower.bind_ok_iff.1 hops
    obtain ⟨inner, n₃, hinner, hops⟩ := Lower.bind_ok_iff.1 hops
    cases hops
    obtain ⟨hdefaults, rfl⟩ := Lower.lift_ok_iff.1 hdefaults
    cases h with
    | call _ hfun ha hfeeds =>
      rw [Lower.pushDefaults_ok (by simpa using hfeeds.length_le)] at hdefaults
      cases hdefaults
      cases hfun with
      | mk _ _ hbody =>
        have hS' : (S.body ⟨name, kind, inputs, outputs, body⟩).Runnable := ⟨hS.plain, hS.unique⟩
        have hlowered : Op.Lowered false (TypedStmt.allAccesses body) inner :=
          BlockTyped.lowered body hS' hbody hinner
        refine .append_right (.append_right (ArgsTyped.lowered args hS ha hpushed) (.idles ?_)) ?_
        · intro op hop
          obtain ⟨p, -, rfl⟩ := List.mem_map.1 hop
          trivial
        · cases kind with
          | function => exact .function hlowered
          | group => exact .group hlowered
  | .output e _ _, _, _, _, _, _, _, hS, h, hops => by
    rw [Lower.expr] at hops
    obtain ⟨inner, n₁, hinner, hops⟩ := Lower.bind_ok_iff.1 hops
    cases hops
    cases h with
    | output he => exact .append_right (ExprTyped.lowered e hS he hinner) (.idle trivial)
  | .component e _ _, _, _, _, _, _, _, hS, h, hops => by
    rw [Lower.expr] at hops
    obtain ⟨inner, n₁, hinner, hops⟩ := Lower.bind_ok_iff.1 hops
    obtain ⟨temp, n₂, htemp, hops⟩ := Lower.bind_ok_iff.1 hops
    cases htemp
    obtain ⟨reading, n₃, hreading, hops⟩ := Lower.bind_ok_iff.1 hops
    cases hops
    obtain ⟨hreading, -⟩ := Lower.lift_ok_iff.1 hreading
    have htemp := Lower.mem_temporary "field" n₁
    cases h with
    | component he =>
      have hvalue := Lower.lowered_firstOutput (e := e) (ExprTyped.lowered e hS he hinner)
      exact .append_right (.append_right hvalue
        (.cons (.bindTemporary htemp) (Component.lowered_readOps htemp hreading))) (.idle trivial)

/-- The ops of well-typed arguments access variables as the arguments do, one after the other. -/
theorem ArgsTyped.lowered : (es : List TypedExpr) → ∀ {S : Setting} {Γ Γ' : TypeEnv} {n n' : Nat}
    {ops : List Op}, S.Runnable → ArgsTyped S Γ es Γ' → Lower.args S.tree es n = .ok (ops, n') →
    Op.Lowered S.free (TypedExpr.allAccesses es) ops
  | [], _, _, _, _, _, _, _, _, hops => by
    cases hops
    exact .nil
  | e :: es, _, _, _, _, _, _, hS, h, hops => by
    rw [Lower.args] at hops
    obtain ⟨first, n₁, hfirst, hops⟩ := Lower.bind_ok_iff.1 hops
    obtain ⟨others, n₂, hothers, hops⟩ := Lower.bind_ok_iff.1 hops
    cases hops
    cases h with
    | cons he hes =>
      exact .append (Lower.lowered_firstOutput (ExprTyped.lowered e hS he hfirst))
        (ArgsTyped.lowered es hS hes hothers)

/-- The ops of a well-typed statement access variables as the statement does, in the order in which
the machine gets to them. A zone has the accesses of its count and then those of its body. -/
theorem StmtTyped.lowered : (s : TypedStmt) → ∀ {S : Setting} {Γ Γ' : TypeEnv} {n n' : Nat}
    {ops : List Op}, S.Runnable → StmtTyped S Γ s Γ' →
    Lower.stmt S.tree (S.outputs.map (·.name)) s n = .ok (ops, n') →
    Op.Lowered S.free s.accesses ops
  | .expr e, _, _, _, _, _, _, hS, h, hops => by
    rw [Lower.stmt] at hops
    obtain ⟨inner, n₁, hinner, hops⟩ := Lower.bind_ok_iff.1 hops
    cases hops
    cases h with
    | expr he => exact .append_right (ExprTyped.lowered e hS he hinner) (.idle trivial)
  | .assign targets e, S, Γ, _, _, _, _, hS, h, hops => by
    have he : ∃ Γ₁, ExprTyped S Γ e Γ₁ := by
      cases h with
      | assign he => exact ⟨_, he⟩
      | unpack he => exact ⟨_, he⟩
    obtain ⟨Γ₁, he⟩ := he
    cases hc : e.constant? with
    | some v =>
      simp only [Lower.stmt, hc] at hops
      obtain ⟨storing, n₁, hstoring, hops⟩ := Lower.bind_ok_iff.1 hops
      cases hops
      obtain ⟨hstoring, -⟩ := Lower.lift_ok_iff.1 hstoring
      rw [TypedStmt.accesses, TypedExpr.accesses_of_constant (by rw [hc]; rfl), List.nil_append]
      exact .append_right (Lower.lowered_assignConstant hstoring) (.idle trivial)
    | none =>
      simp only [Lower.stmt, hc] at hops
      obtain ⟨inner, n₁, hinner, hops⟩ := Lower.bind_ok_iff.1 hops
      obtain ⟨storing, n₂, hstoring, hops⟩ := Lower.bind_ok_iff.1 hops
      cases hops
      obtain ⟨hstoring, -⟩ := Lower.lift_ok_iff.1 hstoring
      exact .append_right (.append (ExprTyped.lowered e hS he hinner)
        (Lower.lowered_storeAll hstoring)) (.idle trivial)
  | .setField x object part value, S, _, _, _, _, _, hS, h, hops => by
    rw [Lower.stmt] at hops
    obtain ⟨inner, n₁, hinner, hops⟩ := Lower.bind_ok_iff.1 hops
    obtain ⟨temp, n₂, htemp, hops⟩ := Lower.bind_ok_iff.1 hops
    cases htemp
    obtain ⟨reading, n₃, hreading, hops⟩ := Lower.bind_ok_iff.1 hops
    obtain ⟨old, n₄, hold, hops⟩ := Lower.bind_ok_iff.1 hops
    cases hold
    obtain ⟨writing, n₅, hwriting, hops⟩ := Lower.bind_ok_iff.1 hops
    cases hops
    obtain ⟨hwriting, -⟩ := Lower.lift_ok_iff.1 hwriting
    have hvalueTemp := Lower.mem_temporary "value" n₁
    have hobjectTemp := Lower.mem_temporary x n₃
    cases h with
    | setField _ _ _ _ _ he =>
      cases hreading
      have hvalue := Lower.lowered_firstOutput (e := value) (ExprTyped.lowered value hS he hinner)
      have hwrite : Op.Lowered S.free [.use x] writing :=
        Component.lowered_writeOps hobjectTemp hvalueTemp hwriting
      exact .append_right (.append (.append hvalue (.cons (.bindTemporary hvalueTemp) (.read x)))
        (.cons (.bindTemporary hobjectTemp) hwrite))
        (.idles (by simp [Op.Idle]))
  | .zone count body, S, _, Γ₁, _, _, _, hS, h, hops => by
    rw [Lower.stmt] at hops
    obtain ⟨inner, n₁, hinner, hops⟩ := Lower.bind_ok_iff.1 hops
    obtain ⟨pushing, n₂, hpushing, hops⟩ := Lower.bind_ok_iff.1 hops
    cases hops
    cases h with
    | zone _ _ hcount _ hb =>
      have hS' : (S.inZone Γ₁).Runnable := ⟨hS.plain, hS.unique⟩
      have hbody : Op.Lowered false (TypedStmt.allAccesses body) inner :=
        BlockTyped.lowered body hS' hb hinner
      exact .append (Lower.lowered_firstOutput (ExprTyped.lowered count hS hcount hpushing))
        (.append_right (.zone hbody) (.idle trivial))

/-- The ops of a well-typed block access variables as its statements do, one after the other. -/
theorem BlockTyped.lowered : (ss : List TypedStmt) → ∀ {S : Setting} {Γ Γ' : TypeEnv} {n n' : Nat}
    {ops : List Op}, S.Runnable → BlockTyped S Γ ss Γ' →
    Lower.stmts S.tree (S.outputs.map (·.name)) ss n = .ok (ops, n') →
    Op.Lowered S.free (TypedStmt.allAccesses ss) ops
  | [], _, _, _, _, _, _, _, _, hops => by
    cases hops
    exact .nil
  | s :: ss, _, _, _, _, _, _, hS, h, hops => by
    rw [Lower.stmts] at hops
    obtain ⟨first, n₁, hfirst, hops⟩ := Lower.bind_ok_iff.1 hops
    obtain ⟨others, n₂, hothers, hops⟩ := Lower.bind_ok_iff.1 hops
    cases hops
    cases h with
    | cons hs hss =>
      exact .append (StmtTyped.lowered s hS hs hfirst) (BlockTyped.lowered ss hS hss hothers)

end

end NodeFormula

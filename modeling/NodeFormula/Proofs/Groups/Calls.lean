import NodeFormula.Proofs.Graph.Soundness
import NodeFormula.Proofs.Zones.Entering

/-!
# Calls of node groups

Which node groups a run builds, and which calls the ops of a formula have.

A run only adds groups at the end of those that are finished, and each is built from the body of a
call that its ops have, at some depth (`runOps_collects`). The ops of statements have calls of the
definitions that the statements use, with bodies that are lowered from those of the definitions
(`Lower.stmts_calls`). A definition that is called in another is smaller than it, so where names are
unique no group is called in its own body (`GroupCall.Of.apart`).
-/

namespace NodeFormula

/-! ### Calls in ops -/

/-- A call of a node group. -/
structure GroupCall where
  name : String
  inputs : List TypedParam
  outputs : List TypedParam
  body : List Op

mutual

/-- Every call of a group in an op satisfies `P`, also those in bodies. -/
def Op.Calls (P : GroupCall → Prop) : Op → Prop
  | .callFunction _ _ _ body | .zone body => AllCalls P body
  | .callGroup name inputs outputs body => P ⟨name, inputs, outputs, body⟩ ∧ AllCalls P body
  | _ => True

@[inherit_doc Op.Calls]
def Op.AllCalls (P : GroupCall → Prop) : List Op → Prop
  | [] => True
  | op :: ops => op.Calls P ∧ AllCalls P ops

end

/-- An op without a body, whose variable satisfies `N` if it has one. -/
def Op.Bare (N : String → Prop) : Op → Prop
  | .createVar x | .getVar x | .bindVar x | .destroyVar x => N x
  | .callFunction _ _ _ _ | .callGroup _ _ _ _ | .zone _ => False
  | _ => True

namespace Op

variable {P : GroupCall → Prop} {N : String → Prop}

@[simp] theorem allCalls_append {a b : List Op} :
    AllCalls P (a ++ b) ↔ AllCalls P a ∧ AllCalls P b := by
  induction a with
  | nil => simp [AllCalls]
  | cons op ops ih => simp [AllCalls, ih, and_assoc]

/-- An op without a body calls no group, so nothing is asked of its calls. -/
theorem Bare.calls {op : Op} (h : op.Bare N) : op.Calls P := by
  cases op with
  | callFunction | callGroup | zone => cases h
  | _ => simp [Calls]

theorem allCalls_of_bare {ops : List Op} (h : ∀ op ∈ ops, op.Bare N) : AllCalls P ops := by
  induction ops with
  | nil => simp [AllCalls]
  | cons op ops ih =>
    rw [AllCalls]
    exact ⟨(h op (.head _)).calls, ih fun o ho => h o (.tail _ ho)⟩

mutual

/-- What follows from a property of calls holds of the calls in an op, at any depth. -/
theorem Calls.imp {R : GroupCall → Prop} (hPR : ∀ c, P c → R c) : (op : Op) → op.Calls P →
    op.Calls R
  | .callFunction _ _ _ body, h | .zone body, h => by
    rw [Calls] at h ⊢
    exact AllCalls.imp hPR body h
  | .callGroup _ _ _ body, h => by
    rw [Calls] at h ⊢
    exact ⟨hPR _ h.1, AllCalls.imp hPR body h.2⟩
  | .pushValue _, _ | .createVar _, _ | .getVar _, _ | .bindVar _, _ | .destroyVar _, _
  | .getOutput _, _ | .setOutput _ _, _ | .setFunctionOut _, _ | .splitStruct, _ | .pop, _
  | .callBuiltin _ _, _ | .renameNode _, _ | .endOfStatement, _ => by simp only [Calls]

theorem AllCalls.imp {R : GroupCall → Prop} (hPR : ∀ c, P c → R c) : (ops : List Op) →
    AllCalls P ops → AllCalls R ops
  | [], _ => trivial
  | op :: ops, h => ⟨Calls.imp hPR op h.1, AllCalls.imp hPR ops h.2⟩

end

end Op

/-! ### Groups that a run builds -/

/-- What a tree is beside its nodes and links. -/
structure TreeHeader where
  name : String
  kind : TreeKind
  inputs : List InterfaceSocket
  outputs : List InterfaceSocket

/-- The name, the kind and the interface of a tree. -/
def NodeTree.header (t : NodeTree) : TreeHeader := ⟨t.name, t.kind, t.inputs, t.outputs⟩

namespace NodeTree

@[simp] theorem header_feed (t : NodeTree) (node : NodeId) (input : Nat) (i : Item) :
    (t.feed node input i).header = t.header := by
  cases i with
  | empty | constant | socket | bundle => rfl

@[simp] theorem header_feedAll (t : NodeTree) (node : NodeId) (feeds : List (Nat × Item)) :
    (t.feedAll node feeds).header = t.header := by
  induction feeds generalizing t with
  | nil => rfl
  | cons feed feeds ih => exact (ih _).trans (header_feed ..)

@[simp] theorem header_push (t : NodeTree) (n : Node) : (t.push n).header = t.header := rfl

end NodeTree

/-- The tree that a machine has built when the body of a group is run: its outputs feed node `1`. -/
def Machine.groupEnd (m : Machine) : NodeTree :=
  m.tree.feedAll 1 (m.outputs.mapIdx fun i item => (i, item))

/-- A tree of the given kind is built from a call, among some groups that are finished. -/
def GroupCall.Builds (kind : TreeKind) (c : GroupCall) (t : NodeTree) : Prop :=
  ∃ m inner : Machine, m.tree.kind = kind ∧
    Machine.runOps c.body (m.groupStart c.name c.inputs c.outputs) = .ok inner ∧ t = inner.groupEnd

namespace Machine

variable {m m' m₁ : Machine} {P : GroupCall → Prop}

/-- What a run does to the headers of its trees: that of the tree stays, and groups are added that are
built from calls which satisfy `P`. -/
structure Collects (P : GroupCall → Prop) (m m' : Machine) : Prop where
  header : m'.tree.header = m.tree.header
  groups : ∃ new, m'.groups = m.groups ++ new ∧ ∀ t ∈ new, ∃ c, P c ∧ c.Builds m.tree.kind t

namespace Collects

theorem of_groups (hh : m'.tree.header = m.tree.header) (hg : m'.groups = m.groups) :
    Collects P m m' :=
  ⟨hh, [], by rw [hg, List.append_nil], List.forall_mem_nil _⟩

/-- What two runs in a row collect is what the first collects and then what the second does. -/
theorem trans (h₁ : Collects P m m₁) (h₂ : Collects P m₁ m') : Collects P m m' := by
  obtain ⟨new₁, hnew₁, hbuilt₁⟩ := h₁.groups
  obtain ⟨new₂, hnew₂, hbuilt₂⟩ := h₂.groups
  refine ⟨h₂.header.trans h₁.header, new₁ ++ new₂, by rw [hnew₂, hnew₁, List.append_assoc], ?_⟩
  intro t ht
  rcases List.mem_append.1 ht with ht | ht
  · exact hbuilt₁ t ht
  · have hkind : m₁.tree.kind = m.tree.kind := congrArg TreeHeader.kind h₁.header
    rw [← hkind]
    exact hbuilt₂ t ht

theorem names_subset (h : Collects P m m') : m.groupNames ⊆ m'.groupNames := by
  obtain ⟨new, hnew, -⟩ := h.groups
  rw [groupNames, groupNames, hnew, List.map_append]
  exact List.subset_append_left ..

end Collects

/-- What a call of a group does to the finished groups: it leaves them if there is one of its name, and
otherwise runs the body among them and adds the tree that this builds. -/
theorem callGroup_groups {name : String} {inputs outputs : List TypedParam}
    {body : Machine → Except RunError Machine} (h : m.callGroup name inputs outputs body = .ok m') :
    name ∈ m.groupNames ∧ m'.groups = m.groups ∨
      name ∉ m.groupNames ∧ ∃ inner, body (m.groupStart name inputs outputs) = .ok inner ∧
        m'.groups = inner.groups ++ [inner.groupEnd] := by
  simp only [callGroup, run_bind_ok] at h
  obtain ⟨⟨args, m₁⟩, hpop, h⟩ := h
  obtain ⟨rest, -, rfl⟩ := popMany_ok hpop
  have hany : m.groups.any (·.name == name) = true ↔ name ∈ m.groupNames := by
    simp [List.any_eq_true]
  split at h
  next hcond =>
    simp only [run_bind_ok] at h
    obtain ⟨m₂, hm₂, m₃, hmodify, m₄, hconnect, h⟩ := h
    cases hm₂
    obtain rfl := modifyNode_ok hmodify
    obtain rfl := connectAll_ok hconnect
    cases h
    exact .inl ⟨hany.1 hcond, pushOutputs_groups ..⟩
  next hcond =>
    simp only [run_bind_ok] at h
    obtain ⟨m₂, hbuild, m₃, hmodify, m₄, hconnect, h⟩ := h
    obtain ⟨inner, hinner, rfl⟩ := buildGroup_ok hbuild
    obtain rfl := modifyNode_ok hmodify
    obtain rfl := connectAll_ok hconnect
    cases h
    exact .inr ⟨fun hmem => hcond (hany.2 hmem), inner, hinner, pushOutputs_groups ..⟩

/-- A step that does to headers what a run does. -/
def Collecting (P : GroupCall → Prop) (body : Machine → Except RunError Machine) : Prop :=
  ∀ m m', body m = .ok m' → Collects P m m'

/-- A call of a group collects it at the first call, after what its body collects, and nothing at
later calls. -/
theorem Collects.callGroup {c : GroupCall} (hc : P c) (hbody : Collecting P (runOps c.body))
    (h : m.callGroup c.name c.inputs c.outputs (runOps c.body) = .ok m') : Collects P m m' := by
  have hheader : m'.tree.header = m.tree.header := by
    obtain ⟨args, rest, groups, -, -, -, rfl⟩ := callGroup_built h
    rw [pushOutputs_tree]
    exact NodeTree.header_feedAll ..
  rcases callGroup_groups h with ⟨-, hgroups⟩ | ⟨-, inner, hinner, hgroups⟩
  · exact .of_groups hheader hgroups
  · obtain ⟨new, hnew, hbuilt⟩ := (hbody _ _ hinner).groups
    have hstart : (m.groupStart c.name c.inputs c.outputs).groups = m.groups := rfl
    refine ⟨hheader, new ++ [inner.groupEnd], by rw [hgroups, hnew, hstart, List.append_assoc], ?_⟩
    intro t ht
    rcases List.mem_append.1 ht with ht | ht
    · exact hbuilt t ht
    · cases List.mem_singleton.1 ht
      exact ⟨c, hc, m, inner, rfl, hinner, rfl⟩

/-- A call of a function collects what its body does. A function has no tree of its own. -/
theorem Collects.callFunction {inputs : List String} {outputs : Nat}
    {body : Machine → Except RunError Machine} (hbody : Collecting P body)
    (h : m.callFunction inputs outputs body = .ok m') : Collects P m m' := by
  obtain ⟨args, rest, inner, -, -, hinner, rfl⟩ := callFunction_ok h
  have hin := hbody _ _ hinner
  refine ⟨?_, ?_⟩
  · rw [pushOutputs_tree]
    exact hin.header
  · rw [pushOutputs_groups]
    exact hin.groups

/-- A repeat zone collects what its body does. -/
theorem Collects.zone {ops : List Op} {body : Machine → Except RunError Machine}
    (hbody : Collecting P body) (h : m.zone ops body = .ok m') : Collects P m m' := by
  obtain ⟨count, rest, currents, inner, finals, -, -, hinner, -, rfl⟩ := zone_ok h
  have hstart : Collects P m (m.zoneStart (m.carried ops) count currents) :=
    .of_groups (NodeTree.header_feedAll ..) rfl
  have hend : Collects P inner (inner.zoneEnd (m.tree.nodes.size + 1) (m.carried ops) finals rest) :=
    .of_groups (NodeTree.header_feedAll ..) rfl
  exact (hstart.trans (hbody _ _ hinner)).trans hend

mutual

/-- What a run of an op collects is built from calls that the op has, at some depth. The induction is
on the op and its body. -/
theorem runOp_collects : (op : Op) → op.Calls P → Collecting P (runOp op)
  | .pushValue (some _), _, _, _, h | .pushValue none, _, _, _, h | .destroyVar _, _, _, _, h
  | .endOfStatement, _, _, _, h => by
    cases h
    exact .of_groups rfl rfl
  | .createVar _, _, _, _, h => by
    obtain rfl := createVar_ok h
    exact .of_groups rfl rfl
  | .getVar _, _, _, _, h => by
    obtain ⟨_, -, rfl⟩ := getVar_ok h
    exact .of_groups rfl rfl
  | .bindVar _, _, _, _, h => by
    obtain ⟨_, _, -, rfl⟩ := bindVar_ok h
    exact .of_groups rfl rfl
  | .pop, _, _, _, h => by
    obtain ⟨_, _, -, rfl⟩ := runOp_pop_ok h
    exact .of_groups rfl rfl
  | .getOutput _, _, _, _, h => by
    obtain ⟨_, _, _, -, -, rfl⟩ := getOutput_ok h
    exact .of_groups rfl rfl
  | .setOutput _ _, _, _, _, h | .renameNode _, _, _, _, h => by
    obtain ⟨id, rfl⟩ := modifyNewest_ok h
    exact .of_groups rfl rfl
  | .setFunctionOut _, _, _, _, h => by
    obtain ⟨_, _, -, rfl⟩ := setFunctionOut_ok h
    exact .of_groups rfl rfl
  | .splitStruct, _, _, _, h => by
    obtain ⟨_, _, -, rfl⟩ := splitBundle_ok h
    exact .of_groups rfl rfl
  | .callBuiltin _ _, _, _, _, h => by
    obtain ⟨args, rest, -, -, -, rfl⟩ := callBuiltin_ok h
    refine .of_groups ?_ (pushOutputs_groups ..)
    rw [pushOutputs_tree]
    exact NodeTree.header_feedAll ..
  | .callFunction _ _ _ body, hP, _, _, h => by
    rw [Op.Calls] at hP
    exact .callFunction (runOps_collects body hP) h
  | .callGroup name inputs outputs body, hP, _, _, h => by
    rw [Op.Calls] at hP
    exact .callGroup hP.1 (runOps_collects body hP.2) h
  | .zone body, hP, _, _, h => by
    rw [Op.Calls] at hP
    exact .zone (runOps_collects body hP) h

/-- A run adds groups at the end of the finished ones, which are built from calls that its ops have. -/
theorem runOps_collects : (ops : List Op) → Op.AllCalls P ops → Collecting P (runOps ops)
  | [], _, _, _, h => by
    cases h
    exact .of_groups rfl rfl
  | op :: ops, hP, m, m', h => by
    rw [Op.AllCalls] at hP
    obtain ⟨m₁, h₁, h⟩ := runOps_cons_ok.1 h
    exact (runOp_collects op hP.1 m m₁ h₁).trans (runOps_collects ops hP.2 m₁ m' h)

end

end Machine

/-- A group that is built from a call has the name of the call. -/
theorem GroupCall.Builds.name {kind : TreeKind} {c : GroupCall} {t : NodeTree}
    (h : c.Builds kind t) : t.name = c.name := by
  obtain ⟨m, inner, -, hrun, rfl⟩ := h
  rw [Machine.groupEnd, NodeTree.name_feedAll]
  exact (Machine.runOps_extends c.body _ _ hrun).name

/-- A name stays new if no group of that name is called. -/
theorem Machine.Collects.notMem_names {m m' : Machine} {x : String}
    (h : Collects (fun c => c.name ≠ x) m m') (hx : x ∉ m.groupNames) : x ∉ m'.groupNames := by
  obtain ⟨new, hnew, hbuilt⟩ := h.groups
  intro hmem
  rw [groupNames, hnew, List.map_append] at hmem
  rcases List.mem_append.1 hmem with hmem | hmem
  · exact hx hmem
  · obtain ⟨t, ht, htname⟩ := List.mem_map.1 hmem
    obtain ⟨c, hc, hbuilds⟩ := hbuilt t ht
    exact hc (hbuilds.name.symm.trans htname)

/-! ### Ops without bodies -/

section
variable {tree : TreeKind} {N : String → Prop} {ops : List Op}

theorem TreeKind.bare_constantInput {name : String} {v : Constant}
    (h : tree.constantInput name v = .ok ops) : ∀ op ∈ ops, op.Bare N := by
  cases tree <;> cases v <;> cases h <;> simp [valueInput, propInput, Op.Bare]

theorem Component.bare_readOps {k : Component} {source : String} (hs : N source)
    (h : k.readOps tree source = .ok ops) : ∀ op ∈ ops, op.Bare N := by
  unfold readOps at h
  split at h
  next split hsplit =>
    cases h
    simp [Op.Bare, Overload.op, hs]
  next => cases h

/-- Writing a component is made by ops without bodies, with the variables for the object, the value
and the target. -/
theorem Component.bare_writeOps {k : Component} {target object value : String} (ht : N target)
    (ho : N object) (hv : N value) (h : k.writeOps tree target object value = .ok ops) :
    ∀ op ∈ ops, op.Bare N := by
  unfold writeOps at h
  split at h
  next => cases h
  next => cases h
  next split join hsplit hjoin =>
    cases h
    refine List.forall_mem_append.2 ⟨List.forall_mem_append.2 ⟨?_, fun op hop => ?_⟩, ?_⟩
    · simp [Op.Bare, Overload.op, ho]
    · obtain ⟨i, -, hop⟩ := List.mem_flatMap.1 hop
      exact (show ∀ op ∈ _, op.Bare N by split <;> simp [Op.Bare, ho, hv]) op hop
    · simp [Op.Bare, Overload.op, ht]

namespace Lower

theorem bare_store {target : TypedTarget} (h : ∀ x, target = .var x → N x) :
    (store target).Bare N := by
  cases target with
  | var x => exact h x rfl
  | output | ignore => trivial

/-- Assigning a constant is made by ops without bodies, and its variables are among the targets.
There is a case for each kind of target. -/
theorem bare_assignConstant {outputs : List String} {targets : List TypedTarget} {v : Constant}
    (ht : ∀ x, .var x ∈ targets → N x) (h : assignConstant tree outputs targets v = .ok ops) :
    ∀ op ∈ ops, op.Bare N := by
  have happend : ∀ {name input last}, tree.constantInput name v = .ok input → last.Bare N →
      ∀ op ∈ input ++ [last], op.Bare N := by
    intro name input last hinput hlast op hop
    rcases List.mem_append.1 hop with hop | hop
    · exact TreeKind.bare_constantInput hinput op hop
    · cases List.mem_singleton.1 hop
      exact hlast
  unfold assignConstant at h
  split at h
  next n =>
    obtain ⟨input, hinput, h⟩ := Machine.run_bind_ok.1 h
    cases h
    exact happend hinput (ht n (.head _))
  next i =>
    split at h
    next => cases h
    next n hn =>
      obtain ⟨input, hinput, h⟩ := Machine.run_bind_ok.1 h
      cases h
      exact happend hinput trivial
  next =>
    cases h
    exact List.forall_mem_nil _
  next => cases h

/-- The ops that unpack a bundle into targets. -/
theorem bare_unpack {targets : List TypedTarget} (ht : ∀ x, .var x ∈ targets → N x) (extra : Nat) :
    ∀ op ∈ Op.splitStruct :: List.replicate extra .pop ++ targets.reverse.map store, op.Bare N := by
  intro op hop
  rcases List.mem_append.1 hop with hop | hop
  · rcases List.mem_cons.1 hop with rfl | hop
    · trivial
    · cases List.eq_of_mem_replicate hop
      trivial
  · obtain ⟨target, htarget, rfl⟩ := List.mem_map.1 hop
    exact bare_store fun x hx => ht x (hx ▸ List.mem_reverse.1 htarget)

/-- Storing the outputs of a call or the components of a vector is made by ops without bodies, and
its variables are among the targets. -/
theorem bare_storeAll {e : TypedExpr} {targets : List TypedTarget}
    (ht : ∀ x, .var x ∈ targets → N x) (h : storeAll tree e targets = .ok ops) :
    ∀ op ∈ ops, op.Bare N := by
  unfold storeAll at h
  split at h
  next =>
    cases h
    exact List.forall_mem_nil _
  next i =>
    cases h
    unfold firstOutput
    split <;> simp [Op.Bare]
  next target _ =>
    cases h
    exact List.forall_mem_singleton.2 (bare_store fun x hx => ht x (hx ▸ .head _))
  next =>
    split at h
    next =>
      cases h
      exact bare_unpack ht _
    next =>
      split at h
      next => cases h
      next type _ =>
        split at h
        next => cases h
        next split _ =>
          cases h
          exact List.forall_mem_cons.2 ⟨trivial, bare_unpack ht _⟩

theorem bare_pushDefaults {params : List TypedParam} {given : Nat}
    (h : pushDefaults params given = .ok ops) : ∀ op ∈ ops, op.Bare N := by
  unfold pushDefaults at h
  split at h
  next =>
    cases h
    intro op hop
    obtain ⟨p, -, rfl⟩ := List.mem_map.1 hop
    trivial
  next => cases h

end Lower

end

/-! ### What statements use -/

section
variable (P : String → Prop) (Q : TypedFunction → Prop)

mutual

/-- The variables of an expression satisfy `P` and the definitions that it calls satisfy `Q`, also
those in the bodies of these definitions. -/
def TypedExpr.Uses : TypedExpr → Prop
  | .constant _ _ => True
  | .var x _ _ => P x
  | .node _ args _ => TypedExpr.AllUse args
  | .call ⟨name, kind, inputs, outputs, body⟩ args _ =>
    TypedExpr.AllUse args ∧ Q ⟨name, kind, inputs, outputs, body⟩ ∧ (∀ p ∈ inputs, P p.name) ∧
      TypedStmt.AllUse body
  | .output e _ _ => e.Uses
  | .component e _ _ => e.Uses

@[inherit_doc TypedExpr.Uses]
def TypedExpr.AllUse : List TypedExpr → Prop
  | [] => True
  | e :: es => e.Uses ∧ TypedExpr.AllUse es

@[inherit_doc TypedExpr.Uses]
def TypedStmt.Uses : TypedStmt → Prop
  | .expr e => e.Uses
  | .assign targets e => (∀ x, .var x ∈ targets → P x) ∧ e.Uses
  | .setField x object _ value => P x ∧ object.Uses ∧ value.Uses
  | .zone count body => count.Uses ∧ TypedStmt.AllUse body

@[inherit_doc TypedExpr.Uses]
def TypedStmt.AllUse : List TypedStmt → Prop
  | [] => True
  | s :: ss => s.Uses ∧ TypedStmt.AllUse ss

end

/-- The variables of an environment satisfy `P`. -/
def TypeEnv.Within (Γ : TypeEnv) : Prop := ∀ x, Γ x ≠ none → P x

end

namespace TypeEnv.Within

variable {P : String → Prop} {Γ Γ' : TypeEnv} {S : Setting}

theorem empty : TypeEnv.empty.Within P := fun _ hx => absurd rfl hx

/-- Binding a variable of a kind keeps all variables of that kind. -/
theorem bind (h : Γ.Within P) {x : String} (hx : P x) (t : VarType) : (Γ.bind x t).Within P := by
  intro y hy
  by_cases hyx : y = x
  · exact hyx ▸ hx
  · rw [TypeEnv.bind_of_ne hyx] at hy
    exact h y hy

theorem bindParams {params : List TypedParam} (h : Γ.Within P) (hp : ∀ p ∈ params, P p.name) :
    (Γ.bindParams params).Within P := by
  induction params generalizing Γ with
  | nil => exact h
  | cons p params ih =>
    exact ih (h.bind (hp p (.head _)) _) fun q hq => hp q (.tail _ hq)

/-- A well-typed target is a variable of the language, and so are all variables after it. -/
theorem target {target : TypedTarget} {t : VarType} (h : Γ.Within S.spelled)
    (ht : TargetTyped S Γ target t Γ') :
    (∀ x, target = .var x → S.spelled x) ∧ Γ'.Within S.spelled := by
  cases ht with
  | var hx =>
    refine ⟨fun y hy => ?_, h.bind hx _⟩
    cases hy
    exact hx
  | output | ignore => exact ⟨fun _ hx => TypedTarget.noConfusion hx, h⟩

/-- Well-typed targets are variables of the language, and so are all variables after them. -/
theorem targets {targets : List TypedTarget} {parts : List SocketType} (h : Γ.Within S.spelled)
    (ht : TargetsTyped S Γ targets parts Γ') :
    (∀ x, .var x ∈ targets → S.spelled x) ∧ Γ'.Within S.spelled := by
  induction ht with
  | nil => exact ⟨fun _ hx => absurd hx List.not_mem_nil, h⟩
  | cons htarget _ ih =>
    obtain ⟨hfirst, h⟩ := h.target htarget
    obtain ⟨hrest, h⟩ := ih h
    refine ⟨fun x hx => ?_, h⟩
    rcases List.mem_cons.1 hx with hx | hx
    · exact hfirst x hx.symm
    · exact hrest x hx

end TypeEnv.Within

mutual

/-- A well-typed expression uses variables of the language and definitions that are known, and binds
no other variables, by induction on the expression. -/
theorem ExprTyped.uses : (e : TypedExpr) → ∀ {S : Setting} {Γ Γ' : TypeEnv}, Γ.Within S.spelled →
    ExprTyped S Γ e Γ' → e.Uses S.spelled S.known ∧ Γ'.Within S.spelled
  | .constant _ _, _, _, _, hΓ, h => by
    cases h
    exact ⟨trivial, hΓ⟩
  | .var x _ _, _, _, _, hΓ, h => by
    cases h with
    | var hx => exact ⟨hΓ x (by rw [hx]; exact Option.some_ne_none _), hΓ⟩
    | free _ hx => exact ⟨hx, hΓ.bind hx _⟩
  | .node _ args _, _, _, _, hΓ, h => by
    cases h with
    | node _ ha => exact ArgsTyped.uses args hΓ ha
  | .call ⟨name, kind, inputs, outputs, body⟩ args _, S, _, _, hΓ, h => by
    cases h with
    | call hf hfun ha =>
      obtain ⟨hargs, hΓ'⟩ := ArgsTyped.uses args hΓ ha
      cases hfun with
      | mk hinputs _ hbody =>
        let f : TypedFunction := ⟨name, kind, inputs, outputs, body⟩
        have hstart : (TypeEnv.empty.bindParams inputs).Within (S.body f).spelled :=
          TypeEnv.Within.empty.bindParams hinputs
        exact ⟨⟨hargs, hf, hinputs, (BlockTyped.uses body hstart hbody).1⟩, hΓ'⟩
  | .output e _ _, _, _, _, hΓ, h => by
    cases h with
    | output he => exact ExprTyped.uses e hΓ he
  | .component e _ _, _, _, _, hΓ, h => by
    cases h with
    | component he => exact ExprTyped.uses e hΓ he

/-- Well-typed arguments use variables of the language and definitions that are known. -/
theorem ArgsTyped.uses : (es : List TypedExpr) → ∀ {S : Setting} {Γ Γ' : TypeEnv},
    Γ.Within S.spelled → ArgsTyped S Γ es Γ' →
    TypedExpr.AllUse S.spelled S.known es ∧ Γ'.Within S.spelled
  | [], _, _, _, hΓ, h => by
    cases h
    exact ⟨trivial, hΓ⟩
  | e :: es, _, _, _, hΓ, h => by
    cases h with
    | cons he hes =>
      obtain ⟨hfirst, hΓ₁⟩ := ExprTyped.uses e hΓ he
      obtain ⟨hrest, hΓ'⟩ := ArgsTyped.uses es hΓ₁ hes
      exact ⟨⟨hfirst, hrest⟩, hΓ'⟩

/-- A well-typed statement uses variables of the language and definitions that are known, by
induction on the statement. -/
theorem StmtTyped.uses : (s : TypedStmt) → ∀ {S : Setting} {Γ Γ' : TypeEnv}, Γ.Within S.spelled →
    StmtTyped S Γ s Γ' → s.Uses S.spelled S.known ∧ Γ'.Within S.spelled
  | .expr e, _, _, _, hΓ, h => by
    cases h with
    | expr he => exact ExprTyped.uses e hΓ he
  | .assign targets e, _, _, _, hΓ, h => by
    cases h with
    | assign he _ _ ht =>
      obtain ⟨hvalue, hΓ₁⟩ := ExprTyped.uses e hΓ he
      obtain ⟨htarget, hΓ'⟩ := hΓ₁.target ht
      exact ⟨⟨fun x hx => htarget x (List.mem_singleton.1 hx).symm, hvalue⟩, hΓ'⟩
    | unpack he _ _ _ _ ht =>
      obtain ⟨hvalue, hΓ₁⟩ := ExprTyped.uses e hΓ he
      obtain ⟨htargets, hΓ'⟩ := hΓ₁.targets ht
      exact ⟨⟨htargets, hvalue⟩, hΓ'⟩
  | .setField x _ _ value, _, _, _, hΓ, h => by
    cases h with
    | setField _ hx _ _ _ he =>
      obtain ⟨hvalue, hΓ'⟩ := ExprTyped.uses value hΓ he
      exact ⟨⟨hx, hx, hvalue⟩, hΓ'⟩
  | .zone count body, S, _, Γ₁, hΓ, h => by
    cases h with
    | zone _ _ hcount _ hb =>
      obtain ⟨huses, hΓ₁⟩ := ExprTyped.uses count hΓ hcount
      have hstart : Γ₁.Within (S.inZone Γ₁).spelled := hΓ₁
      exact ⟨⟨huses, (BlockTyped.uses body hstart hb).1⟩, hΓ₁⟩

/-- A well-typed block uses variables and definitions of its setting only, by induction on the block.
The variables in scope behind it are such too. -/
theorem BlockTyped.uses : (ss : List TypedStmt) → ∀ {S : Setting} {Γ Γ' : TypeEnv},
    Γ.Within S.spelled → BlockTyped S Γ ss Γ' →
    TypedStmt.AllUse S.spelled S.known ss ∧ Γ'.Within S.spelled
  | [], _, _, _, hΓ, h => by
    cases h
    exact ⟨trivial, hΓ⟩
  | s :: ss, _, _, _, hΓ, h => by
    cases h with
    | cons hs hss =>
      obtain ⟨hfirst, hΓ₁⟩ := StmtTyped.uses s hΓ hs
      obtain ⟨hrest, hΓ'⟩ := BlockTyped.uses ss hΓ₁ hss
      exact ⟨⟨hfirst, hrest⟩, hΓ'⟩

end

/-! ### Calls in lowered statements -/

/-- A call of the group that a definition defines, whose body is lowered from that of the
definition. -/
structure GroupCall.Lowers (tree : TreeKind) (f : TypedFunction) (c : GroupCall) : Prop where
  name : c.name = f.name
  inputs : c.inputs = f.inputs
  outputs : c.outputs = f.outputs
  body : ∃ n n', Lower.stmts tree (f.outputs.map (·.name)) f.body n = .ok (c.body, n')

/-- A call of a group whose definition is smaller than `bound`, satisfies `Q` and uses what it may. -/
def GroupCall.Of (tree : TreeKind) (P : String → Prop) (Q : TypedFunction → Prop) (bound : Nat)
    (c : GroupCall) : Prop :=
  ∃ f : TypedFunction, sizeOf f < bound ∧ Q f ∧ (∀ p ∈ f.inputs, P p.name) ∧
    TypedStmt.AllUse P Q f.body ∧ c.Lowers tree f

theorem TypedFunction.sizeOf_body_lt (f : TypedFunction) : sizeOf f.body < sizeOf f := by
  obtain ⟨name, kind, inputs, outputs, body⟩ := f
  change sizeOf body < _
  rw [TypedFunction.mk.sizeOf_spec]
  omega

section
variable {tree : TreeKind} {P : String → Prop} {Q : TypedFunction → Prop} {bound : Nat}

theorem Lower.allCalls_firstOutput {R : GroupCall → Prop} {e : TypedExpr} {ops : List Op}
    (h : Op.AllCalls R ops) : Op.AllCalls R (Lower.firstOutput e ops) := by
  unfold Lower.firstOutput
  split
  · exact Op.allCalls_append.2 ⟨h, trivial, trivial⟩
  · exact h

mutual

/-- The calls in a lowered expression are of definitions that the expression uses and that are no
larger than it. The bound on the size lets the induction go into bodies. -/
theorem Lower.expr_calls : (e : TypedExpr) → ∀ {n n' : Nat} {ops : List Op}, sizeOf e ≤ bound →
    e.Uses P Q → Lower.expr tree e n = .ok (ops, n') → Op.AllCalls (GroupCall.Of tree P Q bound) ops
  | .constant _ _, _, _, _, _, _, h => by
    cases h
    exact ⟨trivial, trivial⟩
  | .var _ fresh _, _, _, _, _, _, h => by
    cases h
    cases fresh
    · exact ⟨trivial, trivial⟩
    · exact ⟨trivial, trivial, trivial⟩
  | .node _ args _, _, _, _, hsize, hu, h => by
    rw [TypedExpr.node.sizeOf_spec] at hsize
    obtain ⟨pushed, n₁, hpushed, h⟩ := Lower.bind_ok_iff.1 h
    cases h
    refine Op.allCalls_append.2 ⟨Op.allCalls_append.2
      ⟨Lower.args_calls args (by omega) hu hpushed, ?_⟩, trivial, trivial⟩
    refine Op.allCalls_of_bare (N := P) fun op hop => ?_
    cases List.eq_of_mem_replicate hop
    trivial
  | .call ⟨name, kind, inputs, outputs, body⟩ args _, _, _, _, hsize, hu, h => by
    rw [TypedExpr.call.sizeOf_spec] at hsize
    have hlt : sizeOf body < sizeOf (TypedFunction.mk name kind inputs outputs body) :=
      TypedFunction.sizeOf_body_lt ⟨name, kind, inputs, outputs, body⟩
    obtain ⟨hargs, hf, hinputs, hbody⟩ := hu
    obtain ⟨pushed, n₁, hpushed, h⟩ := Lower.bind_ok_iff.1 h
    obtain ⟨defaults, n₂, hdefaults, h⟩ := Lower.bind_ok_iff.1 h
    obtain ⟨inner, n₃, hinner, h⟩ := Lower.bind_ok_iff.1 h
    cases h
    obtain ⟨hpush, rfl⟩ := Lower.lift_ok_iff.1 hdefaults
    have hcalls := Lower.stmts_calls body (by omega) hbody hinner
    refine Op.allCalls_append.2 ⟨Op.allCalls_append.2
      ⟨Lower.args_calls args (by omega) hargs hpushed,
        Op.allCalls_of_bare (Lower.bare_pushDefaults (N := P) hpush)⟩, ?_, trivial⟩
    cases kind with
    | function => exact hcalls
    | group => exact ⟨⟨_, by omega, hf, hinputs, hbody, rfl, rfl, rfl, _, _, hinner⟩, hcalls⟩
  | .output e _ _, _, _, _, hsize, hu, h => by
    rw [TypedExpr.output.sizeOf_spec] at hsize
    obtain ⟨inner, n₁, hinner, h⟩ := Lower.bind_ok_iff.1 h
    cases h
    exact Op.allCalls_append.2 ⟨Lower.expr_calls e (by omega) hu hinner, trivial, trivial⟩
  | .component e _ _, _, _, _, hsize, hu, h => by
    rw [TypedExpr.component.sizeOf_spec] at hsize
    obtain ⟨inner, n₁, hinner, h⟩ := Lower.bind_ok_iff.1 h
    obtain ⟨temp, n₂, htemp, h⟩ := Lower.bind_ok_iff.1 h
    obtain ⟨reading, n₃, hreading, h⟩ := Lower.bind_ok_iff.1 h
    cases h
    obtain ⟨hreading, -⟩ := Lower.lift_ok_iff.1 hreading
    have hbare := Component.bare_readOps (N := fun _ => True) trivial hreading
    exact Op.allCalls_append.2 ⟨Op.allCalls_append.2
      ⟨Lower.allCalls_firstOutput (Lower.expr_calls e (by omega) hu hinner), trivial,
        Op.allCalls_of_bare hbare⟩, trivial, trivial⟩

/-- The calls in lowered arguments are of definitions that these use, one argument after the
other. -/
theorem Lower.args_calls : (es : List TypedExpr) → ∀ {n n' : Nat} {ops : List Op},
    sizeOf es ≤ bound → TypedExpr.AllUse P Q es → Lower.args tree es n = .ok (ops, n') →
    Op.AllCalls (GroupCall.Of tree P Q bound) ops
  | [], _, _, _, _, _, h => by
    cases h
    trivial
  | e :: es, _, _, _, hsize, hu, h => by
    rw [List.cons.sizeOf_spec] at hsize
    obtain ⟨first, n₁, hfirst, h⟩ := Lower.bind_ok_iff.1 h
    obtain ⟨others, n₂, hothers, h⟩ := Lower.bind_ok_iff.1 h
    cases h
    exact Op.allCalls_append.2
      ⟨Lower.allCalls_firstOutput (Lower.expr_calls e (by omega) hu.1 hfirst),
        Lower.args_calls es (by omega) hu.2 hothers⟩

/-- The calls in a lowered statement are of definitions that the statement uses, with the ops of
their own bodies. The induction is on the statement, and a bound on its size covers the bodies. -/
theorem Lower.stmt_calls : (s : TypedStmt) → ∀ {outputs : List String} {n n' : Nat} {ops : List Op},
    sizeOf s ≤ bound → s.Uses P Q → Lower.stmt tree outputs s n = .ok (ops, n') →
    Op.AllCalls (GroupCall.Of tree P Q bound) ops
  | .expr e, _, _, _, _, hsize, hu, h => by
    rw [TypedStmt.expr.sizeOf_spec] at hsize
    obtain ⟨inner, n₁, hinner, h⟩ := Lower.bind_ok_iff.1 h
    cases h
    exact Op.allCalls_append.2 ⟨Lower.expr_calls e (by omega) hu hinner, trivial, trivial⟩
  | .assign targets e, _, _, _, _, hsize, hu, h => by
    rw [TypedStmt.assign.sizeOf_spec] at hsize
    cases hc : e.constant? with
    | some v =>
      simp only [Lower.stmt, hc] at h
      obtain ⟨storing, n₁, hstoring, h⟩ := Lower.bind_ok_iff.1 h
      cases h
      obtain ⟨hstoring, -⟩ := Lower.lift_ok_iff.1 hstoring
      exact Op.allCalls_append.2
        ⟨Op.allCalls_of_bare (Lower.bare_assignConstant hu.1 hstoring), trivial, trivial⟩
    | none =>
      simp only [Lower.stmt, hc] at h
      obtain ⟨inner, n₁, hinner, h⟩ := Lower.bind_ok_iff.1 h
      obtain ⟨storing, n₂, hstoring, h⟩ := Lower.bind_ok_iff.1 h
      cases h
      obtain ⟨hstoring, -⟩ := Lower.lift_ok_iff.1 hstoring
      exact Op.allCalls_append.2 ⟨Op.allCalls_append.2
        ⟨Lower.expr_calls e (by omega) hu.2 hinner,
          Op.allCalls_of_bare (Lower.bare_storeAll hu.1 hstoring)⟩, trivial, trivial⟩
  | .setField x object part value, _, _, _, _, hsize, hu, h => by
    rw [TypedStmt.setField.sizeOf_spec] at hsize
    obtain ⟨hx, hobject, hvalue⟩ := hu
    obtain ⟨valueOps, n₁, hvalueOps, h⟩ := Lower.bind_ok_iff.1 h
    obtain ⟨valueTemp, n₂, -, h⟩ := Lower.bind_ok_iff.1 h
    obtain ⟨objectOps, n₃, hobjectOps, h⟩ := Lower.bind_ok_iff.1 h
    obtain ⟨objectTemp, n₄, -, h⟩ := Lower.bind_ok_iff.1 h
    obtain ⟨writing, n₅, hwriting, h⟩ := Lower.bind_ok_iff.1 h
    cases h
    obtain ⟨hwriting, -⟩ := Lower.lift_ok_iff.1 hwriting
    have hbare := Component.bare_writeOps (N := fun _ => True) trivial trivial trivial hwriting
    simp only [Op.allCalls_append, Op.AllCalls, Op.Calls, true_and, and_true]
    exact ⟨⟨Lower.allCalls_firstOutput (Lower.expr_calls value (by omega) hvalue hvalueOps),
      Lower.expr_calls object (by omega) hobject hobjectOps⟩, Op.allCalls_of_bare hbare⟩
  | .zone count body, _, _, _, _, hsize, hu, h => by
    rw [TypedStmt.zone.sizeOf_spec] at hsize
    obtain ⟨inner, n₁, hinner, h⟩ := Lower.bind_ok_iff.1 h
    obtain ⟨pushing, n₂, hpushing, h⟩ := Lower.bind_ok_iff.1 h
    cases h
    exact Op.allCalls_append.2
      ⟨Lower.allCalls_firstOutput (Lower.expr_calls count (by omega) hu.1 hpushing),
        Lower.stmts_calls body (by omega) hu.2 hinner, trivial, trivial⟩

/-- The calls of groups in lowered statements are calls of definitions that the statements use. -/
theorem Lower.stmts_calls : (ss : List TypedStmt) → ∀ {outputs : List String} {n n' : Nat}
    {ops : List Op}, sizeOf ss ≤ bound → TypedStmt.AllUse P Q ss →
    Lower.stmts tree outputs ss n = .ok (ops, n') → Op.AllCalls (GroupCall.Of tree P Q bound) ops
  | [], _, _, _, _, _, _, h => by
    cases h
    trivial
  | s :: ss, _, _, _, _, hsize, hu, h => by
    rw [List.cons.sizeOf_spec] at hsize
    obtain ⟨first, n₁, hfirst, h⟩ := Lower.bind_ok_iff.1 h
    obtain ⟨others, n₂, hothers, h⟩ := Lower.bind_ok_iff.1 h
    cases h
    exact Op.allCalls_append.2 ⟨Lower.stmt_calls s (by omega) hu.1 hfirst,
      Lower.stmts_calls ss (by omega) hu.2 hothers⟩

end

/-- The ops of a well-typed formula have calls of definitions that the formula may call. -/
theorem BlockTyped.calls {S : Setting} {Γ' : TypeEnv} {ss : List TypedStmt} {ops : List Op}
    (h : BlockTyped S TypeEnv.empty ss Γ') (hops : lower S.tree ss = .ok ops) :
    Op.AllCalls (GroupCall.Of S.tree S.spelled S.known (sizeOf ss)) ops := by
  obtain ⟨n, hlower⟩ := Lower.stmts_of_lower hops
  exact Lower.stmts_calls ss (Nat.le_refl _) (BlockTyped.uses ss .empty h).1 hlower

/-- Where definitions have names of their own, a group is not called in its body, whose definitions are
smaller. -/
theorem GroupCall.Of.apart {c : GroupCall}
    (hunique : ∀ f g, Q f → Q g → f.name = g.name → f = g) (h : c.Of tree P Q bound) :
    Op.AllCalls (fun d => d.name ≠ c.name) c.body := by
  obtain ⟨f, -, hf, -, huses, hname, -, -, n, n', hbody⟩ := h
  refine (Lower.stmts_calls f.body (Nat.le_refl _) huses hbody).imp (fun d hd heq => ?_) c.body
  obtain ⟨g, hsize, hg, -, -, hlowers⟩ := hd
  have hgf : g = f := hunique g f hg hf (by rw [← hlowers.name, heq, hname])
  have hlt := f.sizeOf_body_lt
  rw [hgf] at hsize
  omega

end

end NodeFormula

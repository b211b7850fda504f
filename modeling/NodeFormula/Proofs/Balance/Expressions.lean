import NodeFormula.Proofs.Balance.Steps

/-!
# Expressions push one value

The ops of a well-typed expression that run from a tidy state push one item for the outputs of the
expression, bind the free variables that it is the first to use, and leave all else (`ExprBalanced`).
This module has the cases of that statement for the different kinds of expressions, each from the
statement for the parts of the expression. A call of a function runs the function's statements, of which
it uses that they keep the state tidy, set outputs to plain items, and add nodes and links behind those
that there were (`StmtsBalanced`).
-/

namespace NodeFormula

open Machine

/-! ### The parts of an expression -/

mutual

/-- An expression and all those in it. The bodies of definitions that it calls are not part of it. -/
def TypedExpr.parts : TypedExpr → List TypedExpr
  | .constant v t => [.constant v t]
  | .var x fresh t => [.var x fresh t]
  | .node spec args t => .node spec args t :: TypedExpr.partsAll args
  | .call f args t => .call f args t :: TypedExpr.partsAll args
  | .output e i t => .output e i t :: e.parts
  | .component e k t => .component e k t :: e.parts

/-- Expressions and all those in them. -/
def TypedExpr.partsAll : List TypedExpr → List TypedExpr
  | [] => []
  | e :: es => e.parts ++ TypedExpr.partsAll es

end

/-- The free variable that an expression creates. -/
def TypedExpr.fresh? : TypedExpr → Option String
  | .var x true _ => some x
  | _ => none

/-- The free variables that an expression creates, with those that are created in it. -/
def TypedExpr.created (e : TypedExpr) : List String := e.parts.filterMap TypedExpr.fresh?

/-- The free variables that are created in expressions. -/
def TypedExpr.createdAll (es : List TypedExpr) : List String :=
  (TypedExpr.partsAll es).filterMap TypedExpr.fresh?

theorem TypedExpr.createdAll_cons (e : TypedExpr) (es : List TypedExpr) :
    TypedExpr.createdAll (e :: es) = e.created ++ TypedExpr.createdAll es :=
  List.filterMap_append

/-! ### Tidy states -/

/-- No temporary variable is bound. -/
def NoTemporaries (env : Table String Item) : Prop := ∀ x, '#' ∈ x.toList → env.get? x = none

namespace NoTemporaries

variable {env : Table String Item}

theorem insert (h : NoTemporaries env) {x : String} (hx : '#' ∉ x.toList) (i : Item) :
    NoTemporaries (env.insert x i) := by
  intro y hy
  rw [Table.get?_insert, if_neg]
  · exact h y hy
  · rintro rfl
    exact hx hy

theorem insertAll (h : NoTemporaries env) {pairs : List (String × Item)}
    (hpairs : ∀ p ∈ pairs, '#' ∉ p.1.toList) : NoTemporaries (env.insertAll pairs) := by
  induction pairs generalizing env with
  | nil => exact h
  | cons p pairs ih =>
    exact ih (h.insert (hpairs p (.head _)) p.2) fun q hq => hpairs q (.tail _ hq)

theorem empty : NoTemporaries ∅ := fun _ _ => rfl

end NoTemporaries

/-- The variables in scope are bound to items for their outputs. -/
abbrev EnvCovers (Γ : TypeEnv) (env : Table String Item) : Prop :=
  EnvHolds (fun i t => i.Covers t.types.length) Γ env

namespace Machine

/-- A state between the ops of two expressions: the variables in scope are bound to items for their
outputs, and no temporary variable is left. -/
structure Tidy (Γ : TypeEnv) (m : Machine) : Prop where
  env : EnvCovers Γ m.env
  temporaries : NoTemporaries m.env

variable {Γ : TypeEnv} {m m' : Machine}

/-- A step after which every variable is bound as before. -/
theorem Tidy.same (h : m.Tidy Γ) (henv : ∀ x, m'.env.get? x = m.env.get? x) : m'.Tidy Γ :=
  ⟨h.env.of_get? fun x _ => henv x, fun x hx => (henv x).trans (h.temporaries x hx)⟩

/-- A step that leaves the variables keeps the state tidy. -/
theorem Tidy.frame (h : m.Tidy Γ) (hframe : Frame m m') : m'.Tidy Γ :=
  h.same fun x => by rw [hframe.env]

/-- Binding a variable to an item for the outputs of its type, in the types and in the machine, keeps
the state tidy. -/
theorem Tidy.bind (h : m.Tidy Γ) {x : String} {t : VarType} {i : Item} (hx : '#' ∉ x.toList)
    (hi : i.Covers t.types.length) (henv : m'.env = m.env.insert x i) : m'.Tidy (Γ.bind x t) := by
  refine ⟨?_, ?_⟩
  · rw [henv]
    exact h.env.insert hi
  · rw [henv]
    exact h.temporaries.insert hx i

end Machine

/-- The ops of an expression push an item for its outputs, create its free variables and keep all
else. -/
def ExprBalanced (Γ : TypeEnv) (e : TypedExpr) (Γ' : TypeEnv) (ops : List Op) : Prop :=
  ∀ m m', m.Tidy Γ → runOps ops m = .ok m' →
    m'.Tidy Γ' ∧ PushedFor e.types.length m.stack m' ∧ Keeps e.created m m'

/-- The ops of arguments push a plain item for each, create free variables and keep all else. -/
def ArgsBalanced (Γ : TypeEnv) (es : List TypedExpr) (Γ' : TypeEnv) (ops : List Op) : Prop :=
  ∀ m m', m.Tidy Γ → runOps ops m = .ok m' → m'.Tidy Γ' ∧
    (∃ items : List Item, items.length = es.length ∧ (∀ i ∈ items, i.Plain) ∧
      m'.stack = items.reverse ++ m.stack) ∧ Keeps (TypedExpr.createdAll es) m m'

/-- The ops of statements keep the state tidy, the outputs plain, and the nodes and links. -/
structure Performed (Γ' : TypeEnv) (m m' : Machine) : Prop where
  tidy : m'.Tidy Γ'
  plain : ∀ i ∈ m'.outputs, i.Plain
  length : m'.outputs.length = m.outputs.length
  appends : Appends none m m'

@[inherit_doc Performed]
def StmtsBalanced (Γ Γ' : TypeEnv) (ops : List Op) : Prop :=
  ∀ m m', m.Tidy Γ → (∀ i ∈ m.outputs, i.Plain) → runOps ops m = .ok m' → Performed Γ' m m'

variable {S : Setting} {Γ Γ' Γ₁ : TypeEnv}

/-! ### Constants and variables -/

/-- A constant pushes itself. -/
theorem ExprBalanced.constant {v : Constant} {t : Typing} (ht : t.varType = .value v.type) :
    ExprBalanced Γ (.constant v t) Γ [.pushValue (some v)] := by
  intro m m' hm h
  cases h
  have htypes : (TypedExpr.constant v t).types = [v.type] := congrArg VarType.types ht
  have hkeeps := Keeps.of_stack m (.constant v :: m.stack)
  refine ⟨hm.frame ⟨rfl, rfl, rfl⟩, ?_, hkeeps⟩
  rw [htypes]
  exact .inr ⟨_, .plain (.inr (.constant v)), rfl⟩

/-- A variable in scope pushes what it is bound to, which stands for the outputs of its type. -/
theorem ExprBalanced.var {x : String} {t : Typing} (hx : Γ x = some t.varType) :
    ExprBalanced Γ (.var x false t) Γ [.getVar x] := by
  intro m m' hm h
  obtain ⟨m₁, hget, h⟩ := runOps_cons_ok.1 h
  cases h
  obtain ⟨i, hi, rfl⟩ := getVar_ok hget
  obtain ⟨i', hi', hcovers⟩ := hm.env x t.varType hx
  rw [hi] at hi'
  cases hi'
  have hkeeps := Keeps.of_stack m (i :: m.stack)
  exact ⟨hm.frame ⟨rfl, rfl, rfl⟩, .inr ⟨i, hcovers, rfl⟩, hkeeps⟩

/-- The first use of a free variable adds one node for it, binds it to the node's socket, and pushes
this socket. -/
theorem ExprBalanced.free {x : String} {t : Typing} (hx : '#' ∉ x.toList)
    (ht : t.varType = .value .float) :
    ExprBalanced Γ (.var x true t) (Γ.bind x (.value .float)) [.createVar x, .getVar x] := by
  intro m m' hm h
  obtain ⟨m₁, hcreate, h⟩ := runOps_cons_ok.1 h
  obtain ⟨m₂, hget, h⟩ := runOps_cons_ok.1 h
  cases h
  have happends : Appends none m m₁ := .createVar hcreate
  obtain ⟨i, hi, rfl⟩ := getVar_ok hget
  have hend : Appends none m (m₁.push i) := happends.trans (.of_eq rfl rfl)
  obtain rfl := createVar_ok hcreate
  have hsocket : (m.env.insert x (.socket ⟨m.tree.nodes.size, 0, .float⟩)).get? x =
      some (.socket ⟨m.tree.nodes.size, 0, .float⟩) := by
    rw [Table.get?_insert, if_pos rfl]
  rw [hsocket] at hi
  cases hi
  have htypes : (TypedExpr.var x true t).types = [.float] := congrArg VarType.types ht
  refine ⟨hm.bind hx (.plain (Item.plain_socket _)) rfl, ?_, ?_, ?_, rfl, hend⟩
  · rw [htypes]
    exact .inr ⟨_, .plain (Item.plain_socket _), rfl⟩
  · intro y hy
    have hne : y ≠ x := by simpa [TypedExpr.created, TypedExpr.parts, TypedExpr.fresh?] using hy
    exact (Table.get?_insert ..).trans (if_neg hne)
  · intro y hy
    obtain rfl : y = x := by simpa [TypedExpr.created, TypedExpr.parts, TypedExpr.fresh?] using hy
    refine ⟨m.tree.nodes.size, Nat.le_refl _, hsocket, ?_⟩
    change (m.tree.nodes.push _)[m.tree.nodes.size]? = _
    exact Array.getElem?_push_size

/-! ### Arguments -/

theorem ExprBalanced.firstOutput {e : TypedExpr} {ops : List Op} (hp : e.varType.Proper)
    (hne : e.types ≠ []) (h : ExprBalanced Γ e Γ' ops) {m m' : Machine} (hm : m.Tidy Γ)
    (hrun : runOps (Lower.firstOutput e ops) m = .ok m') :
    m'.Tidy Γ' ∧ (∃ i, i.Plain ∧ m'.stack = i :: m.stack) ∧ Keeps e.created m m' := by
  rw [← firstOutput_append] at hrun
  obtain ⟨m₁, h₁, hfirst⟩ := runOps_append_ok.1 hrun
  obtain ⟨hm₁, hpushed, hkeeps⟩ := h m m₁ hm h₁
  obtain ⟨hframe, happends, hplain⟩ := firstOutput_plain hp hne hpushed hfirst
  exact ⟨hm₁.frame hframe, hplain, hkeeps.then_frame hframe happends⟩

theorem ArgsBalanced.nil : ArgsBalanced Γ [] Γ [] := by
  intro m m' hm h
  cases h
  exact ⟨hm, ⟨[], rfl, List.forall_mem_nil _, rfl⟩, .of_frame (.refl m) (.of_eq rfl rfl)⟩

/-- The first argument pushes one plain item, and the others push theirs above it. -/
theorem ArgsBalanced.cons {e : TypedExpr} {es : List TypedExpr} {ops more : List Op}
    (hp : e.varType.Proper) (hne : e.types ≠ []) (he : ExprBalanced Γ e Γ₁ ops)
    (hes : ArgsBalanced Γ₁ es Γ' more) :
    ArgsBalanced Γ (e :: es) Γ' (Lower.firstOutput e ops ++ more) := by
  intro m m' hm h
  obtain ⟨m₁, h₁, h⟩ := runOps_append_ok.1 h
  obtain ⟨hm₁, ⟨i, hi, hstack₁⟩, hkeeps₁⟩ := he.firstOutput hp hne hm h₁
  obtain ⟨hm', ⟨items, hlen, hitems, hstack⟩, hkeeps⟩ := hes m₁ m' hm₁ h
  refine ⟨hm', ⟨i :: items, by simp [hlen], List.forall_mem_cons.2 ⟨hi, hitems⟩, ?_⟩, ?_⟩
  · rw [hstack, hstack₁]
    simp
  · rw [TypedExpr.createdAll_cons]
    exact hkeeps₁.trans hkeeps

/-! ### Outputs and components -/

/-- Taking an output of a bundle pops the bundle and pushes the part of this number, which is plain.
The type says that the value is a bundle and not a single item. -/
theorem ExprBalanced.output {e : TypedExpr} {k : Nat} {type : SocketType} {name : String} {t : Typing}
    {ops : List Op} (hp : e.varType.Proper) (hshape : e.shape = .bundle)
    (ht : t.varType = ⟨[type], [name], .single⟩) (h : ExprBalanced Γ e Γ' ops) :
    ExprBalanced Γ (.output e k t) Γ' (ops ++ [.getOutput k]) := by
  intro m m' hm hrun
  obtain ⟨m₁, h₁, hrun⟩ := runOps_append_ok.1 hrun
  obtain ⟨m₂, hget, hrun⟩ := runOps_cons_ok.1 hrun
  cases hrun
  obtain ⟨hm₁, hpushed, hkeeps⟩ := h m m₁ hm h₁
  have htwo : 2 ≤ e.types.length := hp.shape.1 hshape
  obtain ⟨i, hi, hstack⟩ := hpushed.exists_of_pos (by omega)
  obtain ⟨items, rfl, -, hitems⟩ := hi.exists_bundle htwo
  obtain ⟨items', rest, part, hs, hpart, rfl⟩ := getOutput_ok hget
  rw [hstack] at hs
  cases hs
  have htypes : (TypedExpr.output e k t).types = [type] := congrArg VarType.types ht
  have hframe : Frame m₁ { m₁ with stack := part :: m.stack } := ⟨rfl, rfl, rfl⟩
  have happends : Appends none m₁ { m₁ with stack := part :: m.stack } := .of_eq rfl rfl
  refine ⟨hm₁.frame hframe, ?_, hkeeps.then_frame hframe happends⟩
  rw [htypes]
  exact .inr ⟨part, .plain (hitems part (List.mem_of_getElem? hpart)), rfl⟩

/-- The temporary variable of a component is bound for the ops that read the component, and gone
after them. Nothing else is bound, so the state is tidy again. -/
theorem ExprBalanced.component {tree : TreeKind} {e : TypedExpr} {k : Component} {type : SocketType}
    {name : String} {t : Typing} {ops reading : List Op} {temp : String} (htemp : '#' ∈ temp.toList)
    (hp : e.varType.Proper) (hne : e.types ≠ []) (hk : k.Of tree type)
    (ht : t.varType = ⟨[Component.type], [name], .single⟩)
    (hreading : k.readOps tree temp = .ok reading) (h : ExprBalanced Γ e Γ' ops) :
    ExprBalanced Γ (.component e k t) Γ'
      (Lower.firstOutput e ops ++ .bindVar temp :: reading ++ [.destroyVar temp]) := by
  intro m m' hm hrun
  obtain ⟨m₃, hrun, hdestroy⟩ := runOps_append_ok.1 hrun
  obtain ⟨m₁, h₁, hrun⟩ := runOps_append_ok.1 hrun
  obtain ⟨m₂, hbind, hread⟩ := runOps_cons_ok.1 hrun
  obtain ⟨m₄, hdestroy, hend⟩ := runOps_cons_ok.1 hdestroy
  cases hend
  cases hdestroy
  obtain ⟨hm₁, ⟨i, hi, hstack₁⟩, hkeeps⟩ := h.firstOutput hp hne hm h₁
  obtain ⟨i', rest, hs, rfl⟩ := bindVar_ok hbind
  rw [hstack₁] at hs
  cases hs
  obtain ⟨⟨hframe, -⟩, j, hj, hstack⟩ := readOps_pushes (R := Eq) hk hreading hread
  have hread' := runOps_appends (Component.adds_readOps hreading)
    (m := { m₁ with stack := m.stack, env := m₁.env.insert temp i }) hread
  have happends : Appends none m₁ { m₃ with env := m₃.env.erase temp } :=
    ⟨hread'.tree, hread'.groups⟩
  have hsame : ∀ x, (m₃.env.erase temp).get? x = m₁.env.get? x := by
    intro x
    rw [hframe.env]
    exact get?_erase_insert (hm₁.temporaries temp htemp) i x
  have htypes : (TypedExpr.component e k t).types = [Component.type] := congrArg VarType.types ht
  refine ⟨hm₁.same hsame, ?_, hkeeps.then_same hsame hframe.outputs happends⟩
  rw [htypes]
  exact .inr ⟨j, .plain hj.plain, hstack⟩

/-! ### Nodes -/

/-- Arguments and the values that are pushed after them leave one plain item for each. A call has its
defaults there, and a node its empty inputs. -/
theorem ArgsBalanced.pushValues {es : List TypedExpr} {ops : List Op} (h : ArgsBalanced Γ es Γ' ops)
    (values : List (Option Constant)) {m m' : Machine} (hm : m.Tidy Γ)
    (hrun : runOps (ops ++ values.map .pushValue) m = .ok m') : m'.Tidy Γ' ∧
      (∃ items : List Item, items.length = es.length + values.length ∧ (∀ i ∈ items, i.Plain) ∧
        m'.stack = items.reverse ++ m.stack) ∧ Keeps (TypedExpr.createdAll es) m m' := by
  obtain ⟨m₁, h₁, hrun⟩ := runOps_append_ok.1 hrun
  rw [pushValues_run] at hrun
  cases hrun
  obtain ⟨hm₁, ⟨items, hlen, hitems, hstack⟩, hkeeps⟩ := h m m₁ hm h₁
  let values' := values.map itemOf
  have hframe : Frame m₁ { m₁ with stack := values'.reverse ++ m₁.stack } := ⟨rfl, rfl, rfl⟩
  have happends : Appends none m₁ { m₁ with stack := values'.reverse ++ m₁.stack } :=
    .of_eq rfl rfl
  refine ⟨hm₁.frame hframe, ⟨items ++ values', ?_, ?_, ?_⟩, hkeeps.then_frame hframe happends⟩
  · simp [values', hlen]
  · refine List.forall_mem_append.2 ⟨hitems, fun i hi => ?_⟩
    obtain ⟨o, -, rfl⟩ := List.mem_map.1 hi
    exact plain_itemOf o
  · simp [values', hstack]

/-- What is popped from a stack is what was pushed, if it is as much. -/
theorem popped_unique {args args' rest rest' : List Item}
    (h : args.reverse ++ rest = args'.reverse ++ rest') (hlen : args.length = args'.length) :
    args' = args ∧ rest' = rest := by
  obtain ⟨hrev, hrest⟩ := List.append_inj h (by simp [hlen])
  exact ⟨(List.reverse_injective hrev).symm, hrest.symm⟩

/-- A node pops an item for each of its inputs, those that were left out among them, and pushes one
for its outputs. It is fed plain items only. -/
theorem ExprBalanced.node {spec : NodeSpec} {args : List TypedExpr} {t : Typing} {ops : List Op}
    (hl : args.length ≤ spec.inputs.length) (h : ArgsBalanced Γ args Γ' ops) :
    ExprBalanced Γ (.node spec args t) Γ' (ops ++
      List.replicate (spec.inputs.length - args.length) (.pushValue none) ++
      [.callBuiltin spec t.types]) := by
  intro m m' hm hrun
  have hmissing : List.replicate (spec.inputs.length - args.length) (Op.pushValue none) =
      (List.replicate (spec.inputs.length - args.length) none).map .pushValue := by simp
  rw [hmissing] at hrun
  obtain ⟨m₁, hargs, hrun⟩ := runOps_append_ok.1 hrun
  obtain ⟨m₂, hcall, hend⟩ := runOps_cons_ok.1 hrun
  cases hend
  obtain ⟨hm₁, ⟨items, hlen, -, hstack⟩, hkeeps⟩ := h.pushValues _ hm hargs
  obtain ⟨args', rest, hs, hcount, hpushed⟩ := callBuiltin_pushes (R := Eq) hcall
  obtain ⟨rfl, rfl⟩ : args' = items ∧ rest = m.stack := by
    refine popped_unique (hstack.symm.trans hs) ?_
    rw [hlen, hcount, List.length_replicate]
    omega
  obtain ⟨hframe, -⟩ := runOp_silent hcall trivial
  have happends : Appends none m₁ m' := .callBuiltin hcall
  exact ⟨hm₁.frame hframe, pushedFor_of_pushedAs hpushed, hkeeps.then_frame hframe happends⟩

/-! ### Calls -/

section
variable {f : TypedFunction} {m m' : Machine} {args rest : List Item} {body : List Op}

/-- A function starts with its parameters bound to plain items and with nothing else, so its state is
tidy for the types of its parameters. -/
theorem tidy_params (hlen : args.length = f.inputs.length) (ha : ∀ i ∈ args, i.Plain)
    (hnames : ∀ p ∈ f.inputs, '#' ∉ p.name.toList)
    (henv : m.env = Table.ofList ((f.inputs.map (·.name)).zip args)) :
    m.Tidy (TypeEnv.empty.bindParams f.inputs) := by
  refine ⟨?_, ?_⟩
  · rw [henv]
    refine EnvHolds.params (.empty ∅) (List.forall₂_iff_get.2 ⟨hlen, fun k h₁ h₂ => ?_⟩)
    exact .plain (ha _ (List.get_mem ..))
  · rw [henv]
    refine NoTemporaries.empty.insertAll fun p hp => ?_
    obtain ⟨q, hq, hname⟩ := List.mem_map.1 (List.of_mem_zip hp).1
    exact hname ▸ hnames q hq

/-- A call of a function pops its arguments, runs the body with variables of its own, and pushes one
item for the outputs. The variables and outputs of the caller are as before. -/
theorem callFunction_balanced (hs : m.stack = args.reverse ++ rest)
    (hlen : args.length = f.inputs.length) (ha : ∀ i ∈ args, i.Plain)
    (hnames : ∀ p ∈ f.inputs, '#' ∉ p.name.toList)
    (hbody : StmtsBalanced (TypeEnv.empty.bindParams f.inputs) Γ' body)
    (h : m.callFunction (f.inputs.map (·.name)) f.outputs.length (runOps body) = .ok m') :
    PushedFor f.outputs.length rest m' ∧ m'.env = m.env ∧ m'.outputs = m.outputs ∧
      Appends none m m' := by
  obtain ⟨args', rest', inner, hs', hlen', hinner, rfl⟩ := callFunction_ok h
  obtain ⟨rfl, rfl⟩ : args' = args ∧ rest' = rest := by
    refine popped_unique (hs.symm.trans hs') ?_
    rw [hlen, hlen', List.length_map]
  let start : Machine := { m with
    stack := []
    env := Table.ofList ((f.inputs.map (·.name)).zip args')
    outputs := List.replicate f.outputs.length .empty }
  have hstart : start.Tidy (TypeEnv.empty.bindParams f.inputs) := tidy_params hlen ha hnames rfl
  have hempty : ∀ i ∈ start.outputs, i.Plain := fun i hi => .inl (List.eq_of_mem_replicate hi)
  obtain ⟨-, hplain, hcount, happends⟩ := hbody start inner hstart hempty hinner
  let back : Machine := { inner with stack := rest', env := m.env, outputs := m.outputs }
  have hback : Appends none m back := ⟨happends.tree, happends.groups⟩
  have hframe := pushOutputs_frame back inner.outputs
  refine ⟨?_, hframe.env, hframe.outputs, hback.pushOutputs _⟩
  have hpushed := pushedFor_pushOutputs (m := back) hplain
  rwa [hcount, List.length_replicate] at hpushed

/-- A call of a group pops its arguments and pushes one item for the outputs of the new node. The
body is run on a tree of its own, so nothing is asked of it. -/
theorem callGroup_balanced (hs : m.stack = args.reverse ++ rest)
    (hlen : args.length = f.inputs.length)
    (h : m.callGroup f.name f.inputs f.outputs (runOps body) = .ok m') :
    PushedFor f.outputs.length rest m' ∧ m'.env = m.env ∧ m'.outputs = m.outputs ∧
      Appends none m m' := by
  have happends : Appends none m m' := .callGroup (runOps_grows body).appendsGroups h
  obtain ⟨args', rest', groups, hs', hlen', -, rfl⟩ := callGroup_built h
  obtain ⟨rfl, rfl⟩ : args' = args ∧ rest' = rest :=
    popped_unique (hs.symm.trans hs') (hlen.trans hlen'.symm)
  let tree := (m.tree.push {
    id := m.tree.nodes.size
    key := m.tree.kind.groupKey
    group := some f.name }).feedAll m.tree.nodes.size (args'.mapIdx fun i item => (i, item))
  let outs := f.outputs.mapIdx fun i p => Item.socket ⟨m.tree.nodes.size, i, p.type⟩
  have hframe := pushOutputs_frame { m with stack := rest', groups, tree } outs
  have hplain : ∀ i ∈ outs, i.Plain := by
    intro i hi
    obtain ⟨k, hk, rfl⟩ := List.mem_mapIdx.1 hi
    exact Item.plain_socket _
  have hpushed := pushedFor_pushOutputs (m := { m with stack := rest', groups, tree }) hplain
  rw [List.length_mapIdx] at hpushed
  exact ⟨hpushed, hframe.env, hframe.outputs, happends⟩

end

/-- The call of a definition pushes one item for its outputs. A function keeps the state tidy if its
body does. A group's body has no part in it, as it is run in a tree of its own. -/
theorem ExprBalanced.call {f : TypedFunction} {args : List TypedExpr} {t : Typing}
    {ops body : List Op} {Γ₂ : TypeEnv} (hl : args.length ≤ f.inputs.length)
    (ht : t.types = f.outputs.map (·.type)) (hnames : ∀ p ∈ f.inputs, '#' ∉ p.name.toList)
    (hargs : ArgsBalanced Γ args Γ' ops)
    (hbody : StmtsBalanced (TypeEnv.empty.bindParams f.inputs) Γ₂ body) :
    ExprBalanced Γ (.call f args t) Γ'
      (ops ++ (f.inputs.drop args.length).map (fun p => .pushValue p.default) ++
        [Lower.callOp f.kind f.name f.inputs f.outputs body]) := by
  intro m m' hm hrun
  have hdefaults : (f.inputs.drop args.length).map (fun p => Op.pushValue p.default) =
      ((f.inputs.drop args.length).map (·.default)).map .pushValue := by
    rw [List.map_map]
    rfl
  rw [hdefaults] at hrun
  obtain ⟨m₁, hpush, hrun⟩ := runOps_append_ok.1 hrun
  obtain ⟨m₂, hcall, hend⟩ := runOps_cons_ok.1 hrun
  cases hend
  obtain ⟨hm₁, ⟨items, hlen, hitems, hstack⟩, hkeeps⟩ := hargs.pushValues _ hm hpush
  have hcount : items.length = f.inputs.length := by
    rw [hlen, List.length_map, List.length_drop]
    omega
  have hcalled : PushedFor f.outputs.length m.stack m' ∧ m'.env = m₁.env ∧ m'.outputs = m₁.outputs ∧
      Appends none m₁ m' := by
    unfold Lower.callOp at hcall
    cases hkind : f.kind with
    | function =>
      rw [hkind] at hcall
      exact callFunction_balanced hstack hcount hitems hnames hbody hcall
    | group =>
      rw [hkind] at hcall
      exact callGroup_balanced hstack hcount hcall
  obtain ⟨hpushed, henv, houtputs, happends⟩ := hcalled
  have hwidth : (TypedExpr.call f args t).types.length = f.outputs.length := by
    change t.types.length = _
    rw [ht, List.length_map]
  have hsame : ∀ x, m'.env.get? x = m₁.env.get? x := fun x => by rw [henv]
  rw [hwidth]
  exact ⟨hm₁.same hsame, hpushed, hkeeps.then_same hsame houtputs happends⟩

end NodeFormula

import NodeFormula.Proofs.Zones.Storing

/-!
# The zones of a run

A run of well-typed ops adds to the tree the zones that `TypedStmt.zonesAll` lists, in this order, and
builds the groups that are called. `Matches` says what the items of a zone are, and `Adds` that a run
adds zones which match given entries. The values in the run have their types up to a relation `R`.

This module has the cases of expressions, each from the statement for the parts of the expression.
-/

namespace NodeFormula

open Machine

variable {R : SocketType → SocketType → Prop}

/-! ### Zones that match entries -/

/-- The items of a zone are for the variables that its body assigns and that are in scope where it is
entered, and for those that it assigns and that were left behind. -/
def ZoneEntry.Carries (z : ZoneEntry) (items : List RepeatItem) : Prop :=
  ∀ x, x ∈ items.map (·.name) ↔ z.Assigns x ∧ (z.Visible x ∨ z.LeftBehind x)

/-- The items for variables in scope where a zone is entered have the types of the variables, up to
`R`. -/
def ZoneEntry.Types (R : SocketType → SocketType → Prop) (z : ZoneEntry)
    (items : List RepeatItem) : Prop :=
  ∀ item ∈ items, ∀ t, z.scope item.name = some t → ∃ τ, t.types = [τ] ∧ R item.type τ

/-- The items of a zone are those for the variables that it carries, with their types. -/
structure Matches (R : SocketType → SocketType → Prop) (z : ZoneEntry) (items : List RepeatItem) :
    Prop where
  names : z.Carries items
  types : z.Types R items

/-- The zones of a tree are those that entries list. -/
def NodeTree.HasZones (R : SocketType → SocketType → Prop) (t : NodeTree)
    (entries : List ZoneEntry) : Prop :=
  List.Forall₂ (Matches R) entries t.zoneItems

/-- A run adds zones that match entries to its tree, and builds groups among those that are called. -/
structure Adds (R : SocketType → SocketType → Prop) (tree : TreeKind) (entries : List ZoneEntry)
    (called : List TypedFunction) (m m' : Machine) : Prop where
  zones : ∃ new, m'.tree.zoneItems = m.tree.zoneItems ++ new ∧ List.Forall₂ (Matches R) entries new
  groups : ∀ g ∈ m'.groups, g ∈ m.groups ∨
    ∃ f ∈ called, f.name = g.name ∧ g.HasZones R (f.zones tree)

namespace Adds

variable {tree : TreeKind} {entries entries' : List ZoneEntry} {called called' : List TypedFunction}
  {m m' m₁ : Machine}

theorem of_quiet (h : Quiet m m') : Adds R tree [] [] m m' := by
  refine ⟨⟨[], ?_, .nil⟩, fun g hg => .inl (h.groups ▸ hg)⟩
  rw [h.zones, List.append_nil]

/-- What two runs in a row add is what the first adds and then what the second does, zones and groups
alike. -/
theorem trans (h₁ : Adds R tree entries called m m₁) (h₂ : Adds R tree entries' called' m₁ m') :
    Adds R tree (entries ++ entries') (called ++ called') m m' := by
  obtain ⟨new₁, hzones₁, hmatch₁⟩ := h₁.zones
  obtain ⟨new₂, hzones₂, hmatch₂⟩ := h₂.zones
  refine ⟨⟨new₁ ++ new₂, ?_, List.rel_append hmatch₁ hmatch₂⟩, fun g hg => ?_⟩
  · rw [hzones₂, hzones₁, List.append_assoc]
  · rcases h₂.groups g hg with hg | ⟨f, hf, hname, hhas⟩
    · rcases h₁.groups g hg with hg | ⟨f, hf, hname, hhas⟩
      · exact .inl hg
      · exact .inr ⟨f, List.mem_append_left _ hf, hname, hhas⟩
    · exact .inr ⟨f, List.mem_append_right _ hf, hname, hhas⟩

theorem then_quiet (h : Adds R tree entries called m m₁) (hquiet : Quiet m₁ m') :
    Adds R tree entries called m m' := by
  have hall := h.trans (of_quiet hquiet)
  rwa [List.append_nil, List.append_nil] at hall

theorem after_quiet (h : Adds R tree entries called m₁ m') (hquiet : Quiet m m₁) :
    Adds R tree entries called m m' := (of_quiet hquiet).trans h

end Adds

/-! ### Expressions -/

/-- The ops of an expression enter the zones of the expression, keep the types of variables and push a
value of its types. -/
def ExprTraces (R : SocketType → SocketType → Prop) (S : Setting) (Γ : TypeEnv) (e : TypedExpr)
    (Γ' : TypeEnv) (ops : List Op) : Prop :=
  ∀ w m m', Agrees S Γ w m → EnvFits R Γ m.env → runOps ops m = .ok m' →
    EnvFits R Γ' m'.env ∧ PushedAs R e.types m.stack m' ∧
      Adds R S.tree (e.zones S.tree) e.groups m m'

/-- The ops of arguments push values of the types of their first outputs. -/
def ArgsTrace (R : SocketType → SocketType → Prop) (S : Setting) (Γ : TypeEnv) (es : List TypedExpr)
    (Γ' : TypeEnv) (ops : List Op) : Prop :=
  ∀ w m m', Agrees S Γ w m → EnvFits R Γ m.env → runOps ops m = .ok m' →
    EnvFits R Γ' m'.env ∧
      (∃ items : List Item, m'.stack = items.reverse ++ m.stack ∧
        List.Forall₂ (fun i (e : TypedExpr) => ∀ τ, e.types.head? = some τ → i.TypedAs R τ)
          items es) ∧
      Adds R S.tree (TypedExpr.zonesAll S.tree es) (TypedExpr.groupsAll es) m m'

variable {S : Setting} {Γ Γ' Γ₁ : TypeEnv}

/-- A constant is a value of its own type and enters no zone. -/
theorem ExprTraces.constant [Std.Refl R] {v : Constant} {t : Typing}
    (ht : t.varType = .value v.type) :
    ExprTraces R S Γ (.constant v t) Γ [.pushValue (some v)] := by
  intro w m m' _ henv h
  obtain ⟨m₁, hpush, h⟩ := runOps_cons_ok.1 h
  cases h
  cases hpush
  have htypes : (TypedExpr.constant v t).types = [v.type] := congrArg VarType.types ht
  refine ⟨henv, ?_, .of_quiet ⟨rfl, rfl⟩⟩
  rw [htypes]
  exact .inr ⟨_, .single (.of_eq rfl), rfl⟩

/-- A variable in scope is what the environment holds for it, of its type up to the relation. -/
theorem ExprTraces.var {x : String} {t : Typing} (hx : Γ x = some t.varType) :
    ExprTraces R S Γ (.var x false t) Γ [.getVar x] := by
  intro w m m' _ henv h
  obtain ⟨m₁, hget, h⟩ := runOps_cons_ok.1 h
  cases h
  obtain ⟨i, hi, rfl⟩ := getVar_ok hget
  obtain ⟨i', hi', hfits⟩ := henv x t.varType hx
  rw [hi] at hi'
  cases hi'
  exact ⟨henv, .inr ⟨i, hfits, rfl⟩, .of_quiet ⟨rfl, rfl⟩⟩

/-- The first use of a free variable binds it to a new float, and reads it. -/
theorem ExprTraces.free [Std.Refl R] {x : String} {t : Typing} (ht : t.varType = .value .float) :
    ExprTraces R S Γ (.var x true t) (Γ.bind x (.value .float)) [.createVar x, .getVar x] := by
  intro w m m' _ henv h
  obtain ⟨m₁, hcreate, h⟩ := runOps_cons_ok.1 h
  obtain ⟨m₂, hget, h⟩ := runOps_cons_ok.1 h
  cases h
  obtain rfl := createVar_ok hcreate
  obtain ⟨i, hi, rfl⟩ := getVar_ok hget
  rw [Table.get?_insert, if_pos rfl] at hi
  cases hi
  have htypes : (TypedExpr.var x true t).types = [.float] := congrArg VarType.types ht
  refine ⟨henv.insert (.single (.of_eq rfl)), ?_, .of_quiet ⟨NodeTree.zoneItems_push _ rfl, rfl⟩⟩
  rw [htypes]
  exact .inr ⟨_, .single (.of_eq rfl), rfl⟩

/-! ### Arguments -/

/-- Taking the first output of an expression's value enters the zones that the expression does, and
leaves one item of the first type up to the relation. -/
theorem ExprTraces.firstOutput {e : TypedExpr} {ops : List Op} {τ : SocketType}
    (hp : e.varType.Proper) (hτ : e.types.head? = some τ) (h : ExprTraces R S Γ e Γ' ops)
    {w : Widths} {m m' : Machine} (hm : Agrees S Γ w m) (henv : EnvFits R Γ m.env)
    (hrun : runOps (Lower.firstOutput e ops) m = .ok m') :
    EnvFits R Γ' m'.env ∧ (∃ i, i.TypedAs R τ ∧ m'.stack = i :: m.stack) ∧
      Adds R S.tree (e.zones S.tree) e.groups m m' := by
  rw [← firstOutput_append] at hrun
  obtain ⟨m₁, h₁, hfirst⟩ := runOps_append_ok.1 hrun
  obtain ⟨henv₁, hpushed, hadds⟩ := h w m m₁ hm henv h₁
  obtain ⟨⟨hframe, hquiet⟩, i, hi, hstack⟩ := firstOutput_pushes hp hτ hpushed hfirst
  exact ⟨hframe.env ▸ henv₁, ⟨i, hi, hstack⟩, hadds.then_quiet hquiet⟩

theorem ArgsTrace.nil : ArgsTrace R S Γ [] Γ [] := by
  intro w m m' _ henv h
  cases h
  exact ⟨henv, ⟨[], rfl, .nil⟩, .of_quiet (quiet_refl _)⟩

/-- The first argument and the others enter their zones one after the other, and each leaves the one
item that its type asks for. -/
theorem ArgsTrace.cons {e : TypedExpr} {es : List TypedExpr} {ops more : List Op}
    (hp : e.varType.Proper) (hne : e.types ≠ []) (hrun : ExprRuns S Γ e Γ₁ ops)
    (he : ExprTraces R S Γ e Γ₁ ops) (hes : ArgsTrace R S Γ₁ es Γ' more) :
    ArgsTrace R S Γ (e :: es) Γ' (Lower.firstOutput e ops ++ more) := by
  intro w m m' hm henv h
  obtain ⟨τ, hτ⟩ := TypedExpr.exists_head? hne
  obtain ⟨m₁, h₁, h⟩ := runOps_append_ok.1 h
  obtain ⟨w₁, -, hm₁, -⟩ := ((hrun.firstOutput hp hne).2 w m hm).of_ok h₁
  obtain ⟨henv₁, ⟨i, hi, hstack₁⟩, hadds₁⟩ := he.firstOutput hp hτ hm henv h₁
  obtain ⟨henv', ⟨items, hstack, hitems⟩, hadds⟩ := hes w₁ m₁ m' hm₁ henv₁ h
  have hfirst : ∀ σ, e.types.head? = some σ → i.TypedAs R σ := by
    intro σ hσ
    rw [hτ] at hσ
    cases hσ
    exact hi
  refine ⟨henv', ⟨i :: items, ?_, .cons hfirst hitems⟩, hadds₁.trans hadds⟩
  rw [hstack, hstack₁]
  simp

/-! ### Outputs and components -/

/-- Taking an output of a bundle enters the zones that the bundle does, and gives an item of the
output's type. -/
theorem ExprTraces.output {e : TypedExpr} {k : Nat} {type : SocketType} {name : String} {t : Typing}
    {ops : List Op} (hp : e.varType.Proper) (hshape : e.shape = .bundle)
    (hk : e.types[k]? = some type) (ht : t.varType = ⟨[type], [name], .single⟩)
    (h : ExprTraces R S Γ e Γ' ops) :
    ExprTraces R S Γ (.output e k t) Γ' (ops ++ [.getOutput k]) := by
  intro w m m' hm henv hrun
  obtain ⟨m₁, h₁, hrun⟩ := runOps_append_ok.1 hrun
  obtain ⟨m₂, hget, hrun⟩ := runOps_cons_ok.1 hrun
  cases hrun
  obtain ⟨henv₁, hpushed, hadds⟩ := h w m m₁ hm henv h₁
  have htwo : 2 ≤ e.types.length := hp.shape.1 hshape
  obtain ⟨i, hi, hstack⟩ := hpushed.exists_of_ne (List.ne_nil_of_length_pos (by omega))
  obtain ⟨items, rfl, hitems⟩ := hi.exists_bundle htwo
  obtain ⟨items', rest, part, hs, hpart, rfl⟩ := getOutput_ok hget
  rw [hstack] at hs
  cases hs
  have htypes : (TypedExpr.output e k t).types = [type] := congrArg VarType.types ht
  refine ⟨henv₁, ?_, hadds.then_quiet ⟨rfl, rfl⟩⟩
  rw [htypes]
  exact .inr ⟨part, .single (typedAs_getElem? hitems hpart hk), rfl⟩

/-- A temporary variable is not in scope. -/
theorem Agrees.not_mem_temporary (hS : S.Runnable) {w : Widths} {m : Machine}
    (hm : Agrees S Γ w m) {temp : String} (htemp : '#' ∈ temp.toList) : Γ temp = none := by
  by_contra hne
  obtain ⟨t, ht⟩ := Option.ne_none_iff_exists'.1 hne
  exact hS.not_spelled htemp (hm.vars temp t ht).1

/-- Reading a component enters the zones that the vector does. The temporary variable that holds the
vector is gone behind it. -/
theorem ExprTraces.component [Std.Refl R] (hS : S.Runnable) {e : TypedExpr} {k : Component}
    {type : SocketType} {name : String} {t : Typing} {ops reading : List Op} {temp : String}
    (htemp : '#' ∈ temp.toList) (hp : e.varType.Proper) (hh : e.types.head? = some type)
    (hk : k.Of S.tree type) (ht : t.varType = ⟨[Component.type], [name], .single⟩)
    (hreading : k.readOps S.tree temp = .ok reading) (hruns : ExprRuns S Γ e Γ' ops)
    (h : ExprTraces R S Γ e Γ' ops) :
    ExprTraces R S Γ (.component e k t) Γ'
      (Lower.firstOutput e ops ++ .bindVar temp :: reading ++ [.destroyVar temp]) := by
  intro w m m' hm henv hrun
  have hne : e.types ≠ [] := by
    intro hnil
    rw [hnil] at hh
    cases hh
  obtain ⟨m₃, hrun, hdestroy⟩ := runOps_append_ok.1 hrun
  obtain ⟨m₁, h₁, hrun⟩ := runOps_append_ok.1 hrun
  obtain ⟨m₂, hbind, hread⟩ := runOps_cons_ok.1 hrun
  obtain ⟨m₄, hdestroy, hend⟩ := runOps_cons_ok.1 hdestroy
  cases hend
  cases hdestroy
  obtain ⟨w₁, -, hm₁, -⟩ := ((hruns.firstOutput hp hne).2 w m hm).of_ok h₁
  obtain ⟨henv₁, ⟨i, hi, hstack₁⟩, hadds⟩ := h.firstOutput hp hh hm henv h₁
  obtain ⟨i', rest, hs, rfl⟩ := bindVar_ok hbind
  rw [hstack₁] at hs
  cases hs
  obtain ⟨⟨hframe, hquiet⟩, j, hj, hstack⟩ := readOps_pushes (R := R) hk hreading hread
  have hscope := hm₁.not_mem_temporary hS htemp
  have htypes : (TypedExpr.component e k t).types = [Component.type] := congrArg VarType.types ht
  refine ⟨?_, ?_, hadds.then_quiet ⟨hquiet.zones, hquiet.groups⟩⟩
  · change EnvFits R Γ' (m₃.env.erase temp)
    rw [hframe.env]
    exact (henv₁.insert_other hscope).erase_other hscope
  · rw [htypes]
    exact .inr ⟨j, .single hj, hstack⟩

/-! ### Nodes -/

/-- A node enters the zones that its arguments do and builds no zone itself. Its outputs have the
types that the node is called with. -/
theorem ExprTraces.node [Std.Refl R] {node : NodeSpec} {args : List TypedExpr} {t : Typing}
    {ops : List Op} (hl : args.length ≤ node.inputs.length) (h : ArgsTrace R S Γ args Γ' ops) :
    ExprTraces R S Γ (.node node args t) Γ' (ops ++
      List.replicate (node.inputs.length - args.length) (.pushValue none) ++
      [.callBuiltin node t.types]) := by
  intro w m m' hm henv hrun
  obtain ⟨m₂, hrun, hcall⟩ := runOps_append_ok.1 hrun
  obtain ⟨m₁, h₁, hmissing⟩ := runOps_append_ok.1 hrun
  obtain ⟨m₃, hcall, hend⟩ := runOps_cons_ok.1 hcall
  cases hend
  obtain ⟨henv₁, ⟨items, hstack₁, hitems⟩, hadds⟩ := h w m m₁ hm henv h₁
  have hpushes : List.replicate (node.inputs.length - args.length) (Op.pushValue none) =
      (List.replicate (node.inputs.length - args.length) none).map .pushValue := by simp
  rw [hpushes, pushValues_run] at hmissing
  cases hmissing
  obtain ⟨hframe, hquiet⟩ := runOp_silent hcall trivial
  obtain ⟨args', rest, hs, hlen, hpushed⟩ := callBuiltin_pushes (R := R) hcall
  -- The node takes the arguments and the empty items, so what is left is the stack from before.
  have hrest : rest = m.stack := by
    have hs' : (items ++ (List.replicate (node.inputs.length - args.length) none).map
        itemOf).reverse ++ m.stack = args'.reverse ++ rest := by
      rw [← hs]
      simp [hstack₁]
    refine (List.append_inj_right hs' ?_).symm
    have hcount : items.length = args.length := hitems.length_eq
    simp only [List.length_reverse, List.length_append, List.length_map, List.length_replicate]
    omega
  rw [hrest] at hpushed
  refine ⟨?_, hpushed, hadds.then_quiet ⟨hquiet.zones, hquiet.groups⟩⟩
  rw [hframe.env]
  exact henv₁

/-! ### Calls -/

/-- The ops of a definition's body enter its zones, and set outputs to values of the given types. -/
def BodyTraces (R : SocketType → SocketType → Prop) (S : Setting) (types : List SocketType)
    (f : TypedFunction) (ops : List Op) : Prop :=
  ∀ m m', EnvAgrees S.spelled (Widths.ofParams f.inputs) m.env → GroupsRun S m.groups →
    EnvFits R (TypeEnv.empty.bindParams f.inputs) m.env → m.outputs.length = f.outputs.length →
    OutputsFit R types m.outputs → runOps ops m = .ok m' →
      OutputsFit R types m'.outputs ∧
        Adds R S.tree (f.zones S.tree) (TypedStmt.groupsAll f.body) m m'

/-- An item of one type is a single value. -/
theorem Item.TypedAs.single {i : Item} {τ : SocketType} (h : i.TypedAs R τ) : i.Single := by
  obtain ⟨ρ, hρ, -⟩ := h
  cases i with
  | empty | bundle => cases hρ
  | constant v => exact .constant v
  | socket s => exact .socket s

/-- Arguments that are passed along `R` have the types of the parameters up to `R`. -/
theorem typedAs_args [DecidableRel R] [IsTrans SocketType R] {items : List Item}
    {es : List TypedExpr} {inputs : List TypedParam}
    (hitems : List.Forall₂ (fun i (e : TypedExpr) => ∀ τ, e.types.head? = some τ → i.TypedAs R τ)
      items es)
    (hfeeds : FeedsAll es (inputs.map (·.type)))
    (halong : argsAlong R es (inputs.map (·.type)) = true) :
    List.Forall₂ (fun i (p : TypedParam) => i.TypedAs R p.type) items (inputs.take es.length) := by
  induction hitems generalizing inputs with
  | nil => exact .nil
  | @cons i e items es hi _ ih =>
    cases inputs with
    | nil => exact hfeeds.elim
    | cons p inputs =>
      obtain ⟨⟨⟨τ, hτ, -⟩, -⟩, hfeeds⟩ := hfeeds
      rw [List.map_cons, argsAlong, hτ, Bool.and_eq_true] at halong
      have hR : R τ p.type := by simpa using halong.1
      exact .cons ((hi τ hτ).trans hR) (ih hfeeds halong.2)

/-- Defaults have the types of their parameters, because a default was converted when the definition
was checked. So they may stand in for arguments. -/
theorem typedAs_defaults [Std.Refl R] {inputs : List TypedParam}
    (hd : ∀ p ∈ inputs, ∃ v, p.default = some v)
    (htypes : ∀ p ∈ inputs, ∀ v, p.default = some v → v.type = p.type) :
    List.Forall₂ (fun i (p : TypedParam) => i.TypedAs R p.type)
      ((inputs.map (·.default)).map itemOf) inputs := by
  induction inputs with
  | nil => exact .nil
  | cons p inputs ih =>
    obtain ⟨v, hv⟩ := hd p (.head _)
    refine .cons ?_ (ih (fun q hq => hd q (.tail _ hq)) fun q hq => htypes q (.tail _ hq))
    change (itemOf p.default).TypedAs R p.type
    rw [hv]
    exact .of_eq (congrArg some (htypes p (.head _) v hv))

theorem single_of_typedAs {args : List Item} {inputs : List TypedParam}
    (h : List.Forall₂ (fun i (p : TypedParam) => i.TypedAs R p.type) args inputs) :
    ∀ i ∈ args, i.Single := by
  induction h with
  | nil => exact List.forall_mem_nil _
  | cons hi _ ih => exact List.forall_mem_cons.2 ⟨hi.single, ih⟩

/-- No output is set where a body starts. -/
theorem outputsFit_replicate (types : List SocketType) (n : Nat) :
    OutputsFit R types (List.replicate n .empty) := by
  intro k i τ hi _
  exact .inl (List.eq_of_mem_replicate (List.mem_of_getElem? hi))

/-- Outputs that are all set have their types. -/
theorem OutputsFit.typedAs {types : List SocketType} {outputs : List Item}
    (h : OutputsFit R types outputs) (hlen : outputs.length = types.length)
    (hsingle : ∀ i ∈ outputs, i.Single) : List.Forall₂ (Item.TypedAs R) outputs types := by
  refine List.forall₂_iff_get.2 ⟨hlen, fun k h₁ h₂ => ?_⟩
  have hi : (outputs.get ⟨k, h₁⟩).Single := hsingle _ (List.get_mem ..)
  rcases h k _ _ (List.getElem?_eq_getElem h₁) (List.getElem?_eq_getElem h₂) with hempty | htyped
  · rw [List.get_eq_getElem, hempty] at hi
    cases hi
  · exact htyped

section
variable {f : TypedFunction} {m m' : Machine} {args rest : List Item} {body : List Op}

/-- A call of a function runs its body in the caller's tree, so the zones of the body are added to
this tree. The variables of the caller are as before. -/
theorem callFunction_traces (hs : m.stack = args.reverse ++ rest)
    (hargs : List.Forall₂ (fun i (p : TypedParam) => i.TypedAs R p.type) args f.inputs)
    (hgroups : GroupsRun S m.groups) (hruns : BodyRuns S f body)
    (hbody : BodyTraces R S (f.outputs.map (·.type)) f body)
    (h : m.callFunction (f.inputs.map (·.name)) f.outputs.length (runOps body) = .ok m') :
    m'.env = m.env ∧ PushedAs R (f.outputs.map (·.type)) rest m' ∧
      Adds R S.tree (f.zones S.tree) (TypedStmt.groupsAll f.body) m m' := by
  obtain ⟨args', rest', inner, hs', hlen, hinner, rfl⟩ := callFunction_ok h
  have hcount : args.length = f.inputs.length := hargs.length_eq
  obtain ⟨rfl, rfl⟩ : args' = args ∧ rest' = rest := by
    rw [hs] at hs'
    rw [List.length_map] at hlen
    obtain ⟨hrev, hrest⟩ := List.append_inj hs' (by simp [hlen, hcount])
    exact ⟨(List.reverse_injective hrev).symm, hrest.symm⟩
  let start : Machine := { m with
    stack := []
    env := Table.ofList ((f.inputs.map (·.name)).zip args')
    outputs := List.replicate f.outputs.length .empty }
  have henv : EnvAgrees S.spelled (Widths.ofParams f.inputs) start.env := by
    refine envAgrees_params S.spelled ?_ fun p hp =>
      single_of_typedAs hargs _ (List.of_mem_zip hp).2
    rw [List.map_fst_zip]
    simp [hcount]
  have hfits : EnvFits R (TypeEnv.empty.bindParams f.inputs) start.env :=
    EnvFits.params (fun _ _ hx => by cases hx) hargs
  obtain ⟨-, -, -, hcount', hsingle⟩ :=
    (hruns start henv hgroups List.length_replicate).of_ok hinner
  obtain ⟨houtputs, hadds⟩ := hbody start inner henv hgroups hfits List.length_replicate
    (outputsFit_replicate _ _) hinner
  have hframe := pushOutputs_frame
    { inner with stack := rest', env := m.env, outputs := m.outputs } inner.outputs
  refine ⟨hframe.env, ?_, ?_⟩
  · exact pushedAs_pushOutputs
      (m := { inner with stack := rest', env := m.env, outputs := m.outputs })
      (houtputs.typedAs (by rw [hcount', List.length_map]) hsingle)
  · refine Adds.then_quiet (hadds.after_quiet (m := m) ⟨rfl, rfl⟩) ⟨?_, hframe.groups⟩
    rw [pushOutputs_tree]

/-- A group that is built has the zones of its definition, whatever its arguments are, since its body
starts from the sockets of its input node. The same holds of the groups that its body builds. -/
theorem buildGroup_traces (hgroups : GroupsRun S m.groups) (hbody : BodyTraces R S [] f body)
    [Std.Refl R] (h : m.buildGroup f.name f.inputs f.outputs (runOps body) = .ok m') :
    ∀ g ∈ m'.groups, g ∈ m.groups ∨ ∃ f' ∈ TypedStmt.groupsAll f.body ++ [f],
      f'.name = g.name ∧ g.HasZones R (f'.zones S.tree) := by
  obtain ⟨inner, hinner, rfl⟩ := buildGroup_ok h
  let start := m.groupStart f.name f.inputs f.outputs
  have henv : EnvAgrees S.spelled (Widths.ofParams f.inputs) start.env := by
    refine envAgrees_params S.spelled ?_ fun p hp => ?_
    · apply List.ext_getElem <;> simp
    · obtain ⟨k, hk, rfl⟩ := List.mem_mapIdx.1 hp
      exact .socket _
  have hfits : EnvFits R (TypeEnv.empty.bindParams f.inputs) start.env := by
    have hzip : f.inputs.mapIdx (fun i p => (p.name, Item.socket ⟨0, i, p.type⟩)) =
        (f.inputs.map (·.name)).zip (f.inputs.mapIdx fun i p => Item.socket ⟨0, i, p.type⟩) := by
      apply List.ext_getElem <;> simp
    change EnvFits R _ (Table.ofList _)
    rw [hzip]
    refine EnvFits.params (fun _ _ hx => by cases hx) (List.forall₂_iff_get.2 ⟨by simp, ?_⟩)
    intro k h₁ h₂
    simp only [List.get_eq_getElem, List.getElem_mapIdx]
    exact .of_eq rfl
  have hnone : OutputsFit R [] start.outputs := fun _ _ _ _ h => by cases h
  obtain ⟨-, hzones, hinnerGroups⟩ :=
    hbody start inner henv hgroups hfits List.length_replicate hnone hinner
  intro g hg
  rcases List.mem_append.1 hg with hg | hg
  · rcases hinnerGroups g hg with hg | ⟨f', hf', hname, hhas⟩
    · exact .inl hg
    · exact .inr ⟨f', List.mem_append_left _ hf', hname, hhas⟩
  · cases List.mem_singleton.1 hg
    refine .inr ⟨f, List.mem_append_right _ (.head _), ?_, ?_⟩
    · rw [NodeTree.name_feedAll]
      exact (runOps_extends body start inner hinner).name.symm
    · obtain ⟨new, hnew, hmatch⟩ := hzones
      have hstart : start.tree.zoneItems = [] := rfl
      rw [NodeTree.HasZones, NodeTree.zoneItems_feedAll, hnew, hstart]
      exact hmatch

/-- A call of a group adds no zone to the caller's tree. The groups that its body calls are built
first, and then the group itself. -/
theorem callGroup_traces [Std.Refl R] (hs : m.stack = args.reverse ++ rest)
    (hlen : args.length = f.inputs.length) (hgroups : GroupsRun S m.groups)
    (hbody : BodyTraces R S [] f body)
    (h : m.callGroup f.name f.inputs f.outputs (runOps body) = .ok m') :
    m'.env = m.env ∧ PushedAs R (f.outputs.map (·.type)) rest m' ∧
      Adds R S.tree [] (TypedStmt.groupsAll f.body ++ [f]) m m' := by
  obtain ⟨args', rest', groups, hs', hlen', hbuilt, rfl⟩ := callGroup_built h
  obtain ⟨rfl, rfl⟩ : args' = args ∧ rest' = rest := by
    rw [hs] at hs'
    obtain ⟨hrev, hrest⟩ := List.append_inj hs' (by simp [hlen, hlen'])
    exact ⟨(List.reverse_injective hrev).symm, hrest.symm⟩
  let tree := (m.tree.push {
    id := m.tree.nodes.size
    key := m.tree.kind.groupKey
    group := some f.name }).feedAll m.tree.nodes.size (args'.mapIdx fun i item => (i, item))
  let outs := f.outputs.mapIdx fun i p => Item.socket ⟨m.tree.nodes.size, i, p.type⟩
  have hframe := pushOutputs_frame { m with stack := rest', groups, tree } outs
  have htyped : List.Forall₂ (Item.TypedAs R) outs (f.outputs.map (·.type)) := by
    refine List.forall₂_iff_get.2 ⟨by simp [outs], fun k h₁ h₂ => ?_⟩
    simp only [outs, List.get_eq_getElem, List.getElem_mapIdx, List.getElem_map]
    exact .of_eq rfl
  have hzones : tree.zoneItems = m.tree.zoneItems :=
    (NodeTree.zoneItems_feedAll ..).trans (NodeTree.zoneItems_push _ rfl)
  refine ⟨hframe.env, pushedAs_pushOutputs (m := { m with stack := rest', groups, tree }) htyped,
    ⟨[], ?_, .nil⟩, fun g hg => ?_⟩
  · rw [List.append_nil, ← hzones]
    exact congrArg NodeTree.zoneItems (pushOutputs_tree ..)
  · have hg' : g ∈ groups := (congrArg (g ∈ ·) hframe.groups).mp hg
    rcases hbuilt with ⟨rfl, -⟩ | hbuild
    · exact .inl hg'
    · exact buildGroup_traces (m := { m with stack := rest' }) hgroups hbody hbuild g hg'

end

/-- The call of a definition. A function passes values on, while the arguments and outputs of a group
are sockets of the group's own types. -/
theorem ExprTraces.call [DecidableRel R] [Std.Refl R] [IsTrans SocketType R] {f : TypedFunction}
    {args : List TypedExpr} {t : Typing} {ops body : List Op}
    (hfeeds : FeedsAll args (f.inputs.map (·.type)))
    (hd : ∀ p ∈ f.inputs.drop args.length, ∃ v, p.default = some v)
    (hdefaults : ∀ p ∈ f.inputs, ∀ v, p.default = some v → v.type = p.type)
    (ht : t.types = f.outputs.map (·.type)) (hruns : ArgsRun S Γ args Γ' ops)
    (hargs : ArgsTrace R S Γ args Γ' ops) (hbodyRuns : BodyRuns S f body)
    (halong : argsAlong R args (f.kind.passed f.inputs) = true)
    (hbody : BodyTraces R S (f.kind.passed f.outputs) f body) :
    ExprTraces R S Γ (.call f args t) Γ'
      (ops ++ (f.inputs.drop args.length).map (fun p => .pushValue p.default) ++
        [Lower.callOp f.kind f.name f.inputs f.outputs body]) := by
  intro w m m' hm henv hrun
  obtain ⟨m₂, hrun, hcall⟩ := runOps_append_ok.1 hrun
  obtain ⟨m₁, h₁, hpushes⟩ := runOps_append_ok.1 hrun
  obtain ⟨m₃, hcall, hend⟩ := runOps_cons_ok.1 hcall
  cases hend
  obtain ⟨w₁, -, hm₁, -⟩ := (hruns.runs w m hm).of_ok h₁
  obtain ⟨henv₁, ⟨items, hstack₁, hitems⟩, hadds⟩ := hargs w m m₁ hm henv h₁
  have hmap : (f.inputs.drop args.length).map (fun p => Op.pushValue p.default) =
      ((f.inputs.drop args.length).map (·.default)).map .pushValue := by
    rw [List.map_map]
    rfl
  rw [hmap, pushValues_run] at hpushes
  cases hpushes
  let defaults := ((f.inputs.drop args.length).map (·.default)).map itemOf
  have hstack : (defaults.reverse ++ m₁.stack) = (items ++ defaults).reverse ++ m.stack := by
    simp [hstack₁]
  have hcount : (items ++ defaults).length = f.inputs.length := by
    have hlen : items.length = args.length := hitems.length_eq
    have hle : args.length ≤ f.inputs.length := by simpa using hfeeds.length_le
    simp only [defaults, List.length_append, List.length_map, List.length_drop, hlen]
    omega
  change EnvFits R Γ' m'.env ∧ PushedAs R t.types m.stack m' ∧ _
  rw [ht]
  obtain ⟨name, kind, inputs, outputs, stmts⟩ := f
  cases kind with
  | function =>
    have htyped : List.Forall₂ (fun i (p : TypedParam) => i.TypedAs R p.type) (items ++ defaults)
        inputs := by
      rw [← List.take_append_drop args.length inputs]
      exact List.rel_append (typedAs_args hitems hfeeds halong)
        (typedAs_defaults hd fun p hp => hdefaults p (List.mem_of_mem_drop hp))
    obtain ⟨hcallEnv, hpushed, hcalls⟩ := callFunction_traces
      (m := { m₁ with stack := defaults.reverse ++ m₁.stack }) hstack htyped hm₁.groups hbodyRuns
      hbody hcall
    refine ⟨hcallEnv ▸ henv₁, hpushed, ?_⟩
    have hall := hadds.trans (hcalls.after_quiet (m := m₁) ⟨rfl, rfl⟩)
    rw [TypedExpr.groups, List.append_nil]
    exact hall
  | group =>
    obtain ⟨hcallEnv, hpushed, hcalls⟩ := callGroup_traces
      (m := { m₁ with stack := defaults.reverse ++ m₁.stack }) hstack hcount hm₁.groups
      hbody hcall
    refine ⟨hcallEnv ▸ henv₁, hpushed, ?_⟩
    have hall := hadds.trans (hcalls.after_quiet (m := m₁) ⟨rfl, rfl⟩)
    rw [TypedExpr.groups, List.append_assoc]
    exact hall

end NodeFormula

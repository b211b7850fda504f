import NodeFormula.Proofs.Zones.Values

/-!
# Values at the boundaries of functions

Where the machine's type of a value may part from the formula's: at an argument and at an output of a
function, which take values of other types without converting them, and where one assignment names a
variable twice, since the machine keeps the first part for it and the formula goes on with the last.
`TypedStmt.allAlong R` says that at all these places the types are related by `R`.

The steps that store values keep the types of variables and outputs up to such a relation.
-/

namespace NodeFormula

open Machine

/-! ### Formulas that pass values along a relation -/

/-- The types of the parameters or outputs of a definition that take values as they are. Those of a
group are sockets, which convert what is linked to them. -/
def DefKind.passed : DefKind → List TypedParam → List SocketType
  | .function, params => params.map (·.type)
  | .group, _ => []

section
variable (R : SocketType → SocketType → Prop) [DecidableRel R]

/-- Arguments have the types of parameters up to `R`. -/
def argsAlong : List TypedExpr → List SocketType → Bool
  | [], _ => true
  | _ :: _, [] => true
  | e :: es, p :: ps => e.types.head?.all (R · p) && argsAlong es ps

/-- A target takes a part of the given type along `R`: an output gets its type, and a variable that is
named again among the later targets the type of the later part. -/
def targetAlong (outputs : List SocketType) (part : SocketType)
    (later : List (TypedTarget × SocketType)) : TypedTarget → Bool
  | .var x => later.all fun p => p.1 ≠ .var x || R part p.2
  | .output k => outputs[k]?.all (R part ·)
  | .ignore => true

/-- Targets take parts of the given types along `R`. -/
def targetsAlong (outputs : List SocketType) : List TypedTarget → List SocketType → Bool
  | [], _ => true
  | _ :: _, [] => true
  | target :: targets, part :: parts =>
    targetAlong R outputs part (targets.zip parts) target && targetsAlong outputs targets parts

/-- The types that targets take of a value: a single target takes the value, or its first part, and
several take one part each. -/
def TypedExpr.takenTypes (tree : TreeKind) (e : TypedExpr) : List TypedTarget → List SocketType
  | [_] => e.types.take 1
  | _ => e.partTypes tree

theorem TypedExpr.takenTypes_of_length_ne_one {tree : TreeKind} {e : TypedExpr}
    {targets : List TypedTarget} (h : targets.length ≠ 1) :
    e.takenTypes tree targets = e.partTypes tree := by
  unfold TypedExpr.takenTypes
  split
  · exact absurd rfl h
  · rfl

mutual

/-- The functions that an expression calls take and give values along `R`. -/
def TypedExpr.along (tree : TreeKind) : TypedExpr → Bool
  | .constant _ _ => true
  | .var _ _ _ => true
  | .node _ args _ => TypedExpr.allAlong tree args
  | .call ⟨_, kind, inputs, outputs, body⟩ args _ => TypedExpr.allAlong tree args &&
    argsAlong R args (kind.passed inputs) && TypedStmt.allAlong tree (kind.passed outputs) body
  | .output e _ _ => TypedExpr.along tree e
  | .component e _ _ => TypedExpr.along tree e

/-- The functions that expressions call take and give values along `R`. -/
def TypedExpr.allAlong (tree : TreeKind) :
    List TypedExpr → Bool
  | [] => true
  | e :: es => TypedExpr.along tree e && TypedExpr.allAlong tree es

/-- A statement passes values along `R`, in a function with outputs of the given types. -/
def TypedStmt.along (tree : TreeKind)
    (outputs : List SocketType) : TypedStmt → Bool
  | .expr e => TypedExpr.along tree e
  | .assign targets e =>
    TypedExpr.along tree e && targetsAlong R outputs targets (e.takenTypes tree targets)
  | .setField _ _ _ value => TypedExpr.along tree value
  | .zone count body => TypedExpr.along tree count && TypedStmt.allAlong tree outputs body

/-- Statements pass values along `R`, in a function with outputs of the given types. -/
def TypedStmt.allAlong (tree : TreeKind)
    (outputs : List SocketType) : List TypedStmt → Bool
  | [] => true
  | s :: ss => TypedStmt.along tree outputs s && TypedStmt.allAlong tree outputs ss

end

end

/-! ### A relation that holds of all types -/

section
variable {R : SocketType → SocketType → Prop} [DecidableRel R]

/-- A relation that holds of all types holds at the arguments of calls, however many there are. With
such a relation nothing is asked of a formula. -/
theorem argsAlong_of_forall (hR : ∀ a b, R a b) (es : List TypedExpr) (ps : List SocketType) :
    argsAlong R es ps = true := by
  induction es generalizing ps with
  | nil => rfl
  | cons e es ih =>
    cases ps with
    | nil => rfl
    | cons p ps =>
      rw [argsAlong, ih, Bool.and_true]
      cases e.types.head? with
      | none => rfl
      | some τ => exact decide_eq_true (hR τ p)

/-- A relation that holds of all types holds at the targets of assignments. -/
theorem targetsAlong_of_forall (hR : ∀ a b, R a b) (outputs : List SocketType)
    (targets : List TypedTarget) (parts : List SocketType) :
    targetsAlong R outputs targets parts = true := by
  induction targets generalizing parts with
  | nil => rfl
  | cons target targets ih =>
    cases parts with
    | nil => rfl
    | cons part parts =>
      rw [targetsAlong, ih, Bool.and_true]
      cases target with
      | var x => simp [targetAlong, hR]
      | output k =>
        rw [targetAlong]
        cases outputs[k]? with
        | none => rfl
        | some τ => exact decide_eq_true (hR part τ)
      | ignore => rfl

mutual

theorem TypedExpr.along_of_forall (hR : ∀ a b, R a b) (tree : TreeKind) :
    (e : TypedExpr) → e.along R tree = true
  | .constant _ _ | .var _ _ _ => rfl
  | .node _ args _ => TypedExpr.allAlong_of_forall hR tree args
  | .call ⟨_, kind, inputs, outputs, body⟩ args _ => by
    rw [TypedExpr.along, TypedExpr.allAlong_of_forall hR tree args, argsAlong_of_forall hR,
      TypedStmt.allAlong_of_forall hR tree _ body]
    rfl
  | .output e _ _ | .component e _ _ => TypedExpr.along_of_forall hR tree e

theorem TypedExpr.allAlong_of_forall (hR : ∀ a b, R a b) (tree : TreeKind) :
    (es : List TypedExpr) → TypedExpr.allAlong R tree es = true
  | [] => rfl
  | e :: es => by
    rw [TypedExpr.allAlong, TypedExpr.along_of_forall hR tree e,
      TypedExpr.allAlong_of_forall hR tree es]
    rfl

/-- Every statement passes values along a relation that holds of all types, by induction on the
statement. -/
theorem TypedStmt.along_of_forall (hR : ∀ a b, R a b) (tree : TreeKind)
    (outputs : List SocketType) : (s : TypedStmt) → s.along R tree outputs = true
  | .expr e | .setField _ _ _ e => TypedExpr.along_of_forall hR tree e
  | .assign targets e => by
    rw [TypedStmt.along, TypedExpr.along_of_forall hR tree e, targetsAlong_of_forall hR]
    rfl
  | .zone count body => by
    rw [TypedStmt.along, TypedExpr.along_of_forall hR tree count,
      TypedStmt.allAlong_of_forall hR tree outputs body]
    rfl

/-- Every formula passes values along a relation that holds of all types. -/
theorem TypedStmt.allAlong_of_forall (hR : ∀ a b, R a b) (tree : TreeKind)
    (outputs : List SocketType) : (ss : List TypedStmt) → TypedStmt.allAlong R tree outputs ss = true
  | [] => rfl
  | s :: ss => by
    rw [TypedStmt.allAlong, TypedStmt.along_of_forall hR tree outputs s,
      TypedStmt.allAlong_of_forall hR tree outputs ss]
    rfl

end

end

/-! ### The first output of a value -/

variable {R : SocketType → SocketType → Prop} {m m' : Machine}
  {Γ : TypeEnv}

/-- A value that is reduced to its first output has the type of that output, up to the relation. A
single value is left as it is, and of a bundle one op takes the first part. -/
theorem firstOutput_pushes {e : TypedExpr} {τ : SocketType} {stack : List Item}
    (hp : e.varType.Proper) (hτ : e.types.head? = some τ) (hpushed : PushedAs R e.types stack m)
    (h : runOps (Lower.firstOutput e []) m = .ok m') :
    (Frame m m' ∧ Quiet m m') ∧ ∃ i, i.TypedAs R τ ∧ m'.stack = i :: stack := by
  have hne : e.types ≠ [] := by
    intro hnil
    rw [hnil] at hτ
    cases hτ
  obtain ⟨i, hi, hstack⟩ := hpushed.exists_of_ne hne
  unfold Lower.firstOutput at h
  cases hshape : e.shape with
  | single =>
    rw [hshape] at h
    cases h
    obtain ⟨σ, hσ⟩ := List.length_eq_one_iff.1 (hp.length_eq_one hshape hne)
    have htypes : e.types = [σ] := hσ
    rw [htypes] at hi hτ
    cases hτ
    exact ⟨⟨.refl _, quiet_refl _⟩, i, hi.typedAs_of_one, hstack⟩
  | bundle =>
    rw [hshape] at h
    have htwo : 2 ≤ e.types.length := hp.shape.1 hshape
    obtain ⟨items, rfl, hitems⟩ := hi.exists_bundle htwo
    have hrun : runOps [.getOutput 0] m = .ok m' := h
    refine ⟨runOps_silent hrun (List.forall_mem_cons.2 ⟨trivial, List.forall_mem_nil _⟩), ?_⟩
    obtain ⟨m₁, hget, hend⟩ := runOps_cons_ok.1 hrun
    cases hend
    obtain ⟨items', rest, part, hs, hpart, rfl⟩ := getOutput_ok hget
    rw [hstack] at hs
    cases hs
    rw [List.head?_eq_getElem?] at hτ
    exact ⟨part, typedAs_getElem? hitems hpart hτ, rfl⟩

/-! ### Storing -/

/-- The machine after a target takes an item. -/
def Machine.storeItem (m : Machine) (i : Item) : TypedTarget → Machine
  | .var x => { m with env := m.env.insert x i }
  | .output k => { m with outputs := m.outputs.set k i }
  | .ignore => m

theorem Machine.stack_storeItem (m : Machine) (i : Item) (target : TypedTarget) :
    (m.storeItem i target).stack = m.stack := by
  cases target <;> rfl

theorem quiet_storeItem (m : Machine) (i : Item) (target : TypedTarget) :
    Quiet m (m.storeItem i target) := by
  cases target <;> exact ⟨rfl, rfl⟩

theorem store_ok {target : TypedTarget} (h : runOp (Lower.store target) m = .ok m') :
    ∃ i rest, m.stack = i :: rest ∧ m' = ({ m with stack := rest } : Machine).storeItem i target := by
  cases target with
  | var x => exact bindVar_ok h
  | output k => exact setFunctionOut_ok h
  | ignore => exact runOp_pop_ok h

/-- A variable that targets bind has the type of its last part, and any other the type it had. Which
of the two it is does not depend on the environment. The induction is on the targets. -/
theorem TypeEnv.storeParts_cases (targets : List TypedTarget)
    (parts : List SocketType) (x : String) :
    (∃ p ∈ targets.zip parts, p.1 = .var x ∧
      ∀ Γ : TypeEnv, Γ.storeParts targets parts x = some (.value p.2)) ∨
    ∀ Γ : TypeEnv, Γ.storeParts targets parts x = Γ x := by
  induction targets generalizing parts with
  | nil => exact .inr fun _ => rfl
  | cons target targets ih =>
    cases parts with
    | nil => exact .inr fun _ => rfl
    | cons part parts =>
      rcases ih parts with ⟨p, hp, hx, hall⟩ | hall
      · exact .inl ⟨p, .tail _ hp, hx, fun Γ => hall _⟩
      · by_cases htarget : target = .var x
        · subst htarget
          refine .inl ⟨(.var x, part), .head _, rfl, fun Γ => (hall _).trans ?_⟩
          exact TypeEnv.bind_self ..
        · refine .inr fun Γ => (hall _).trans ?_
          cases target with
          | output | ignore => rfl
          | var y =>
            refine TypeEnv.bind_of_ne ?_
            rintro rfl
            exact htarget rfl

/-- Whether a variable is the same after targets take parts depends on what it was alone. -/
theorem TypeEnv.storeParts_congr {Γ₁ Γ₂ : TypeEnv} (targets : List TypedTarget)
    (parts : List SocketType) {x : String} (h : Γ₁ x = Γ₂ x) :
    Γ₁.storeParts targets parts x = Γ₂.storeParts targets parts x := by
  rcases TypeEnv.storeParts_cases targets parts x with ⟨p, -, -, hall⟩ | hall
  · rw [hall, hall]
  · rw [hall, hall, h]

/-- A step stores values: it enters no zone, and variables and outputs have values of their types. -/
structure Stored (R : SocketType → SocketType → Prop) (types : List SocketType) (Γ : TypeEnv)
    (m m' : Machine) : Prop where
  env : EnvFits R Γ m'.env
  outputs : OutputsFit R types m'.outputs
  quiet : Quiet m m'

/-- A quiet step may be put in front of a store. -/
theorem Stored.after {types : List SocketType} {m₁ : Machine} (h : Stored R types Γ m₁ m')
    (hquiet : Quiet m m₁) : Stored R types Γ m m' :=
  ⟨h.env, h.outputs, quiet_trans hquiet h.quiet⟩

section
variable {types : List SocketType} {target : TypedTarget} {targets : List TypedTarget}
  {e : TypedExpr} {i : Item} {rest stack : List Item}

/-- A variable takes a value of its type, and an output a part of a type that is related to its own. -/
theorem store_stored {t : VarType} (hs : m.stack = i :: rest) (henv : EnvFits R Γ m.env)
    (houtputs : OutputsFit R types m.outputs) (hvar : ∀ x, target = .var x → i.Fits R t.types)
    (hout : ∀ k, target = .output k → ∀ τ, types[k]? = some τ → i.TypedAs R τ)
    (h : runOp (Lower.store target) m = .ok m') : Stored R types (Γ.store t target) m m' := by
  obtain ⟨i', rest', hs', rfl⟩ := store_ok h
  rw [hs] at hs'
  cases hs'
  have hquiet := quiet_storeItem { m with stack := rest } i target
  refine ⟨?_, ?_, hquiet.zones, hquiet.groups⟩
  · cases target with
    | var x => exact henv.insert (hvar x rfl)
    | output | ignore => exact henv
  · cases target with
    | output k => exact houtputs.set (hout k rfl)
    | var | ignore => exact houtputs

theorem targetAlong_output [DecidableRel R] {part τ : SocketType} {k : Nat}
    {later : List (TypedTarget × SocketType)}
    (h : targetAlong R types part later (.output k) = true) (hτ : types[k]? = some τ) : R part τ := by
  rw [targetAlong, hτ] at h
  simpa using h

theorem targetAlong_var [DecidableRel R] {part : SocketType} {x : String}
    {p : TypedTarget × SocketType} {later : List (TypedTarget × SocketType)}
    (h : targetAlong R types part later (.var x) = true) (hp : p ∈ later) (hx : p.1 = .var x) :
    R part p.2 := by
  simpa [hx] using List.all_eq_true.1 h p hp

/-- The machine goes on with the first part of a variable, and the formula with the last. -/
theorem EnvFits.insertPart [DecidableRel R] [IsTrans SocketType R] {env : Table String Item}
    {x : String} {part : SocketType} {parts : List SocketType}
    (henv : EnvFits R (Γ.storeParts targets parts) env) (hi : i.TypedAs R part)
    (halong : targetAlong R types part (targets.zip parts) (.var x) = true) :
    EnvFits R (Γ.storeParts (.var x :: targets) (part :: parts)) (env.insert x i) := by
  intro y u hy
  rw [Table.get?_insert]
  by_cases hyx : y = x
  · subst hyx
    refine ⟨i, if_pos rfl, ?_⟩
    rcases TypeEnv.storeParts_cases targets parts y with ⟨p, hp, hvar, hall⟩ | hall
    · rw [TypeEnv.storeParts, hall] at hy
      cases hy
      exact .single (hi.trans (targetAlong_var halong hp hvar))
    · rw [TypeEnv.storeParts, hall, TypeEnv.store, TypeEnv.bind_self] at hy
      cases hy
      exact .single hi
  · rw [if_neg hyx]
    refine henv y u (Eq.trans ?_ hy)
    exact TypeEnv.storeParts_congr targets parts (TypeEnv.bind_of_ne hyx).symm

/-- Targets take typed parts from the stack, the last target first, so a variable that stands there
twice keeps its first part. Its type is that of the last one, to which the first is related. The
induction is on the targets. -/
theorem storeParts_stores [DecidableRel R] [IsTrans SocketType R] {items : List Item}
    {parts : List SocketType} (hlen : targets.length = items.length)
    (hitems : List.Forall₂ (Item.TypedAs R) items (parts.take targets.length))
    (halong : targetsAlong R types targets parts = true) (hs : m.stack = items.reverse ++ rest)
    (henv : EnvFits R Γ m.env) (houtputs : OutputsFit R types m.outputs)
    (h : runOps (targets.reverse.map Lower.store) m = .ok m') :
    m'.stack = rest ∧ Stored R types (Γ.storeParts targets parts) m m' := by
  induction targets generalizing items parts rest m' with
  | nil =>
    cases List.length_eq_zero_iff.1 hlen.symm
    cases h
    exact ⟨hs, henv, houtputs, quiet_refl _⟩
  | cons target targets ih =>
    rcases items with _ | ⟨i, items⟩
    · cases hlen
    rcases parts with _ | ⟨part, parts⟩
    · cases hitems
    cases hitems with
    | cons hi hitems =>
      rw [targetsAlong, Bool.and_eq_true] at halong
      rw [List.reverse_cons, List.map_append] at h
      obtain ⟨m₁, h₁, h⟩ := runOps_append_ok.1 h
      obtain ⟨hs₁, hstored⟩ := ih (Nat.succ.inj hlen) hitems halong.2 (by simpa using hs) h₁
      obtain ⟨m₂, hstore, h⟩ := runOps_cons_ok.1 h
      cases h
      obtain ⟨i', rest', hs', rfl⟩ := store_ok hstore
      rw [hs₁] at hs'
      cases hs'
      have hquiet := quiet_storeItem { m₁ with stack := rest } i target
      refine ⟨stack_storeItem .., ?_, ?_, quiet_trans hstored.quiet ⟨hquiet.zones, hquiet.groups⟩⟩
      · cases target with
        | output | ignore => exact hstored.env
        | var x => exact hstored.env.insertPart hi halong.1
      · cases target with
        | var | ignore => exact hstored.outputs
        | output k =>
          exact hstored.outputs.set fun τ hτ => hi.trans (targetAlong_output halong.1 hτ)

/-- Several pops take as many items off the stack, and nothing else of the machine changes. The
induction is on their number. -/
theorem pops_ok {n : Nat} (h : runOps (List.replicate n .pop) m = .ok m') :
    m' = { m with stack := m.stack.drop n } := by
  induction n generalizing m with
  | zero =>
    cases h
    rfl
  | succ n ih =>
    obtain ⟨m₁, hpop, h⟩ := runOps_cons_ok.1 h
    obtain ⟨i, rest, hs, rfl⟩ := runOp_pop_ok hpop
    rw [ih h, hs]
    rfl

/-- Targets take the parts of a bundle, and the parts that are left over are dropped before, as they
are on top of the stack. -/
theorem unpackOps_stores [DecidableRel R] [IsTrans SocketType R] {items : List Item}
    {parts : List SocketType} (hitems : List.Forall₂ (Item.TypedAs R) items parts)
    (hlen : targets.length ≤ parts.length) (halong : targetsAlong R types targets parts = true)
    (hs : m.stack = .bundle items :: rest) (henv : EnvFits R Γ m.env)
    (houtputs : OutputsFit R types m.outputs)
    (h : runOps (unpackOps targets parts.length) m = .ok m') :
    Stored R types (Γ.storeParts targets parts) m m' := by
  obtain ⟨m₁, hsplit, h⟩ := runOps_cons_ok.1 h
  obtain ⟨items', rest', hs', rfl⟩ := splitBundle_ok hsplit
  rw [hs] at hs'
  cases hs'
  obtain ⟨m₂, hpops, h⟩ := runOps_append_ok.1 h
  obtain rfl := pops_ok hpops
  have hlen' : items.length = parts.length := hitems.length_eq
  have hdrop : (items.reverse ++ rest).drop (parts.length - targets.length) =
      (items.take targets.length).reverse ++ rest := by
    rw [List.drop_append_of_le_length (by simp [hlen']), List.drop_reverse]
    congr 3
    omega
  have hstored := (storeParts_stores (m := { m with
      stack := (items.reverse ++ rest).drop (parts.length - targets.length) })
    (by rw [List.length_take]; omega) (List.forall₂_take _ hitems) halong hdrop henv houtputs h).2
  exact hstored.after ⟨rfl, rfl⟩

/-! ### Assignments -/

/-- A single target takes a value. A variable takes all of it, and an output of the definition the
first part, of a type that is related to the declared one. -/
theorem storeOne_stores [DecidableRel R] [IsTrans SocketType R] {tree : TreeKind} {storing : List Op}
    (hp : e.varType.Proper) (hne : e.types ≠ [])
    (hstoring : Lower.storeAll tree e [target] = .ok storing)
    (halong : targetsAlong R types [target] (e.takenTypes tree [target]) = true)
    (hpushed : PushedAs R e.types stack m) (henv : EnvFits R Γ m.env)
    (houtputs : OutputsFit R types m.outputs) (h : runOps storing m = .ok m') :
    Stored R types (Γ.store e.varType target) m m' := by
  obtain ⟨i, hi, hs⟩ := hpushed.exists_of_ne hne
  have hwhole : (∀ k, target ≠ .output k) → storing = [Lower.store target] →
      Stored R types (Γ.store e.varType target) m m' := by
    rintro hno rfl
    obtain ⟨m₁, hstore, h⟩ := runOps_cons_ok.1 h
    cases h
    exact store_stored (t := e.varType) hs henv houtputs (fun _ _ => hi)
      (fun k hk => absurd hk (hno k)) hstore
  cases target with
  | var x =>
    cases hstoring
    exact hwhole (fun _ => TypedTarget.noConfusion) rfl
  | ignore =>
    cases hstoring
    exact hwhole (fun _ => TypedTarget.noConfusion) rfl
  | output k =>
    cases hstoring
    obtain ⟨τ, hτ⟩ := TypedExpr.exists_head? hne
    obtain ⟨m₁, hfirst, h⟩ := runOps_append_ok.1 h
    obtain ⟨⟨hframe, hquiet⟩, j, hj, hs₁⟩ := firstOutput_pushes hp hτ hpushed hfirst
    obtain ⟨m₂, hstore, h⟩ := runOps_cons_ok.1 h
    cases h
    rw [← hframe.env] at henv
    rw [← hframe.outputs] at houtputs
    have htake : e.takenTypes tree [.output k] = [τ] := by
      rw [TypedExpr.takenTypes, List.take_one, hτ]
      rfl
    rw [htake, targetsAlong, Bool.and_eq_true] at halong
    have hout : ∀ k', TypedTarget.output k = .output k' → ∀ σ, types[k']? = some σ →
        j.TypedAs R σ := by
      intro k' hk' σ hσ
      cases hk'
      exact hj.trans (targetAlong_output halong.1 hσ)
    have hstored : Stored R types (Γ.store e.varType (.output k)) m₁ m' :=
      store_stored hs₁ henv houtputs (fun _ => TypedTarget.noConfusion) hout hstore
    exact hstored.after hquiet

/-- Several targets take the parts of a value, which is split first if it is a single one. Then its
parts are sockets of the node that splits, of the types that the node says. -/
theorem storeAll_stores [DecidableRel R] [Std.Refl R] [IsTrans SocketType R] {tree : TreeKind}
    {storing : List Op} {parts : List SocketType} (hp : e.varType.Proper) (hne : e.types ≠ [])
    (hlen : targets.length ≠ 1) (hle : targets.length ≤ parts.length) (hu : Unpacks tree e parts)
    (hstoring : Lower.storeAll tree e targets = .ok storing)
    (halong : targetsAlong R types targets parts = true) (hpushed : PushedAs R e.types stack m)
    (henv : EnvFits R Γ m.env) (houtputs : OutputsFit R types m.outputs)
    (h : runOps storing m = .ok m') : Stored R types (Γ.storeParts targets parts) m m' := by
  obtain ⟨i, hi, hs⟩ := hpushed.exists_of_ne hne
  rcases targets with _ | ⟨a, _ | ⟨b, targets⟩⟩
  · cases hstoring
    cases h
    exact ⟨henv, houtputs, quiet_refl _⟩
  · exact absurd rfl hlen
  cases hu with
  | bundle hshape =>
    simp only [Lower.storeAll, hshape] at hstoring
    cases hstoring
    obtain ⟨items, rfl, hitems⟩ := hi.exists_bundle (hp.shape.1 hshape)
    exact unpackOps_stores hitems hle halong hs henv houtputs h
  | @single type split hshape hh hsplit =>
    simp only [Lower.storeAll, hshape, hh, hsplit] at hstoring
    cases hstoring
    obtain ⟨m₁, hop, h⟩ := runOps_cons_ok.1 h
    obtain ⟨hframe, hquiet⟩ := runOp_silent hop trivial
    obtain ⟨items, hs₁, hitems⟩ := split_pushes (R := R) hsplit hs hop
    have hparts : split.outputs.length = split.outputTypes.length := by simp [Overload.outputTypes]
    rw [hparts] at h
    have hstored := unpackOps_stores hitems hle halong hs₁ (hframe.env ▸ henv)
      (hframe.outputs ▸ houtputs) h
    exact hstored.after hquiet

/-- The ops that store a constant are those of the node that holds it and of the target. -/
theorem Lower.assignConstant_eq {tree : TreeKind} {names : List String} {v : Constant} {ops : List Op}
    (h : Lower.assignConstant tree names [target] v = .ok ops) :
    (target = .ignore ∧ ops = []) ∨ ∃ name input, tree.constantInput name v = .ok input ∧
      ops = input ++ [Lower.store target] := by
  cases target with
  | var x =>
    obtain ⟨input, hinput, hops⟩ := run_bind_ok.1 h
    cases hops
    exact .inr ⟨x, input, hinput, rfl⟩
  | output k =>
    simp only [Lower.assignConstant] at h
    split at h
    next => cases h
    next name _ =>
      obtain ⟨input, hinput, hops⟩ := run_bind_ok.1 h
      cases hops
      exact .inr ⟨name, input, hinput, rfl⟩
  | ignore =>
    cases h
    exact .inl ⟨rfl, rfl⟩

/-- A target takes a constant from the node that holds it, as a socket of the constant's type. The
target that drops its value adds no node. -/
theorem assignConstant_stores [DecidableRel R] [Std.Refl R] [IsTrans SocketType R] {v : Constant}
    {names : List String} {ops : List Op}
    (hops : Lower.assignConstant .geometry names [target] v = .ok ops)
    (halong : targetsAlong R types [target] [v.type] = true) (henv : EnvFits R Γ m.env)
    (houtputs : OutputsFit R types m.outputs) (h : runOps ops m = .ok m') :
    Stored R types (Γ.store (.value v.type) target) m m' := by
  rcases Lower.assignConstant_eq hops with ⟨rfl, rfl⟩ | ⟨name, input, hinput, rfl⟩
  · cases h
    exact ⟨henv, houtputs, quiet_refl _⟩
  · obtain ⟨m₁, hconstant, h⟩ := runOps_append_ok.1 h
    obtain ⟨⟨hframe, hquiet⟩, i, hi, hs⟩ := constantInput_pushes (R := R) hinput hconstant
    obtain ⟨m₂, hstore, h⟩ := runOps_cons_ok.1 h
    cases h
    rw [← hframe.env] at henv
    rw [← hframe.outputs] at houtputs
    rw [targetsAlong, Bool.and_eq_true] at halong
    have hout : ∀ k, target = .output k → ∀ σ, types[k]? = some σ → i.TypedAs R σ := by
      rintro k rfl σ hσ
      exact hi.trans (targetAlong_output halong.1 hσ)
    have hstored := store_stored (t := .value v.type) hs henv houtputs (fun _ _ => .single hi)
      hout hstore
    exact hstored.after hquiet

end

end NodeFormula

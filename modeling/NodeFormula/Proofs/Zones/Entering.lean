import NodeFormula.Proofs.Running.Simulation
import NodeFormula.Proofs.Zones.Tracing

/-!
# Entering zones

The cases of statements for the zones of a run, of which the zone itself is the one that matters. A
zone carries the variables that its body binds and that stand for a single socket where it is entered.
A variable in scope which the body assigns is such a variable (`BlockTyped.single_of_bound`), so what a
zone carries beyond these is left behind by an earlier zone.

`BlockTyped.traces` is the result for blocks, by induction over the typed statements.
-/

namespace NodeFormula

open Machine

variable {R : SocketType → SocketType → Prop} {S : Setting} {Γ Γ' Γ₁ : TypeEnv}
  {types : List SocketType}

/-! ### Expressions and assignments -/

/-- The ops of statements enter the given zones, and keep the types of variables and outputs. -/
def StmtsTrace (R : SocketType → SocketType → Prop) (S : Setting) (types : List SocketType)
    (Γ : TypeEnv) (zones : Widths → List ZoneEntry) (called : List TypedFunction) (Γ' : TypeEnv)
    (ops : List Op) : Prop :=
  ∀ w m m', Agrees S Γ w m → m.outputs.length = S.outputs.length → EnvFits R Γ m.env →
    OutputsFit R types m.outputs → runOps ops m = .ok m' →
      EnvFits R Γ' m'.env ∧ OutputsFit R types m'.outputs ∧ Adds R S.tree (zones w) called m m'

/-- The ops of a statement enter its zones. -/
abbrev StmtTraces (R : SocketType → SocketType → Prop) (S : Setting) (types : List SocketType)
    (Γ : TypeEnv) (s : TypedStmt) (Γ' : TypeEnv) (ops : List Op) : Prop :=
  StmtsTrace R S types Γ (s.zones S.tree Γ ·) s.groups Γ' ops

/-- The ops of a block enter its zones. -/
abbrev BlockTraces (R : SocketType → SocketType → Prop) (S : Setting) (types : List SocketType)
    (Γ : TypeEnv) (ss : List TypedStmt) (Γ' : TypeEnv) (ops : List Op) : Prop :=
  StmtsTrace R S types Γ (TypedStmt.zonesAll S.tree Γ · ss) (TypedStmt.groupsAll ss) Γ' ops

theorem runOps_endOfStatement {m m' : Machine} (h : runOps [.endOfStatement] m = .ok m') :
    m' = { m with stack := [] } := by
  cases h
  rfl

/-- A statement that is an expression enters the zones that the expression does, and clears the
stack. -/
theorem StmtTraces.expr {e : TypedExpr} {ops : List Op} (hruns : ExprRuns S Γ e Γ' ops)
    (h : ExprTraces R S Γ e Γ' ops) :
    StmtTraces R S types Γ (.expr e) Γ' (ops ++ [.endOfStatement]) := by
  intro w m m' hm _ henv houtputs hrun
  obtain ⟨m₁, h₁, hend⟩ := runOps_append_ok.1 hrun
  obtain rfl := runOps_endOfStatement hend
  obtain ⟨-, -, -, -, houts⟩ := (hruns.runs w m hm).of_ok h₁
  obtain ⟨henv', -, hadds⟩ := h w m m₁ hm henv h₁
  exact ⟨henv', houts ▸ houtputs, hadds.then_quiet ⟨rfl, rfl⟩⟩

/-- An assignment whose targets take the value from the stack enters the zones that its value does.
Storing enters none, and the end of the statement clears the stack. -/
theorem StmtTraces.assign {targets : List TypedTarget} {e : TypedExpr} {ops storing : List Op}
    (hruns : ExprRuns S Γ e Γ₁ ops) (h : ExprTraces R S Γ e Γ₁ ops)
    (hstore : ∀ stack m m', PushedAs R e.types stack m → EnvFits R Γ₁ m.env →
      OutputsFit R types m.outputs → runOps storing m = .ok m' → Stored R types Γ' m m') :
    StmtTraces R S types Γ (.assign targets e) Γ' (ops ++ storing ++ [.endOfStatement]) := by
  intro w m m' hm _ henv houtputs hrun
  obtain ⟨m₂, hrun, hend⟩ := runOps_append_ok.1 hrun
  obtain ⟨m₁, h₁, hstoring⟩ := runOps_append_ok.1 hrun
  obtain rfl := runOps_endOfStatement hend
  obtain ⟨-, -, -, -, houts⟩ := (hruns.runs w m hm).of_ok h₁
  obtain ⟨henv₁, hpushed, hadds⟩ := h w m m₁ hm henv h₁
  have hstored := hstore m.stack m₁ m₂ hpushed henv₁ (houts ▸ houtputs) hstoring
  refine ⟨hstored.env, hstored.outputs, ?_⟩
  exact hadds.then_quiet ⟨hstored.quiet.zones, hstored.quiet.groups⟩

/-- Assigning a constant enters no zone, and the variable or output holds an item of the constant's
type. -/
theorem StmtTraces.assignConstant [DecidableRel R] [Std.Refl R] [IsTrans SocketType R]
    {target : TypedTarget} {v : Constant} {t : Typing} {names : List String} {ops : List Op}
    (hv : t.varType = .value v.type)
    (hops : Lower.assignConstant .geometry names [target] v = .ok ops)
    (halong : targetsAlong R types [target] [v.type] = true) :
    StmtTraces R S types Γ (.assign [target] (.constant v t)) (Γ.store t.varType target)
      (ops ++ [.endOfStatement]) := by
  intro w m m' _ _ henv houtputs hrun
  obtain ⟨m₁, h₁, hend⟩ := runOps_append_ok.1 hrun
  obtain rfl := runOps_endOfStatement hend
  have hstored := assignConstant_stores hops halong henv houtputs h₁
  rw [hv]
  exact ⟨hstored.env, hstored.outputs, .of_quiet ⟨hstored.quiet.zones, hstored.quiet.groups⟩⟩

/-- Writing a component enters the zones that its value does. The variable is bound to the rebuilt
vector, and the temporary variables are gone behind it. -/
theorem StmtTraces.setField [Std.Refl R] (hS : S.Runnable) {x : String} {t : Typing} {k : Component}
    {type : SocketType} {value : TypedExpr} {ops writing : List Op} {object temp : String}
    (hobject : '#' ∈ object.toList) (htemp : '#' ∈ temp.toList) (hx : Γ' x = some t.varType)
    (htypes : t.types = [type]) (hk : k.Of S.tree type) (hp : value.varType.Proper)
    (hne : value.types ≠ []) (hwriting : k.writeOps S.tree x object temp = .ok writing)
    (hruns : ExprRuns S Γ value Γ' ops) (h : ExprTraces R S Γ value Γ' ops) :
    StmtTraces R S types Γ (.setField x (.var x false t) k value) Γ'
      (Lower.firstOutput value ops ++ .bindVar temp :: [.getVar x] ++ .bindVar object :: writing ++
        [.destroyVar temp, .destroyVar object, .endOfStatement]) := by
  intro w m m' hm _ henv houtputs hrun
  obtain ⟨τ, hτ⟩ := TypedExpr.exists_head? hne
  obtain ⟨m₅, hrun, hend⟩ := runOps_append_ok.1 hrun
  obtain ⟨m₃, hrun, hwrite⟩ := runOps_append_ok.1 hrun
  obtain ⟨m₁, h₁, hrun⟩ := runOps_append_ok.1 hrun
  obtain ⟨w₁, -, hm₁, -, houts⟩ := ((hruns.firstOutput hp hne).2 w m hm).of_ok h₁
  obtain ⟨henv₁, -, hadds⟩ := h.firstOutput hp hτ hm henv h₁
  have hnoTemp := hm₁.not_mem_temporary hS htemp
  have hnoObject := hm₁.not_mem_temporary hS hobject
  obtain ⟨m₂, hbind, hrun⟩ := runOps_cons_ok.1 hrun
  obtain ⟨m₂', hget, hrun⟩ := runOps_cons_ok.1 hrun
  cases hrun
  obtain ⟨m₄, hbindObject, hwrite⟩ := runOps_cons_ok.1 hwrite
  obtain ⟨i, _, -, rfl⟩ := bindVar_ok hbind
  obtain ⟨_, -, rfl⟩ := getVar_ok hget
  obtain ⟨old, _, -, rfl⟩ := bindVar_ok hbindObject
  obtain ⟨b, j, hj, henv₅, houts₅, hquiet⟩ := writeOps_binds (R := R) hk hwriting hwrite
  cases hend
  refine ⟨?_, ?_, hadds.then_quiet ⟨hquiet.zones, hquiet.groups⟩⟩
  · change EnvFits R Γ' ((m₅.env.erase temp).erase object)
    rw [henv₅]
    have htemps : EnvFits R Γ' (((m₁.env.insert temp i).insert object old).insert object b) :=
      ((henv₁.insert_other hnoTemp).insert_other hnoObject).insert_other hnoObject
    refine ((htemps.rebind fun u hu => ?_).erase_other hnoTemp).erase_other hnoObject
    rw [hx] at hu
    cases hu
    change j.Fits R t.types
    rw [htypes]
    exact .single hj
  · change OutputsFit R types m₅.outputs
    rw [houts₅]
    exact houts ▸ houtputs

/-! ### Variables that a zone carries -/

/-- A target that binds a variable of an enclosing zone takes a single value. -/
theorem TargetTyped.single_of_bound {outer : TypeEnv} {x : String} {t o : VarType}
    (ho : outer ∈ S.zones) (h : TargetTyped S Γ (.var x) t Γ') (hx : outer x = some o)
    (hp : t.Proper) (hne : t.types ≠ []) : o.types.length = 1 := by
  cases h with
  | var _ hcarry =>
    obtain ⟨hsingle, htypes, hshape⟩ := hcarry outer ho o hx
    rw [htypes]
    exact hp.length_eq_one (hshape ▸ hsingle) hne

/-- A variable of an outer scope that is among well-typed targets in a zone is a single value there,
as the zone could not carry it otherwise. -/
theorem TargetsTyped.single_of_bound {outer : TypeEnv} {x : String} {o : VarType}
    {targets : List TypedTarget} {parts : List SocketType} (ho : outer ∈ S.zones)
    (h : TargetsTyped S Γ targets parts Γ') (hmem : .var x ∈ targets) (hx : outer x = some o) :
    o.types.length = 1 := by
  induction h with
  | nil => cases hmem
  | cons ht _ ih =>
    cases hmem with
    | head => exact ht.single_of_bound ho hx (VarType.proper_value _) (List.cons_ne_nil _ _)
    | tail _ hmem => exact ih hmem

mutual

/-- A variable of an outer scope that a well-typed statement in a zone binds is a single value there,
by induction on the statement. -/
theorem StmtTyped.single_of_bound : (s : TypedStmt) → ∀ {S : Setting} {Γ Γ' outer : TypeEnv}
    {x : String} {o : VarType}, outer ∈ S.zones → StmtTyped S Γ s Γ' → outer.KeepsTypes Γ →
    x ∈ s.boundVars → outer x = some o → o.types.length = 1
  | .expr _, _, _, _, _, _, _, _, _, _, hmem, _ => by cases hmem
  | .assign targets e, _, _, _, _, _, _, ho, h, _, hmem, hx => by
    have hvar := TypedTarget.mem_of_var? hmem
    cases h with
    | assign he hne _ ht =>
      cases List.mem_singleton.1 hvar
      exact ht.single_of_bound ho hx he.proper hne
    | unpack _ _ _ _ _ ht => exact ht.single_of_bound ho hvar hx
  | .setField _ _ _ _, _, _, _, _, _, _, _, h, hkeeps, hmem, hx => by
    cases List.mem_singleton.1 hmem
    cases h with
    | @setField _ _ _ _ t _ _ _ hobject _ hshape hh =>
      cases hobject with
      | var hΓ hp =>
        obtain ⟨u, hu, htypes⟩ := hkeeps _ _ hx
        rw [hΓ] at hu
        cases hu
        rw [← htypes]
        exact hp.length_eq_one hshape (List.ne_nil_of_mem (List.mem_of_mem_head? hh))
  | .zone _ body, _, _, _, _, _, _, ho, h, hkeeps, hmem, hx => by
    cases h with
    | zone _ _ hcount _ hb =>
      exact BlockTyped.single_of_bound body (List.mem_append_left _ ho) hb (hcount.keepsTypes hkeeps)
        hmem hx

/-- A variable of an enclosing zone that statements assign stands for a single value. -/
theorem BlockTyped.single_of_bound : (ss : List TypedStmt) → ∀ {S : Setting} {Γ Γ' outer : TypeEnv}
    {x : String} {o : VarType}, outer ∈ S.zones → BlockTyped S Γ ss Γ' → outer.KeepsTypes Γ →
    x ∈ TypedStmt.boundVarsAll ss → outer x = some o → o.types.length = 1
  | [], _, _, _, _, _, _, _, _, _, hmem, _ => by cases hmem
  | s :: ss, _, _, _, _, _, _, ho, h, hkeeps, hmem, hx => by
    cases h with
    | cons hs hss =>
      rcases List.mem_append.1 hmem with hmem | hmem
      · exact StmtTyped.single_of_bound s ho hs hkeeps hmem hx
      · exact BlockTyped.single_of_bound ss ho hss ((BlockTyped.single hs).keepsTypes ho hkeeps)
          hmem hx

end

/-- The variables of a zone's items may be bound to sockets. -/
theorem Machine.EnvAgrees.items {P : String → Prop} {w : Widths} {env : Table String Item}
    (h : EnvAgrees P w env) (node : NodeId) (index : Nat) {items : List RepeatItem}
    (hitems : ∀ item ∈ items, w item.name = some 1) :
    EnvAgrees P w (env.insertAll (itemSockets node index items)) := by
  induction items generalizing env index with
  | nil => exact h
  | cons item items ih =>
    exact ih (h.rebind (hitems item (.head _)) (.socket _)) (index + 1)
      fun item' hitem' => hitems item' (.tail _ hitem')

/-- Sockets of the types of a zone's items have the types of the variables. -/
theorem EnvFits.items [Std.Refl R] {env : Table String Item} (h : EnvFits R Γ env) (node : NodeId)
    (index : Nat) {items : List RepeatItem}
    (hitems : ∀ item ∈ items, ∀ t, Γ item.name = some t → ∃ τ, t.types = [τ] ∧ R item.type τ) :
    EnvFits R Γ (env.insertAll (itemSockets node index items)) := by
  refine EnvHolds.items h node index fun item hitem t ht k => ?_
  obtain ⟨τ, htypes, hR⟩ := hitems item hitem t ht
  rw [htypes]
  exact .single ⟨item.type, rfl, hR⟩

theorem EnvFits.of_keepsTypes {env : Table String Item} (h : EnvFits R Γ' env)
    (hkeeps : Γ.KeepsTypes Γ') : EnvFits R Γ env := by
  intro x t hx
  obtain ⟨u, hu, htypes⟩ := hkeeps x t hx
  rw [← htypes]
  exact h x u hu

/-- The items of a zone match its entry: they are the variables of width one that the body binds, and
each is of the type that the scope has for it, up to the relation. -/
theorem carried_matches {w : Widths} {m : Machine} {body : List TypedStmt} {ops : List Op}
    {Γ₂ : TypeEnv} (hb : BlockTyped (S.inZone Γ) Γ body Γ₂) (hm : Agrees S Γ w m)
    (henv : EnvFits R Γ m.env)
    (hbound : ∀ x, x ∈ boundNamesAll [] ops ↔ x ∈ TypedStmt.boundVarsAll body) :
    Matches R ⟨Γ, w, body⟩ (m.carried ops) := by
  have hcarried := mem_carried hm.env hbound (hb.spelled_boundVarsAll body)
  refine ⟨fun x => ?_, fun item hitem t ht => ?_⟩
  · rw [List.mem_map, hcarried]
    refine and_congr_right fun hx => ⟨fun hw => ?_, ?_⟩
    · by_cases hscope : Γ x = none
      · exact .inr ⟨hscope, hw⟩
      · exact .inl hscope
    · rintro (hscope | ⟨-, hw⟩)
      · obtain ⟨t, ht⟩ := Option.ne_none_iff_exists'.1 hscope
        have hzone : Γ ∈ (S.inZone Γ).zones := List.mem_append_right _ (.head _)
        have hone := hb.single_of_bound body hzone (fun _ o ho => ⟨o, ho, rfl⟩) hx ht
        rw [(hm.vars x t ht).2, hone]
      · exact hw
  · obtain ⟨x, -, hmap⟩ := List.mem_filterMap.1 hitem
    obtain ⟨ρ, hρ, rfl⟩ := Option.map_eq_some_iff.1 hmap
    obtain ⟨i, hi, htype⟩ := Option.bind_eq_some_iff.1 hρ
    obtain ⟨i', hi', hfits⟩ := henv x t ht
    rw [hi] at hi'
    cases hi'
    exact hfits.typedAs_of_type? htype

/-- A zone is entered with the variables in scope that its body assigns and those that were left
behind. Then the body enters its own zones, and behind it the variables that were carried are sockets
of the output node with the same types. -/
theorem StmtTraces.zone [Std.Refl R] {Γ₂ : TypeEnv} {count : TypedExpr} {body : List TypedStmt}
    {ops inner : List Op} (hcount : ExprTyped S Γ count Γ₁) (hne : count.types ≠ [])
    (hb : BlockTyped (S.inZone Γ₁) Γ₁ body Γ₂) (hruns : ExprRuns S Γ count Γ₁ ops)
    (h : ExprTraces R S Γ count Γ₁ ops) (hbodyRuns : BlockRuns (S.inZone Γ₁) Γ₁ body Γ₂ inner)
    (hbody : BlockTraces R (S.inZone Γ₁) types Γ₁ body Γ₂ inner) :
    StmtTraces R S types Γ (.zone count body) Γ₁
      (Lower.firstOutput count ops ++ [.zone inner, .endOfStatement]) := by
  intro w m m' hm hlen henv houtputs hrun
  obtain ⟨τ, hτ⟩ := TypedExpr.exists_head? hne
  obtain ⟨m₁, h₁, hrun⟩ := runOps_append_ok.1 hrun
  obtain ⟨m₂, hzone, hend⟩ := runOps_cons_ok.1 hrun
  obtain rfl := runOps_endOfStatement hend
  obtain ⟨before, hw, hm₁, -, houts⟩ :=
    ((hruns.firstOutput hcount.proper hne).2 w m hm).of_ok h₁
  obtain ⟨henv₁, -, hadds⟩ := h.firstOutput hcount.proper hτ hm henv h₁
  obtain ⟨i, rest, currents, last, finals, -, -, hinner, -, rfl⟩ := zone_ok hzone
  have hmatches := carried_matches hb hm₁ henv₁ hbodyRuns.bound
  have hnames : ∀ item ∈ m₁.carried inner, before item.name = some 1 := fun item hitem =>
    ((mem_carried hm₁.env hbodyRuns.bound (hb.spelled_boundVarsAll body) item.name).1
      ⟨item, hitem, rfl⟩).2
  -- The items have the widths and the types of the variables, so the body starts as typed.
  have hstart : Agrees (S.inZone Γ₁) Γ₁ before (m₁.zoneStart (m₁.carried inner) i currents) :=
    ⟨hm₁.vars, hm₁.env.items _ 1 hnames, hm₁.groups⟩
  obtain ⟨henv₂, houtputs₂, hbodyAdds⟩ := hbody before _ last hstart
    ((congrArg List.length houts).trans hlen) (henv₁.items _ 1 hmatches.types) (houts ▸ houtputs) hinner
  have houter : Γ₁ ∈ (S.inZone Γ₁).zones := List.mem_append_right _ (.head _)
  have hkeeps := hb.keepsTypes houter fun _ o ho => ⟨o, ho, rfl⟩
  refine ⟨(henv₂.of_keepsTypes hkeeps).items _ 0 hmatches.types, houtputs₂, ?_⟩
  change Adds R S.tree ((TypedStmt.zone count body).zones S.tree Γ w) _ m _
  rw [hcount.zones_zone hw]
  refine hadds.trans ⟨?_, hbodyAdds.groups⟩
  obtain ⟨new, hnew, hall⟩ := hbodyAdds.zones
  refine ⟨m₁.carried inner :: new, ?_, .cons hmatches hall⟩
  change (last.tree.feedAll _ _).zoneItems = _
  rw [NodeTree.zoneItems_feedAll, hnew]
  change ((m₁.tree.addZone _).feedAll _ _).zoneItems ++ new = _
  rw [NodeTree.zoneItems_feedAll, NodeTree.zoneItems_addZone, List.append_assoc]
  rfl

/-! ### Blocks -/

theorem BlockTraces.nil : BlockTraces R S types Γ [] Γ [] := by
  intro w m m' _ _ henv houtputs h
  cases h
  exact ⟨henv, houtputs, .of_quiet (quiet_refl _)⟩

/-- A statement and the rest of a block enter zones one after the other, the rest from the types that
the statement leaves. -/
theorem BlockTraces.cons {s : TypedStmt} {ss : List TypedStmt} {ops more : List Op}
    (hs : StmtTyped S Γ s Γ₁) (hruns : StmtRuns S Γ s Γ₁ ops) (h : StmtTraces R S types Γ s Γ₁ ops)
    (hss : BlockTraces R S types Γ₁ ss Γ' more) :
    BlockTraces R S types Γ (s :: ss) Γ' (ops ++ more) := by
  intro w m m' hm hlen henv houtputs hrun
  obtain ⟨m₁, h₁, hrun⟩ := runOps_append_ok.1 hrun
  obtain ⟨w₁, hw₁, hm₁, houts⟩ := (hruns.runs w m hm hlen).of_ok h₁
  obtain ⟨henv₁, houtputs₁, hadds₁⟩ := h w m m₁ hm hlen henv houtputs h₁
  obtain ⟨henv', houtputs', hadds⟩ :=
    hss w₁ m₁ m' hm₁ (houts.length.trans hlen) henv₁ houtputs₁ hrun
  refine ⟨henv', houtputs', ?_⟩
  have hwidths : s.widths w = some w₁ := hw₁
  change Adds R S.tree (TypedStmt.zonesAll S.tree Γ w (s :: ss)) _ m m'
  rw [TypedStmt.zonesAll, hs.scopeAfter_eq, hwidths]
  exact hadds₁.trans hadds

theorem BodyTraces.of_block {f : TypedFunction} {ops : List Op} (hp : ∀ p ∈ f.inputs, S.spelled p.name)
    (h : BlockTraces R (S.body f) types (TypeEnv.empty.bindParams f.inputs) f.body Γ' ops) :
    BodyTraces R S types f ops := by
  intro m m' henv hgroups hfits hlen houtputs hrun
  obtain ⟨-, houtputs', hadds⟩ :=
    h _ m m' ⟨varsAgree_params hp, henv, hgroups⟩ hlen hfits houtputs hrun
  exact ⟨houtputs', hadds⟩

/-! ### Well-typed statements -/

namespace Lower

variable {α β : Type}

theorem bind_ok_iff {x : Lower α} {f : α → Lower β} {n n' : Nat} {b : β} :
    (x >>= f) n = .ok (b, n') ↔ ∃ a n₁, x n = .ok (a, n₁) ∧ f a n₁ = .ok (b, n') := by
  refine ⟨fun h => ?_, fun ⟨a, n₁, hx, hf⟩ => bind_ok hx hf⟩
  obtain ⟨p, hx, hf⟩ := run_bind_ok.1 h
  exact ⟨p.1, p.2, hx, hf⟩

theorem lift_ok_iff {x : Except LoweringError α} {a : α} {n n' : Nat} :
    (liftM x : Lower α) n = .ok (a, n') ↔ x = .ok a ∧ n' = n := by
  refine ⟨fun h => ?_, fun ⟨hx, hn⟩ => hn ▸ lift_ok hx n⟩
  cases x with
  | error e => cases h
  | ok b =>
    cases h
    exact ⟨rfl, rfl⟩

theorem stmts_of_lower {tree : TreeKind} {ss : List TypedStmt} {ops : List Op}
    (h : lower tree ss = .ok ops) : ∃ n, stmts tree [] ss 0 = .ok (ops, n) := by
  obtain ⟨p, hrun, h⟩ := run_bind_ok.1 h
  cases h
  exact ⟨p.2, hrun⟩

end Lower

section
variable {n n' : Nat} {ops : List Op}

/-- The ops of a well-typed expression run without an error, in the form that is used here. -/
theorem ExprTyped.runs {e : TypedExpr} (hS : S.Runnable) (h : ExprTyped S Γ e Γ')
    (hops : Lower.expr S.tree e n = .ok (ops, n')) : ExprRuns S Γ e Γ' ops := by
  obtain ⟨ops', n₁, hops', hruns⟩ := h.lowers e hS n
  rw [hops] at hops'
  cases hops'
  exact hruns

/-- The ops of well-typed arguments run without an error, in the form that is used here. -/
theorem ArgsTyped.runs {es : List TypedExpr} (hS : S.Runnable) (h : ArgsTyped S Γ es Γ')
    (hne : ∀ e ∈ es, e.types ≠ []) (hops : Lower.args S.tree es n = .ok (ops, n')) :
    ArgsRun S Γ es Γ' ops := by
  obtain ⟨ops', n₁, hops', hruns⟩ := h.lowers es hS hne n
  rw [hops] at hops'
  cases hops'
  exact hruns

/-- The ops of a well-typed statement run without an error, in the form that is used here. -/
theorem StmtTyped.runs {s : TypedStmt} (hS : S.Runnable) (h : StmtTyped S Γ s Γ')
    (hops : Lower.stmt S.tree (S.outputs.map (·.name)) s n = .ok (ops, n')) :
    StmtRuns S Γ s Γ' ops := by
  obtain ⟨ops', n₁, hops', hruns⟩ := h.lowers s hS n
  rw [hops] at hops'
  cases hops'
  exact hruns

/-- The ops of a well-typed block run without an error, in the form that is used here. -/
theorem BlockTyped.runs {ss : List TypedStmt} (hS : S.Runnable) (h : BlockTyped S Γ ss Γ')
    (hops : Lower.stmts S.tree (S.outputs.map (·.name)) ss n = .ok (ops, n')) :
    BlockRuns S Γ ss Γ' ops := by
  obtain ⟨ops', n₁, hops', hruns⟩ := h.lowers ss hS n
  rw [hops] at hops'
  cases hops'
  exact hruns

end

mutual

/-- A well-typed expression enters the zones of the functions that it calls, in the order of the
calls, and pushes an item of its type up to the relation. The induction is on the expression, and
goes into the bodies of functions. -/
theorem ExprTyped.traces [DecidableRel R] [Std.Refl R] [IsTrans SocketType R] : (e : TypedExpr) →
    ∀ {S : Setting} {Γ Γ' : TypeEnv} {n n' : Nat} {ops : List Op}, S.Runnable →
    S.tree = .geometry → ExprTyped S Γ e Γ' → e.along R S.tree = true →
    Lower.expr S.tree e n = .ok (ops, n') → ExprTraces R S Γ e Γ' ops
  | .constant _ _, _, _, _, _, _, _, _, _, h, _, hops => by
    cases h with
    | constant ht =>
      cases hops
      exact .constant ht
  | .var _ _ _, _, _, _, _, _, _, _, _, h, _, hops => by
    cases h with
    | var hx =>
      cases hops
      exact .var hx
    | free _ _ _ ht =>
      cases hops
      exact .free ht
  | .node _ args _, _, _, _, _, _, _, hS, hgeo, h, halong, hops => by
    rw [Lower.expr] at hops
    obtain ⟨pushed, n₁, hpushed, hops⟩ := Lower.bind_ok_iff.1 hops
    cases hops
    cases h with
    | node _ ha hfeeds hin =>
      exact .node (hin ▸ hfeeds.length_le)
        (ArgsTyped.traces args hS hgeo ha hfeeds.types_ne_nil halong hpushed)
  | .call ⟨name, kind, inputs, outputs, body⟩ args _, S, _, _, _, _, _, hS, hgeo, h, halong, hops => by
    rw [Lower.expr] at hops
    obtain ⟨pushed, n₁, hpushed, hops⟩ := Lower.bind_ok_iff.1 hops
    obtain ⟨defaults, n₂, hdefaults, hops⟩ := Lower.bind_ok_iff.1 hops
    obtain ⟨inner, n₃, hinner, hops⟩ := Lower.bind_ok_iff.1 hops
    cases hops
    obtain ⟨hdefaults, rfl⟩ := Lower.lift_ok_iff.1 hdefaults
    cases h with
    | call _ hfun ha hfeeds hd ht =>
      rw [Lower.pushDefaults_ok (by simpa using hfeeds.length_le)] at hdefaults
      cases hdefaults
      cases hfun with
      | mk hinputs htypes hbody hassigns =>
        let f : TypedFunction := ⟨name, kind, inputs, outputs, body⟩
        have hS' : (S.body f).Runnable := ⟨hS.plain, hS.unique⟩
        have hblock : BlockRuns (S.body f) (TypeEnv.empty.bindParams inputs) body _ inner :=
          hbody.runs hS' hinner
        rw [TypedExpr.along, Bool.and_eq_true, Bool.and_eq_true] at halong
        obtain ⟨⟨hargs, hparams⟩, hall⟩ := halong
        exact .call hfeeds hd htypes ht (ha.runs hS hfeeds.types_ne_nil hpushed)
          (ArgsTyped.traces args hS hgeo ha hfeeds.types_ne_nil hargs hpushed)
          (.of_block hinputs hassigns hblock) hparams
          (.of_block hinputs (BlockTyped.traces body hS' hgeo hbody hall hinner))
  | .output e _ _, _, _, _, _, _, _, hS, hgeo, h, halong, hops => by
    rw [Lower.expr] at hops
    obtain ⟨inner, n₁, hinner, hops⟩ := Lower.bind_ok_iff.1 hops
    cases hops
    cases h with
    | output he hshape hi _ ht =>
      exact .output he.proper hshape hi ht (ExprTyped.traces e hS hgeo he halong hinner)
  | .component e part _, _, _, _, _, _, _, hS, hgeo, h, halong, hops => by
    rw [Lower.expr] at hops
    obtain ⟨inner, n₁, hinner, hops⟩ := Lower.bind_ok_iff.1 hops
    obtain ⟨temp, n₂, htemp, hops⟩ := Lower.bind_ok_iff.1 hops
    cases htemp
    obtain ⟨reading, n₃, hreading, hops⟩ := Lower.bind_ok_iff.1 hops
    cases hops
    obtain ⟨hreading, -⟩ := Lower.lift_ok_iff.1 hreading
    cases h with
    | component he _ hh hk ht =>
      exact .component hS (Lower.mem_temporary "field" n₁) he.proper hh hk ht hreading
        (he.runs hS hinner) (ExprTyped.traces e hS hgeo he halong hinner)

/-- Well-typed arguments enter the zones of the functions that they call, one argument after the
other. -/
theorem ArgsTyped.traces [DecidableRel R] [Std.Refl R] [IsTrans SocketType R] :
    (es : List TypedExpr) → ∀ {S : Setting} {Γ Γ' : TypeEnv} {n n' : Nat} {ops : List Op},
    S.Runnable → S.tree = .geometry → ArgsTyped S Γ es Γ' →
    (∀ e ∈ es, e.types ≠ []) → TypedExpr.allAlong R S.tree es = true →
    Lower.args S.tree es n = .ok (ops, n') → ArgsTrace R S Γ es Γ' ops
  | [], _, _, _, _, _, _, _, _, h, _, _, hops => by
    cases h
    cases hops
    exact .nil
  | e :: es, _, _, _, _, _, _, hS, hgeo, h, hne, halong, hops => by
    rw [Lower.args] at hops
    obtain ⟨first, n₁, hfirst, hops⟩ := Lower.bind_ok_iff.1 hops
    obtain ⟨others, n₂, hothers, hops⟩ := Lower.bind_ok_iff.1 hops
    cases hops
    rw [TypedExpr.allAlong, Bool.and_eq_true] at halong
    cases h with
    | cons he hes =>
      exact .cons he.proper (hne e (.head _)) (he.runs hS hfirst)
        (ExprTyped.traces e hS hgeo he halong.1 hfirst)
        (ArgsTyped.traces es hS hgeo hes (fun e' he' => hne e' (.tail _ he')) halong.2 hothers)

/-- A well-typed statement enters its zones in the order of the run, each with items that match its
entry, and keeps variables and outputs of their types up to the relation. The induction is on the
statement. -/
theorem StmtTyped.traces [DecidableRel R] [Std.Refl R] [IsTrans SocketType R] : (s : TypedStmt) →
    ∀ {S : Setting} {Γ Γ' : TypeEnv} {n n' : Nat} {ops : List Op} {types : List SocketType},
    S.Runnable → S.tree = .geometry → StmtTyped S Γ s Γ' → s.along R S.tree types = true →
    Lower.stmt S.tree (S.outputs.map (·.name)) s n = .ok (ops, n') →
    StmtTraces R S types Γ s Γ' ops
  | .expr e, _, _, _, _, _, _, _, hS, hgeo, h, halong, hops => by
    rw [Lower.stmt] at hops
    obtain ⟨inner, n₁, hinner, hops⟩ := Lower.bind_ok_iff.1 hops
    cases hops
    cases h with
    | expr he => exact .expr (he.runs hS hinner) (ExprTyped.traces e hS hgeo he halong hinner)
  | .assign targets e, S, _, _, _, _, _, _, hS, hgeo, h, halong, hops => by
    rw [TypedStmt.along, Bool.and_eq_true] at halong
    cases hc : e.constant? with
    | some v =>
      simp only [Lower.stmt, hc] at hops
      obtain ⟨storing, n₁, hstoring, hops⟩ := Lower.bind_ok_iff.1 hops
      cases hops
      obtain ⟨hstoring, -⟩ := Lower.lift_ok_iff.1 hstoring
      cases e with
      | constant u t =>
        cases hc
        cases h with
        | unpack _ _ hnone => cases hnone
        | @assign _ _ _ _ target _ he _ _ ht =>
          cases he with
          | constant hv =>
            rw [hgeo] at hstoring
            have htake : (TypedExpr.constant v t).takenTypes S.tree [target] = [v.type] :=
              congrArg (fun u : VarType => u.types.take 1) hv
            rw [← ht.store_eq]
            exact .assignConstant hv hstoring (htake ▸ halong.2)
      | _ => cases hc
    | none =>
      simp only [Lower.stmt, hc] at hops
      obtain ⟨inner, n₁, hinner, hops⟩ := Lower.bind_ok_iff.1 hops
      obtain ⟨storing, n₂, hstoring, hops⟩ := Lower.bind_ok_iff.1 hops
      cases hops
      obtain ⟨hstoring, -⟩ := Lower.lift_ok_iff.1 hstoring
      cases h with
      | assign he hne _ ht =>
        refine .assign (he.runs hS hinner) (ExprTyped.traces e hS hgeo he halong.1 hinner) ?_
        intro stack m m' hpushed henv houtputs hrun
        rw [← ht.store_eq]
        exact storeOne_stores he.proper hne hstoring halong.2 hpushed henv houtputs hrun
      | unpack he hne _ hl hu ht =>
        refine .assign (he.runs hS hinner) (ExprTyped.traces e hS hgeo he halong.1 hinner) ?_
        intro stack m m' hpushed henv houtputs hrun
        rw [TypedExpr.takenTypes_of_length_ne_one hl, hu.partTypes_eq hne] at halong
        rw [← ht.storeParts_eq]
        exact storeAll_stores he.proper hne hl ht.length_le hu hstoring halong.2 hpushed henv
          houtputs hrun
  | .setField x object part value, _, _, _, _, _, _, _, hS, hgeo, h, halong, hops => by
    cases h with
    | @setField _ _ _ _ t _ type _ hobject _ hshape hh hk he hfeeds =>
      rw [Lower.stmt] at hops
      obtain ⟨inner, n₁, hinner, hops⟩ := Lower.bind_ok_iff.1 hops
      obtain ⟨temp, n₂, htemp, hops⟩ := Lower.bind_ok_iff.1 hops
      cases htemp
      obtain ⟨get, n₃, hget, hops⟩ := Lower.bind_ok_iff.1 hops
      cases hget
      obtain ⟨old, n₄, hold, hops⟩ := Lower.bind_ok_iff.1 hops
      cases hold
      obtain ⟨writing, n₅, hwriting, hops⟩ := Lower.bind_ok_iff.1 hops
      cases hops
      obtain ⟨hwriting, -⟩ := Lower.lift_ok_iff.1 hwriting
      cases hobject with
      | var hx hp =>
        have hne : t.types ≠ [] := List.ne_nil_of_mem (List.mem_of_mem_head? hh)
        obtain ⟨σ, hσ⟩ := List.length_eq_one_iff.1 (hp.length_eq_one hshape hne)
        have htypes : t.types = [σ] := hσ
        rw [htypes] at hh
        cases hh
        exact .setField hS (Lower.mem_temporary x (n₁ + 1)) (Lower.mem_temporary "value" n₁)
          (he.env_le value hx) htypes hk he.proper hfeeds.types_ne_nil hwriting (he.runs hS hinner)
          (ExprTyped.traces value hS hgeo he halong hinner)
  | .zone count body, S, _, Γ₁, _, _, _, _, hS, hgeo, h, halong, hops => by
    rw [Lower.stmt] at hops
    obtain ⟨inner, n₁, hinner, hops⟩ := Lower.bind_ok_iff.1 hops
    obtain ⟨pushing, n₂, hpushing, hops⟩ := Lower.bind_ok_iff.1 hops
    cases hops
    rw [TypedStmt.along, Bool.and_eq_true] at halong
    cases h with
    | zone _ _ hcount hfeeds hb =>
      have hS' : (S.inZone Γ₁).Runnable := ⟨hS.plain, hS.unique⟩
      have hblock : BlockRuns (S.inZone Γ₁) Γ₁ body _ inner := hb.runs hS' hinner
      exact .zone hcount hfeeds.types_ne_nil hb (hcount.runs hS hpushing)
        (ExprTyped.traces count hS hgeo hcount halong.1 hpushing) hblock
        (BlockTyped.traces body hS' hgeo hb halong.2 hinner)

/-- The ops of a well-typed block that passes values along `R` enter its zones, with items of the
types that the formula has for the variables, up to `R`. -/
theorem BlockTyped.traces [DecidableRel R] [Std.Refl R] [IsTrans SocketType R] :
    (ss : List TypedStmt) → ∀ {S : Setting} {Γ Γ' : TypeEnv} {n n' : Nat} {ops : List Op}
    {types : List SocketType}, S.Runnable → S.tree = .geometry →
    BlockTyped S Γ ss Γ' → TypedStmt.allAlong R S.tree types ss = true →
    Lower.stmts S.tree (S.outputs.map (·.name)) ss n = .ok (ops, n') →
    BlockTraces R S types Γ ss Γ' ops
  | [], _, _, _, _, _, _, _, _, _, h, _, hops => by
    cases h
    cases hops
    exact .nil
  | s :: ss, _, _, _, _, _, _, _, hS, hgeo, h, halong, hops => by
    rw [Lower.stmts] at hops
    obtain ⟨first, n₁, hfirst, hops⟩ := Lower.bind_ok_iff.1 hops
    obtain ⟨others, n₂, hothers, hops⟩ := Lower.bind_ok_iff.1 hops
    cases hops
    rw [TypedStmt.allAlong, Bool.and_eq_true] at halong
    cases h with
    | cons hs hss =>
      exact .cons hs (hs.runs hS hfirst) (StmtTyped.traces s hS hgeo hs halong.1 hfirst)
        (BlockTyped.traces ss hS hgeo hss halong.2 hothers)

end

end NodeFormula

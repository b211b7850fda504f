import NodeFormula.Proofs.Balance.Expressions

/-!
# Statements keep the state tidy

The cases of statements, and the induction over typed expressions and statements. The variables in scope
stay bound to items for their outputs although an assignment that names a variable twice keeps another
part than its type has: all parts are plain. A zone carries variables as sockets, and a variable that is
carried holds a plain item where the zone starts.

The results are `ExprTyped.balanced` and `BlockTyped.balanced`.
-/

namespace NodeFormula

open Machine

variable {S : Setting} {Γ Γ' Γ₁ : TypeEnv} {m m' m₁ : Machine}

/-- Two runs in a row perform what the second ends with. -/
theorem Performed.trans (h₁ : Performed Γ₁ m m₁) (h₂ : Performed Γ' m₁ m') : Performed Γ' m m' :=
  ⟨h₂.tidy, h₂.plain, h₂.length.trans h₁.length, h₁.appends.trans h₂.appends⟩

/-- Pushing values is a part of a statement. -/
theorem Performed.of_keeps {created : List String} (hm : m'.Tidy Γ') (hkeeps : Keeps created m m')
    (houtputs : ∀ i ∈ m.outputs, i.Plain) : Performed Γ' m m' :=
  ⟨hm, hkeeps.outputs ▸ houtputs, congrArg List.length hkeeps.outputs, hkeeps.appends⟩

theorem Performed.endOfStatement (h : Performed Γ' m m₁) (hrun : runOps [.endOfStatement] m₁ = .ok m') :
    Performed Γ' m m' := by
  obtain rfl := runOps_endOfStatement hrun
  exact h.trans (.of_keeps (h.tidy.frame ⟨rfl, rfl, rfl⟩) (Keeps.of_stack m₁ []) h.plain)

/-- A statement that is an expression keeps the state tidy, as its value is dropped at the end. -/
theorem StmtsBalanced.expr {e : TypedExpr} {ops : List Op} (h : ExprBalanced Γ e Γ' ops) :
    StmtsBalanced Γ Γ' (ops ++ [.endOfStatement]) := by
  intro m m' hm houtputs hrun
  obtain ⟨m₁, h₁, hend⟩ := runOps_append_ok.1 hrun
  obtain ⟨hm₁, -, hkeeps⟩ := h m m₁ hm h₁
  exact (Performed.of_keeps hm₁ hkeeps houtputs).endOfStatement hend

/-! ### Storing -/

theorem plain_set {outputs : List Item} (h : ∀ i ∈ outputs, i.Plain) {j : Item} (hj : j.Plain)
    (k : Nat) : ∀ i ∈ outputs.set k j, i.Plain := fun i hi => by
  rcases List.mem_or_eq_of_mem_set hi with hi | rfl
  · exact h i hi
  · exact hj

/-- A target takes an item: a variable one for its outputs, and an output a plain one. -/
theorem store_performed (hS : S.Runnable) {target : TypedTarget} {t : VarType} {i : Item}
    {rest : List Item} (ht : TargetTyped S Γ target t Γ') (hs : m.stack = i :: rest)
    (hvar : ∀ x, target = .var x → i.Covers t.types.length)
    (hout : ∀ k, target = .output k → i.Plain) (hm : m.Tidy Γ) (houtputs : ∀ i ∈ m.outputs, i.Plain)
    (h : runOp (Lower.store target) m = .ok m') : Performed Γ' m m' := by
  have happends := runOp_appends (Lower.adds_store target) h
  obtain ⟨i', rest', hs', rfl⟩ := store_ok h
  rw [hs] at hs'
  cases hs'
  cases ht with
  | var hx => exact ⟨hm.bind (hS.plain _ hx) (hvar _ rfl) rfl, houtputs, rfl, happends⟩
  | output =>
    exact ⟨hm.same fun _ => rfl, plain_set houtputs (hout _ rfl) _, List.length_set, happends⟩
  | ignore => exact ⟨hm.same fun _ => rfl, houtputs, rfl, happends⟩

/-- The machine keeps the first part for a variable that is named twice, and the type is that of the
last. What holds of the part for every type holds for this one. -/
theorem EnvHolds.insertPart {F : Item → VarType → Prop} {env : Table String Item} {x : String} {i : Item}
    {targets : List TypedTarget} {part : SocketType} {parts : List SocketType}
    (henv : EnvHolds F (Γ.storeParts targets parts) env) (hi : ∀ τ, F i (.value τ)) :
    EnvHolds F (Γ.storeParts (.var x :: targets) (part :: parts)) (env.insert x i) := by
  intro y u hy
  rw [Table.get?_insert]
  by_cases hyx : y = x
  · subst hyx
    refine ⟨i, if_pos rfl, ?_⟩
    rcases TypeEnv.storeParts_cases targets parts y with ⟨p, -, -, hall⟩ | hall
    · rw [TypeEnv.storeParts, hall] at hy
      cases hy
      exact hi p.2
    · rw [TypeEnv.storeParts, hall, TypeEnv.store, TypeEnv.bind_self] at hy
      cases hy
      exact hi part
  · rw [if_neg hyx]
    refine henv y u (Eq.trans ?_ hy)
    exact TypeEnv.storeParts_congr targets parts (TypeEnv.bind_of_ne hyx).symm

/-- Storing plain parts in targets leaves an item for each variable in scope, sets outputs to plain
items, and binds no temporary variable. Which part a name gets that stands there twice makes no
difference. -/
theorem storeItems_keeps (hm : m.Tidy Γ) (houtputs : ∀ i ∈ m.outputs, i.Plain)
    {targets : List TypedTarget} {items : List Item} {parts : List SocketType}
    (hparts : targets.length ≤ parts.length) (hle : targets.length ≤ items.length)
    (hitems : ∀ i ∈ items, i.Plain) (hnames : ∀ x, .var x ∈ targets → '#' ∉ x.toList) :
    EnvCovers (Γ.storeParts targets parts) (m.storeItems (targets.zip items)).env ∧
      NoTemporaries (m.storeItems (targets.zip items)).env ∧
      (∀ i ∈ (m.storeItems (targets.zip items)).outputs, i.Plain) ∧
      (m.storeItems (targets.zip items)).outputs.length = m.outputs.length := by
  induction targets generalizing items parts with
  | nil => exact ⟨hm.env, hm.temporaries, houtputs, rfl⟩
  | cons target targets ih =>
    rcases items with _ | ⟨i, items⟩
    · cases hle
    rcases parts with _ | ⟨part, parts⟩
    · cases hparts
    obtain ⟨henv, htemps, hplain, hlen⟩ := ih (Nat.le_of_succ_le_succ hparts)
      (Nat.le_of_succ_le_succ hle) (fun j hj => hitems j (.tail _ hj)) fun x hx => hnames x (.tail _ hx)
    have hi : i.Plain := hitems i (.head _)
    rw [List.zip_cons_cons, storeItems]
    cases target with
    | var x =>
      exact ⟨henv.insertPart fun _ => .plain hi, htemps.insert (hnames x (.head _)) i, hplain, hlen⟩
    | output k => exact ⟨henv, htemps, plain_set hplain hi k, List.length_set.trans hlen⟩
    | ignore => exact ⟨henv, htemps, hplain, hlen⟩

/-! ### Assignments -/

/-- An assignment whose targets take the value from the stack keeps the state tidy, if storing does.
The end of the statement clears what is left on the stack. -/
theorem StmtsBalanced.assign {e : TypedExpr} {ops storing : List Op} (h : ExprBalanced Γ e Γ₁ ops)
    (hstore : ∀ stack m m', PushedFor e.types.length stack m → m.Tidy Γ₁ →
      (∀ i ∈ m.outputs, i.Plain) → runOps storing m = .ok m' → Performed Γ' m m') :
    StmtsBalanced Γ Γ' (ops ++ storing ++ [.endOfStatement]) := by
  intro m m' hm houtputs hrun
  obtain ⟨m₂, hrun, hend⟩ := runOps_append_ok.1 hrun
  obtain ⟨m₁, h₁, hstoring⟩ := runOps_append_ok.1 hrun
  obtain ⟨hm₁, hpushed, hkeeps⟩ := h m m₁ hm h₁
  have hvalue := Performed.of_keeps hm₁ hkeeps houtputs
  have hstored := hstore m.stack m₁ m₂ hpushed hm₁ hvalue.plain hstoring
  exact (hvalue.trans hstored).endOfStatement hend

/-- A single target takes a value. A variable takes all of it and so an item for all outputs of its
type, while an output of the definition takes the first part. -/
theorem storeOne_performed (hS : S.Runnable) {e : TypedExpr} {target : TypedTarget}
    {stack : List Item} {storing : List Op} (hp : e.varType.Proper) (hne : e.types ≠ [])
    (ht : TargetTyped S Γ target e.varType Γ')
    (hstoring : Lower.storeAll S.tree e [target] = .ok storing)
    (hpushed : PushedFor e.types.length stack m) (hm : m.Tidy Γ)
    (houtputs : ∀ i ∈ m.outputs, i.Plain) (h : runOps storing m = .ok m') : Performed Γ' m m' := by
  have hwhole : (∀ k, target ≠ .output k) → storing = [Lower.store target] → Performed Γ' m m' := by
    rintro hno rfl
    obtain ⟨i, hi, hs⟩ := hpushed.exists_of_pos fun h => hne (List.length_eq_zero_iff.1 h)
    obtain ⟨m₁, hstore, h⟩ := runOps_cons_ok.1 h
    cases h
    exact store_performed hS ht hs (fun _ _ => hi) (fun k hk => absurd hk (hno k)) hm houtputs hstore
  cases target with
  | var x =>
    cases hstoring
    exact hwhole (fun _ => TypedTarget.noConfusion) rfl
  | ignore =>
    cases hstoring
    exact hwhole (fun _ => TypedTarget.noConfusion) rfl
  | output k =>
    cases hstoring
    obtain ⟨m₁, hfirst, h⟩ := runOps_append_ok.1 h
    obtain ⟨m₂, hstore, h⟩ := runOps_cons_ok.1 h
    cases h
    obtain ⟨hframe, happends, i, hi, hs⟩ := firstOutput_plain hp hne hpushed hfirst
    have hvalue : Performed Γ m m₁ :=
      .of_keeps (hm.frame hframe) (.of_frame hframe happends) houtputs
    exact hvalue.trans (store_performed hS ht hs (fun _ => TypedTarget.noConfusion) (fun _ _ => hi)
      hvalue.tidy hvalue.plain hstore)

/-- The ops that unpack a bundle of plain items perform an assignment to the targets. -/
theorem unpackOps_performed (hS : S.Runnable) {targets : List TypedTarget} {parts : List SocketType}
    {items rest : List Item} (ht : TargetsTyped S Γ targets parts Γ')
    (hlen : items.length = parts.length) (hitems : ∀ i ∈ items, i.Plain)
    (hs : m.stack = .bundle items :: rest) (hm : m.Tidy Γ) (houtputs : ∀ i ∈ m.outputs, i.Plain)
    (h : runOps (unpackOps targets items.length) m = .ok m') : Performed Γ' m m' := by
  have happends := runOps_appends (adds_unpackOps _ _) h
  have hle : targets.length ≤ items.length := hlen ▸ ht.length_le
  obtain rfl := unpackOps_ok hle hs h
  have hm' : ({ m with stack := rest } : Machine).Tidy Γ := hm.same fun _ => rfl
  obtain ⟨henv, htemps, hplain, hcount⟩ := storeItems_keeps hm' houtputs ht.length_le hle hitems
    fun x hx => hS.plain x (ht.spelled hx)
  rw [ht.storeParts_eq] at henv
  exact ⟨⟨henv, htemps⟩, hplain, hcount, happends⟩

/-- Several targets take the parts of a value, which is split first if it is a single one. The parts
are plain, whether they come from a bundle or from the node that splits. -/
theorem storeAll_performed (hS : S.Runnable) {e : TypedExpr} {targets : List TypedTarget}
    {parts : List SocketType} {stack : List Item} {storing : List Op} (hp : e.varType.Proper)
    (hne : e.types ≠ []) (hl : targets.length ≠ 1) (hu : Unpacks S.tree e parts)
    (ht : TargetsTyped S Γ targets parts Γ')
    (hstoring : Lower.storeAll S.tree e targets = .ok storing)
    (hpushed : PushedFor e.types.length stack m) (hm : m.Tidy Γ)
    (houtputs : ∀ i ∈ m.outputs, i.Plain) (h : runOps storing m = .ok m') : Performed Γ' m m' := by
  obtain ⟨i, hi, hs⟩ := hpushed.exists_of_pos fun h => hne (List.length_eq_zero_iff.1 h)
  rcases targets with _ | ⟨a, _ | ⟨b, targets⟩⟩
  · cases hstoring
    cases h
    cases ht
    exact ⟨hm, houtputs, rfl, .of_eq rfl rfl⟩
  · exact absurd rfl hl
  cases hu with
  | bundle hshape =>
    simp only [Lower.storeAll, hshape] at hstoring
    cases hstoring
    obtain ⟨items, rfl, hlen, hitems⟩ := hi.exists_bundle (hp.shape.1 hshape)
    rw [← hlen] at h
    exact unpackOps_performed hS ht hlen hitems hs hm houtputs h
  | @single type split hshape hh hsplit =>
    simp only [Lower.storeAll, hshape, hh, hsplit] at hstoring
    cases hstoring
    obtain ⟨m₁, hop, h⟩ := runOps_cons_ok.1 h
    obtain ⟨hframe, -⟩ := runOp_silent hop trivial
    obtain ⟨items, hs₁, hitems⟩ := split_pushes (R := Eq) hsplit hs hop
    have happends : Appends none m m₁ := .callBuiltin hop
    have hsplitted : Performed Γ m m₁ :=
      .of_keeps (hm.frame hframe) (.of_frame hframe happends) houtputs
    have hlen : items.length = split.outputTypes.length := hitems.length_eq
    have hcount : split.outputs.length = items.length := by simp [hlen, Overload.outputTypes]
    rw [hcount] at h
    exact hsplitted.trans (unpackOps_performed hS ht hlen (plain_of_typedAs hitems) hs₁
      hsplitted.tidy hsplitted.plain h)

/-- Assigning a constant stores one plain item, and the target is in scope behind it. The target that
drops its value adds no node for the constant. -/
theorem StmtsBalanced.assignConstant (hS : S.Runnable) {target : TypedTarget} {v : Constant}
    {t : Typing} {names : List String} {ops : List Op} (hv : t.varType = .value v.type)
    (ht : TargetTyped S Γ target (TypedExpr.constant v t).varType Γ')
    (hops : Lower.assignConstant S.tree names [target] v = .ok ops) :
    StmtsBalanced Γ Γ' (ops ++ [.endOfStatement]) := by
  intro m m' hm houtputs hrun
  obtain ⟨m₁, h₁, hend⟩ := runOps_append_ok.1 hrun
  refine Performed.endOfStatement ?_ hend
  rcases Lower.assignConstant_eq hops with ⟨rfl, rfl⟩ | ⟨name, input, hinput, rfl⟩
  · cases h₁
    cases ht
    exact ⟨hm, houtputs, rfl, .of_eq rfl rfl⟩
  · obtain ⟨m₂, hconstant, h₁⟩ := runOps_append_ok.1 h₁
    obtain ⟨m₃, hstore, h₁⟩ := runOps_cons_ok.1 h₁
    cases h₁
    obtain ⟨hkeeps, i, hi, hs⟩ := constantInput_keeps hinput hconstant
    have hvalue : Performed Γ m m₂ :=
      .of_keeps (hm.same fun x => hkeeps.env x List.not_mem_nil) hkeeps houtputs
    have hcovers : i.Covers (TypedExpr.constant v t).varType.types.length := by
      rw [TypedExpr.varType, TypedExpr.typing, hv]
      exact .plain hi
    exact hvalue.trans (store_performed hS ht hs (fun _ _ => hcovers) (fun _ _ => hi) hvalue.tidy
      hvalue.plain hstore)

/-- What the variables are bound to after a field of `x` is set: the two temporary variables are gone. -/
theorem get?_setField {env : Table String Item} {x object temp : String} {i old parts j : Item}
    (htemp : x ≠ temp) (hobject : x ≠ object) (y : String) :
    ((((((env.insert temp i).insert object old).insert object parts).insert x j).erase temp).erase
      object).get? y =
      if y = x then some j else if y = temp ∨ y = object then none else env.get? y := by
  simp only [Table.get?_erase, Table.get?_insert]
  by_cases hyo : y = object
  · simp [hyo, Ne.symm hobject]
  · by_cases hyt : y = temp
    · simp [hyt, Ne.symm htemp]
    · simp [hyo, hyt]

/-- Writing a component binds two temporary variables and removes them again. The variable is bound
to the rebuilt vector, which is one plain item as its type asks for. -/
theorem StmtsBalanced.setField (hS : S.Runnable) {x : String} {t : Typing} {k : Component}
    {type : SocketType} {value : TypedExpr} {ops writing : List Op} {object temp : String}
    (hobject : '#' ∈ object.toList) (htemp : '#' ∈ temp.toList) (hspelled : S.spelled x)
    (hx : Γ' x = some t.varType) (hone : t.types.length = 1) (hk : k.Of S.tree type)
    (hp : value.varType.Proper) (hne : value.types ≠ [])
    (hwriting : k.writeOps S.tree x object temp = .ok writing) (h : ExprBalanced Γ value Γ' ops) :
    StmtsBalanced Γ Γ'
      (Lower.firstOutput value ops ++ .bindVar temp :: [.getVar x] ++ .bindVar object :: writing ++
        [.destroyVar temp, .destroyVar object, .endOfStatement]) := by
  intro m m' hm houtputs hrun
  obtain ⟨m₅, hrun, hend⟩ := runOps_append_ok.1 hrun
  obtain ⟨m₃, hrun, hwrite⟩ := runOps_append_ok.1 hrun
  obtain ⟨m₁, h₁, hrun⟩ := runOps_append_ok.1 hrun
  obtain ⟨m₂, hbind, hrun⟩ := runOps_cons_ok.1 hrun
  obtain ⟨_, hget, hrun⟩ := runOps_cons_ok.1 hrun
  cases hrun
  obtain ⟨m₄, hbindObject, hwrite⟩ := runOps_cons_ok.1 hwrite
  obtain ⟨hm₁, -, hkeeps⟩ := h.firstOutput hp hne hm h₁
  have hstart : Appends none m₁ m₄ := by
    have h₂ := runOp_appends (show (Op.bindVar temp).Adds from trivial) hbind
    have h₃ := runOp_appends (show (Op.getVar x).Adds from trivial) hget
    have h₄ := runOp_appends (show (Op.bindVar object).Adds from trivial) hbindObject
    exact (h₂.trans h₃).trans h₄
  have hwritten := runOps_appends (Component.adds_writeOps hwriting) hwrite
  have happends := hstart.trans hwritten
  cases hend
  obtain ⟨i, _, -, rfl⟩ := bindVar_ok hbind
  obtain ⟨_, -, rfl⟩ := getVar_ok hget
  obtain ⟨old, _, -, rfl⟩ := bindVar_ok hbindObject
  obtain ⟨b, j, hj, henv₅, houts₅, -⟩ := writeOps_binds (R := Eq) hk hwriting hwrite
  have hplain : '#' ∉ x.toList := hS.plain x hspelled
  have hne' : x ≠ temp ∧ x ≠ object :=
    ⟨fun heq => hplain (heq ▸ htemp), fun heq => hplain (heq ▸ hobject)⟩
  -- The variable has its new value, and the two temporary variables are gone.
  have hget : ∀ y, ((m₅.env.erase temp).erase object).get? y =
      if y = x then some j else if y = temp ∨ y = object then none else m₁.env.get? y := by
    intro y
    rw [henv₅]
    exact get?_setField hne'.1 hne'.2 y
  have hvalue := Performed.of_keeps hm₁ hkeeps houtputs
  refine hvalue.trans ⟨⟨?_, ?_⟩, ?_, congrArg List.length houts₅, ?_⟩
  · intro y u hy
    change ∃ i, ((m₅.env.erase temp).erase object).get? y = some i ∧ _
    rw [hget]
    by_cases hyx : y = x
    · subst hyx
      rw [hx] at hy
      cases hy
      refine ⟨j, if_pos rfl, ?_⟩
      show j.Covers t.types.length
      rw [hone]
      exact .plain hj.plain
    · obtain ⟨i', hi', hcovers⟩ := hm₁.env y u hy
      have hbound : ¬ (y = temp ∨ y = object) := by
        rintro (rfl | rfl)
        · rw [hm₁.temporaries _ htemp] at hi'
          cases hi'
        · rw [hm₁.temporaries _ hobject] at hi'
          cases hi'
      exact ⟨i', by rw [if_neg hyx, if_neg hbound, hi'], hcovers⟩
  · intro y hy
    change ((m₅.env.erase temp).erase object).get? y = none
    have hyx : y ≠ x := by
      rintro rfl
      exact hplain hy
    rw [hget, if_neg hyx]
    split
    · rfl
    · exact hm₁.temporaries y hy
  · change ∀ i ∈ m₅.outputs, i.Plain
    rw [houts₅]
    exact hvalue.plain
  · exact ⟨happends.tree, happends.groups⟩

/-! ### Zones -/

/-- A variable that a zone carries is bound to a plain item. -/
theorem exists_of_mem_carried {ops : List Op} {item : RepeatItem} (h : item ∈ m.carried ops) :
    ∃ i, m.env.get? item.name = some i ∧ i.Plain := by
  obtain ⟨x, -, hmap⟩ := List.mem_filterMap.1 h
  obtain ⟨τ, hτ, rfl⟩ := Option.map_eq_some_iff.1 hmap
  obtain ⟨i, hi, htype⟩ := Option.bind_eq_some_iff.1 hτ
  exact ⟨i, hi, Item.plain_of_type? htype⟩

/-- The variables that a zone carries may be bound to sockets: each of them held a plain item, so its
type has one output, and a socket is an item for that. -/
theorem Machine.Tidy.items (hm : m.Tidy Γ) (ops : List Op) {env : Table String Item}
    (henv : EnvCovers Γ env) (htemps : NoTemporaries env) (node : NodeId) (index : Nat) :
    EnvCovers Γ (env.insertAll (itemSockets node index (m.carried ops))) ∧
      NoTemporaries (env.insertAll (itemSockets node index (m.carried ops))) := by
  refine ⟨henv.items node index fun item hitem t ht k => ?_, htemps.insertAll fun p hp hname => ?_⟩
  · obtain ⟨i, hi, hplain⟩ := exists_of_mem_carried hitem
    obtain ⟨i', hi', hcovers⟩ := hm.env item.name t ht
    rw [hi] at hi'
    cases hi'
    show (Item.socket _).Covers t.types.length
    rw [hcovers.eq_one hplain]
    exact .plain (Item.plain_socket _)
  · obtain ⟨q, hq, rfl⟩ := List.mem_map.1 hp
    obtain ⟨i, hi, -⟩ := exists_of_mem_carried (List.fst_mem_of_mem_zipIdx hq)
    rw [hm.temporaries _ hname] at hi
    cases hi

/-- An environment with items for types has items for those from which the types have grown. -/
theorem EnvCovers.of_keepsTypes {env : Table String Item} (h : EnvCovers Γ' env)
    (hkeeps : Γ.KeepsTypes Γ') : EnvCovers Γ env := by
  intro x t hx
  obtain ⟨u, hu, htypes⟩ := hkeeps x t hx
  obtain ⟨i, hi, hcovers⟩ := h x u hu
  refine ⟨i, hi, ?_⟩
  show i.Covers t.types.length
  rw [← htypes]
  exact hcovers

/-- A zone keeps the state tidy if its body does. What it carries comes back as sockets, and a
variable that is carried has one output. -/
theorem StmtsBalanced.zone {Γ₂ : TypeEnv} {count : TypedExpr} {body : List TypedStmt}
    {ops inner : List Op} (hp : count.varType.Proper) (hne : count.types ≠ [])
    (hb : BlockTyped (S.inZone Γ₁) Γ₁ body Γ₂) (h : ExprBalanced Γ count Γ₁ ops)
    (hbody : StmtsBalanced Γ₁ Γ₂ inner) :
    StmtsBalanced Γ Γ₁ (Lower.firstOutput count ops ++ [.zone inner, .endOfStatement]) := by
  intro m m' hm houtputs hrun
  obtain ⟨m₁, h₁, hrun⟩ := runOps_append_ok.1 hrun
  obtain ⟨m₂, hzone, hend⟩ := runOps_cons_ok.1 hrun
  obtain ⟨hm₁, -, hkeeps⟩ := h.firstOutput hp hne hm h₁
  have hcount := Performed.of_keeps hm₁ hkeeps houtputs
  refine (hcount.trans ?_).endOfStatement hend
  obtain ⟨i, rest, currents, last, finals, -, -, hinner, -, rfl⟩ := zone_ok hzone
  let items := m₁.carried inner
  have hentered : Appends none m₁ (m₁.zoneStart items i currents) := .zoneStart m₁ ..
  obtain ⟨henv, htemps⟩ := hm₁.items inner hm₁.env hm₁.temporaries m₁.tree.nodes.size 1
  have hin := hbody (m₁.zoneStart items i currents) last ⟨henv, htemps⟩
    hcount.plain hinner
  have houter : Γ₁ ∈ (S.inZone Γ₁).zones := List.mem_append_right _ (.head _)
  have houter := hin.tidy.env.of_keepsTypes (hb.keepsTypes houter fun _ o ho => ⟨o, ho, rfl⟩)
  obtain ⟨henv', htemps'⟩ :=
    hm₁.items inner houter hin.tidy.temporaries (m₁.tree.nodes.size + 1) 0
  have hleft := (hentered.trans hin.appends).zoneEnd items finals rest
  exact ⟨⟨henv', htemps'⟩, hin.plain, hin.length, hleft⟩

/-! ### Blocks -/

theorem StmtsBalanced.nil : StmtsBalanced Γ Γ [] := by
  intro m m' hm houtputs h
  cases h
  exact ⟨hm, houtputs, rfl, .of_eq rfl rfl⟩

/-- Statements in a row keep the state tidy. -/
theorem StmtsBalanced.append {ops more : List Op} (h : StmtsBalanced Γ Γ₁ ops)
    (hmore : StmtsBalanced Γ₁ Γ' more) : StmtsBalanced Γ Γ' (ops ++ more) := by
  intro m m' hm houtputs hrun
  obtain ⟨m₁, h₁, hrun⟩ := runOps_append_ok.1 hrun
  have hfirst := h m m₁ hm houtputs h₁
  exact hfirst.trans (hmore m₁ m' hfirst.tidy hfirst.plain hrun)

/-! ### Well-typed expressions and statements -/

mutual

/-- The ops of a well-typed expression push one item for its outputs, bind the free variables that it
creates, and keep all else. The recursion is that of lowering, and enters the bodies of the
definitions that are called. -/
theorem ExprTyped.balanced : (e : TypedExpr) → ∀ {S : Setting} {Γ Γ' : TypeEnv} {n n' : Nat}
    {ops : List Op}, S.Runnable → ExprTyped S Γ e Γ' → Lower.expr S.tree e n = .ok (ops, n') →
    ExprBalanced Γ e Γ' ops
  | .constant _ _, _, _, _, _, _, _, _, h, hops => by
    cases h with
    | constant ht =>
      cases hops
      exact .constant ht
  | .var _ _ _, _, _, _, _, _, _, hS, h, hops => by
    cases h with
    | var hx =>
      cases hops
      exact .var hx
    | free _ hx _ ht =>
      cases hops
      exact .free (hS.plain _ hx) ht
  | .node _ args _, _, _, _, _, _, _, hS, h, hops => by
    rw [Lower.expr] at hops
    obtain ⟨pushed, n₁, hpushed, hops⟩ := Lower.bind_ok_iff.1 hops
    cases hops
    cases h with
    | node _ ha hfeeds hin =>
      exact .node (hin ▸ hfeeds.length_le) (ArgsTyped.balanced args hS ha hfeeds.types_ne_nil hpushed)
  | .call ⟨name, kind, inputs, outputs, body⟩ args _, S, _, _, _, _, _, hS, h, hops => by
    rw [Lower.expr] at hops
    obtain ⟨pushed, n₁, hpushed, hops⟩ := Lower.bind_ok_iff.1 hops
    obtain ⟨defaults, n₂, hdefaults, hops⟩ := Lower.bind_ok_iff.1 hops
    obtain ⟨inner, n₃, hinner, hops⟩ := Lower.bind_ok_iff.1 hops
    cases hops
    obtain ⟨hdefaults, rfl⟩ := Lower.lift_ok_iff.1 hdefaults
    cases h with
    | call _ hfun ha hfeeds _ ht =>
      have hl : args.length ≤ inputs.length := by simpa using hfeeds.length_le
      rw [Lower.pushDefaults_ok hl] at hdefaults
      cases hdefaults
      cases hfun with
      | mk hinputs _ hbody =>
        have hS' : (S.body ⟨name, kind, inputs, outputs, body⟩).Runnable := ⟨hS.plain, hS.unique⟩
        exact .call hl ht (fun p hp => hS.plain _ (hinputs p hp))
          (ArgsTyped.balanced args hS ha hfeeds.types_ne_nil hpushed)
          (BlockTyped.balanced body hS' hbody hinner)
  | .output e _ _, _, _, _, _, _, _, hS, h, hops => by
    rw [Lower.expr] at hops
    obtain ⟨inner, n₁, hinner, hops⟩ := Lower.bind_ok_iff.1 hops
    cases hops
    cases h with
    | output he hshape _ _ ht => exact .output he.proper hshape ht (ExprTyped.balanced e hS he hinner)
  | .component e _ _, _, _, _, _, _, _, hS, h, hops => by
    rw [Lower.expr] at hops
    obtain ⟨inner, n₁, hinner, hops⟩ := Lower.bind_ok_iff.1 hops
    obtain ⟨temp, n₂, htemp, hops⟩ := Lower.bind_ok_iff.1 hops
    cases htemp
    obtain ⟨reading, n₃, hreading, hops⟩ := Lower.bind_ok_iff.1 hops
    cases hops
    obtain ⟨hreading, -⟩ := Lower.lift_ok_iff.1 hreading
    cases h with
    | component he _ hh hk ht =>
      exact .component (Lower.mem_temporary "field" n₁) he.proper
        (List.ne_nil_of_mem (List.mem_of_mem_head? hh)) hk ht hreading
        (ExprTyped.balanced e hS he hinner)

/-- Well-typed arguments push one plain item each, by induction on the list. -/
theorem ArgsTyped.balanced : (es : List TypedExpr) → ∀ {S : Setting} {Γ Γ' : TypeEnv} {n n' : Nat}
    {ops : List Op}, S.Runnable → ArgsTyped S Γ es Γ' → (∀ e ∈ es, e.types ≠ []) →
    Lower.args S.tree es n = .ok (ops, n') → ArgsBalanced Γ es Γ' ops
  | [], _, _, _, _, _, _, _, h, _, hops => by
    cases h
    cases hops
    exact .nil
  | e :: es, _, _, _, _, _, _, hS, h, hne, hops => by
    rw [Lower.args] at hops
    obtain ⟨first, n₁, hfirst, hops⟩ := Lower.bind_ok_iff.1 hops
    obtain ⟨others, n₂, hothers, hops⟩ := Lower.bind_ok_iff.1 hops
    cases hops
    cases h with
    | cons he hes =>
      exact .cons he.proper (hne e (.head _)) (ExprTyped.balanced e hS he hfirst)
        (ArgsTyped.balanced es hS hes (fun e' he' => hne e' (.tail _ he')) hothers)

/-- A well-typed statement keeps the state tidy: variables in scope are bound to items for their
outputs, no temporary variable is left, and outputs are plain. The induction is on the statement. -/
theorem StmtTyped.balanced : (s : TypedStmt) → ∀ {S : Setting} {Γ Γ' : TypeEnv} {n n' : Nat}
    {names : List String} {ops : List Op}, S.Runnable → StmtTyped S Γ s Γ' →
    Lower.stmt S.tree names s n = .ok (ops, n') → StmtsBalanced Γ Γ' ops
  | .expr e, _, _, _, _, _, _, _, hS, h, hops => by
    rw [Lower.stmt] at hops
    obtain ⟨inner, n₁, hinner, hops⟩ := Lower.bind_ok_iff.1 hops
    cases hops
    cases h with
    | expr he => exact .expr (ExprTyped.balanced e hS he hinner)
  | .assign targets e, S, _, _, _, _, _, _, hS, h, hops => by
    cases hc : e.constant? with
    | some v =>
      simp only [Lower.stmt, hc] at hops
      obtain ⟨storing, n₁, hstoring, hops⟩ := Lower.bind_ok_iff.1 hops
      cases hops
      obtain ⟨hstoring, -⟩ := Lower.lift_ok_iff.1 hstoring
      cases e with
      | constant u t =>
        cases hc
        cases h with
        | unpack _ _ hnone => cases hnone
        | assign he _ _ ht =>
          cases he with
          | constant hv => exact .assignConstant hS hv ht hstoring
      | _ => cases hc
    | none =>
      simp only [Lower.stmt, hc] at hops
      obtain ⟨inner, n₁, hinner, hops⟩ := Lower.bind_ok_iff.1 hops
      obtain ⟨storing, n₂, hstoring, hops⟩ := Lower.bind_ok_iff.1 hops
      cases hops
      obtain ⟨hstoring, -⟩ := Lower.lift_ok_iff.1 hstoring
      cases h with
      | assign he hne _ ht =>
        refine .assign (ExprTyped.balanced e hS he hinner) ?_
        intro stack m m' hpushed hm houtputs hrun
        exact storeOne_performed hS he.proper hne ht hstoring hpushed hm houtputs hrun
      | unpack he hne _ hl hu ht =>
        refine .assign (ExprTyped.balanced e hS he hinner) ?_
        intro stack m m' hpushed hm houtputs hrun
        exact storeAll_performed hS he.proper hne hl hu ht hstoring hpushed hm houtputs hrun
  | .setField x object part value, _, _, _, _, _, _, _, hS, h, hops => by
    cases h with
    | @setField _ _ _ _ t _ type _ hobject hspelled hshape hh hk he hfeeds =>
      rw [Lower.stmt] at hops
      obtain ⟨inner, n₁, hinner, hops⟩ := Lower.bind_ok_iff.1 hops
      obtain ⟨temp, n₂, htemp, hops⟩ := Lower.bind_ok_iff.1 hops
      cases htemp
      obtain ⟨get, n₃, hget, hops⟩ := Lower.bind_ok_iff.1 hops
      cases hget
      obtain ⟨old, n₄, hold, hops⟩ := Lower.bind_ok_iff.1 hops
      cases hold
      obtain ⟨writing, n₅, hwriting, hops⟩ := Lower.bind_ok_iff.1 hops
      cases hops
      obtain ⟨hwriting, -⟩ := Lower.lift_ok_iff.1 hwriting
      cases hobject with
      | var hx hp =>
        have hne : t.types ≠ [] := List.ne_nil_of_mem (List.mem_of_mem_head? hh)
        exact .setField hS (Lower.mem_temporary x (n₁ + 1)) (Lower.mem_temporary "value" n₁) hspelled
          (he.env_le value hx) (hp.length_eq_one hshape hne) hk he.proper hfeeds.types_ne_nil hwriting
          (ExprTyped.balanced value hS he hinner)
  | .zone count body, S, _, Γ₁, _, _, _, _, hS, h, hops => by
    rw [Lower.stmt] at hops
    obtain ⟨inner, n₁, hinner, hops⟩ := Lower.bind_ok_iff.1 hops
    obtain ⟨pushing, n₂, hpushing, hops⟩ := Lower.bind_ok_iff.1 hops
    cases hops
    cases h with
    | zone _ _ hcount hfeeds hb =>
      have hS' : (S.inZone Γ₁).Runnable := ⟨hS.plain, hS.unique⟩
      exact .zone hcount.proper hfeeds.types_ne_nil hb (ExprTyped.balanced count hS hcount hpushing)
        (BlockTyped.balanced body hS' hb hinner)

/-- The ops of well-typed statements keep the state tidy, and add nodes and links behind those that
there are. -/
theorem BlockTyped.balanced : (ss : List TypedStmt) → ∀ {S : Setting} {Γ Γ' : TypeEnv} {n n' : Nat}
    {names : List String} {ops : List Op}, S.Runnable → BlockTyped S Γ ss Γ' →
    Lower.stmts S.tree names ss n = .ok (ops, n') → StmtsBalanced Γ Γ' ops
  | [], _, _, _, _, _, _, _, _, h, hops => by
    cases h
    cases hops
    exact .nil
  | s :: ss, _, _, _, _, _, _, _, hS, h, hops => by
    rw [Lower.stmts] at hops
    obtain ⟨first, n₁, hfirst, hops⟩ := Lower.bind_ok_iff.1 hops
    obtain ⟨others, n₂, hothers, hops⟩ := Lower.bind_ok_iff.1 hops
    cases hops
    cases h with
    | cons hs hss =>
      exact (StmtTyped.balanced s hS hs hfirst).append (BlockTyped.balanced ss hS hss hothers)

end

end NodeFormula

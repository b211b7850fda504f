import NodeFormula.Proofs.Zones.Entries

/-!
# Names that zones leave behind

The machine keeps a name that a zone binds first, which the formula cannot read after the zone. So a
name that the machine holds is in scope, or an earlier zone bound it first (`Scopes`). From that, each
name that is left behind where a zone is entered comes from a zone that was entered before
(`BlockTyped.leftBefore`).
-/

namespace NodeFormula

/-- A zone is the first to bind a variable: it assigns it, and it is not in scope where the zone is
entered. -/
def ZoneEntry.BindsFirst (z : ZoneEntry) (x : String) : Prop := z.Assigns x ∧ ¬ z.Visible x

/-- What is left behind where one of the given zones is entered was first bound by a zone before it,
of which `past` are the first. -/
def LeftBefore (past : List ZoneEntry) : List ZoneEntry → Prop
  | [] => True
  | z :: zones => (∀ x, z.LeftBehind x → ∃ earlier ∈ past, earlier.BindsFirst x) ∧
    LeftBefore (past ++ [z]) zones

theorem leftBefore_append {past a b : List ZoneEntry} :
    LeftBefore past (a ++ b) ↔ LeftBefore past a ∧ LeftBefore (past ++ a) b := by
  induction a generalizing past with
  | nil =>
    rw [List.append_nil]
    exact ⟨fun h => ⟨trivial, h⟩, fun h => h.2⟩
  | cons z zones ih =>
    rw [List.cons_append, LeftBefore, LeftBefore, ih, and_assoc, List.append_assoc,
      List.singleton_append]

/-- More zones in the past leave more names to rest on. -/
theorem LeftBefore.mono {past past' zones : List ZoneEntry} (h : LeftBefore past zones)
    (hsub : past ⊆ past') : LeftBefore past' zones := by
  induction zones generalizing past past' with
  | nil => trivial
  | cons z zones ih =>
    refine ⟨fun x hx => ?_, ih h.2 fun z' hz' => ?_⟩
    · obtain ⟨earlier, hmem, hbinds⟩ := h.1 x hx
      exact ⟨earlier, hsub hmem, hbinds⟩
    · rcases List.mem_append.1 hz' with hz' | hz'
      · exact List.mem_append_left _ (hsub hz')
      · exact List.mem_append_right _ hz'

/-- Every name that the machine holds is in scope or was first bound by one of the given zones. -/
def Scopes (past : List ZoneEntry) (Γ : TypeEnv) (w : Widths) : Prop :=
  ∀ x, w x ≠ none → Γ x = none → ∃ earlier ∈ past, earlier.BindsFirst x

theorem Scopes.mono {past past' : List ZoneEntry} {Γ : TypeEnv} {w : Widths} (h : Scopes past Γ w)
    (hsub : past ⊆ past') : Scopes past' Γ w := by
  intro x hw hΓ
  obtain ⟨earlier, hmem, hbinds⟩ := h x hw hΓ
  exact ⟨earlier, hsub hmem, hbinds⟩

/-- The parameters of a function are in scope in its body, besides what was in scope before. -/
theorem TypeEnv.bindParams_ne_none {params : List TypedParam} {Γ : TypeEnv} {x : String}
    (h : Γ x ≠ none ∨ ∃ p ∈ params, p.name = x) : Γ.bindParams params x ≠ none := by
  induction params generalizing Γ with
  | nil =>
    rcases h with hΓ | ⟨p, hp, -⟩
    · exact hΓ
    · cases hp
  | cons p params ih =>
    change (Γ.bind p.name (.value p.type)).bindParams params x ≠ none
    refine ih ?_
    by_cases hname : x = p.name
    · subst hname
      rw [TypeEnv.bind_self]
      exact .inl (Option.some_ne_none _)
    · rw [TypeEnv.bind_of_ne hname]
      rcases h with hΓ | ⟨q, hq, rfl⟩
      · exact .inl hΓ
      · rcases List.mem_cons.1 hq with rfl | hq
        · exact absurd rfl hname
        · exact .inr ⟨q, hq, rfl⟩

/-- A body starts with its parameters alone. -/
theorem scopes_params (past : List ZoneEntry) (params : List TypedParam) :
    Scopes past (TypeEnv.empty.bindParams params) (Widths.ofParams params) := by
  intro x hw hΓ
  by_cases hany : params.any (·.name = x) = true
  · obtain ⟨p, hp, hname⟩ := List.any_eq_true.1 hany
    exact absurd hΓ (TypeEnv.bindParams_ne_none (.inr ⟨p, hp, by simpa using hname⟩))
  · exact absurd (if_neg hany) hw

/-! ### Names that statements bind -/

section
variable {S : Setting}

mutual

/-- A name that is held behind an expression was held before, or is a free variable that is in scope
after it. The bodies of functions that it calls have names of their own. The induction is on the
expression. -/
theorem ExprTyped.held_of_widths : (e : TypedExpr) → ∀ {Γ Γ' : TypeEnv} {w w' : Widths} {x : String},
    ExprTyped S Γ e Γ' → e.widths w = some w' → w' x ≠ none →
    w x ≠ none ∨ (S.free = true ∧ Γ' x ≠ none)
  | .constant _ _, _, _, _, _, _, _, hw, hx => by
    cases hw
    exact .inl hx
  | .var y _ _, _, _, _, _, x, h, hw, hx => by
    cases h with
    | var =>
      cases hw
      exact .inl hx
    | free hfree =>
      cases hw
      by_cases hxy : x = y
      · subst hxy
        refine .inr ⟨hfree, ?_⟩
        rw [TypeEnv.bind_self]
        exact Option.some_ne_none _
      · rw [if_pos rfl, Widths.bind_of_ne hxy] at hx
        exact .inl hx
  | .node _ args _, _, _, _, _, _, h, hw, hx => by
    cases h with | node _ ha => exact ArgsTyped.held_of_widthsAll args ha hw hx
  | .call ⟨_, _, inputs, _, body⟩ args _, _, _, _, _, _, h, hw, hx => by
    simp only [TypedExpr.widths, Option.bind_eq_bind, Option.bind_eq_some_iff] at hw
    obtain ⟨w', hargs, _, -, hw⟩ := hw
    cases hw
    cases h with | call _ _ ha => exact ArgsTyped.held_of_widthsAll args ha hargs hx
  | .output e _ _, _, _, _, _, _, h, hw, hx => by
    cases h with | output he => exact ExprTyped.held_of_widths e he hw hx
  | .component e _ _, _, _, _, _, _, h, hw, hx => by
    cases h with | component he => exact ExprTyped.held_of_widths e he hw hx

/-- A name that is held behind arguments was held before, or is a free variable, which is in scope
then. -/
theorem ArgsTyped.held_of_widthsAll : (es : List TypedExpr) → ∀ {Γ Γ' : TypeEnv} {w w' : Widths}
    {x : String}, ArgsTyped S Γ es Γ' → TypedExpr.widthsAll w es = some w' → w' x ≠ none →
    w x ≠ none ∨ (S.free = true ∧ Γ' x ≠ none)
  | [], _, _, _, _, _, _, hw, hx => by
    cases hw
    exact .inl hx
  | e :: es, _, _, _, _, x, h, hw, hx => by
    simp only [TypedExpr.widthsAll, Option.bind_eq_bind, Option.bind_eq_some_iff] at hw
    obtain ⟨w₁, he', hw⟩ := hw
    cases h with
    | cons he hes =>
      rcases ArgsTyped.held_of_widthsAll es hes hw hx with hx | hfree
      · rcases ExprTyped.held_of_widths e he he' hx with hx | ⟨hfree, hΓ⟩
        · exact .inl hx
        · obtain ⟨t, ht⟩ := Option.ne_none_iff_exists'.1 hΓ
          refine .inr ⟨hfree, ?_⟩
          rw [hes.env_le es ht]
          exact Option.some_ne_none _
      · exact .inr hfree

end

/-- Where there are no free variables, an expression binds nothing. -/
theorem ExprTyped.held_of_closed {e : TypedExpr} {Γ Γ' : TypeEnv} {w w' : Widths} {x : String}
    (hfree : S.free = false) (h : ExprTyped S Γ e Γ') (hw : e.widths w = some w')
    (hx : w' x ≠ none) : w x ≠ none := by
  rcases ExprTyped.held_of_widths e h hw hx with hx | ⟨hfree', -⟩
  · exact hx
  · rw [hfree] at hfree'
    cases hfree'

theorem Widths.held_of_store {w : Widths} {n : Nat} {target : TypedTarget} {x : String}
    (h : w.store n target x ≠ none) : w x ≠ none ∨ target = .var x := by
  cases target with
  | output | ignore => exact .inl h
  | var y =>
    by_cases hxy : x = y
    · exact .inr (congrArg TypedTarget.var hxy.symm)
    · rw [store, Widths.bind_of_ne hxy] at h
      exact .inl h

/-- A name that is held behind an assignment was held before or is one of its targets, whether there
is one target or several. -/
theorem Widths.held_of_storeAll {w : Widths} {e : TypedExpr} {targets : List TypedTarget}
    {x : String} (h : w.storeAll e targets x ≠ none) : w x ≠ none ∨ .var x ∈ targets := by
  have hparts : ∀ targets : List TypedTarget,
      targets.foldr (fun target w => w.store 1 target) w x ≠ none → w x ≠ none ∨ .var x ∈ targets := by
    intro targets
    induction targets with
    | nil => exact .inl
    | cons target targets ih =>
      intro h
      rcases Widths.held_of_store h with h | rfl
      · exact (ih h).imp_right (.tail _)
      · exact .inr (.head _)
  unfold Widths.storeAll at h
  split at h
  next target =>
    rcases Widths.held_of_store h with h | rfl
    · exact .inl h
    · exact .inr (.head _)
  next => exact hparts targets h

mutual

/-- A name that is held behind a statement was held before or is bound by the statement. Where no
free variables are allowed, there is no other way to get one. -/
theorem StmtTyped.held_of_widths : (s : TypedStmt) → ∀ {S : Setting} {Γ Γ' : TypeEnv}
    {w w' : Widths} {x : String}, S.free = false → StmtTyped S Γ s Γ' → s.widths w = some w' →
    w' x ≠ none → w x ≠ none ∨ x ∈ s.boundVars
  | .expr e, _, _, _, _, _, _, hfree, h, hw, hx => by
    cases h with
    | expr he => exact .inl (he.held_of_closed hfree hw hx)
  | .assign targets e, S, Γ, _, _, _, x, hfree, h, hw, hx => by
    simp only [TypedStmt.widths, Option.bind_eq_bind, Option.bind_eq_some_iff] at hw
    obtain ⟨w₁, he', hw⟩ := hw
    cases hw
    obtain ⟨Γ₁, he⟩ : ∃ Γ₁, ExprTyped S Γ e Γ₁ := by
      cases h with
      | assign he | unpack he => exact ⟨_, he⟩
    rcases Widths.held_of_storeAll hx with hx | hx
    · exact .inl (he.held_of_closed hfree he' hx)
    · exact .inr (List.mem_filterMap.2 ⟨_, hx, rfl⟩)
  | .setField y _ _ value, _, _, _, _, _, x, hfree, h, hw, hx => by
    simp only [TypedStmt.widths, Option.bind_eq_bind, Option.bind_eq_some_iff] at hw
    obtain ⟨w₁, he', hw⟩ := hw
    cases hw
    by_cases hxy : x = y
    · exact .inr (List.mem_singleton.2 hxy)
    · rw [Widths.bind_of_ne hxy] at hx
      cases h with
      | setField _ _ _ _ _ he => exact .inl (he.held_of_closed hfree he' hx)
  | .zone count body, _, _, _, _, _, _, hfree, h, hw, hx => by
    simp only [TypedStmt.widths, Option.bind_eq_bind, Option.bind_eq_some_iff] at hw
    obtain ⟨before, hcount', after, hbody, hw⟩ := hw
    split at hw
    next =>
      cases hw
      cases h with
      | zone _ _ hcount _ hb =>
        rcases BlockTyped.held_of_widthsAll body rfl hb hbody hx with hx | hx
        · exact .inl (hcount.held_of_closed hfree hcount' hx)
        · exact .inr hx
    next => cases hw

/-- Where there are no free variables, statements bind the variables that they assign. -/
theorem BlockTyped.held_of_widthsAll : (ss : List TypedStmt) → ∀ {S : Setting} {Γ Γ' : TypeEnv}
    {w w' : Widths} {x : String}, S.free = false → BlockTyped S Γ ss Γ' →
    TypedStmt.widthsAll w ss = some w' → w' x ≠ none → w x ≠ none ∨ x ∈ TypedStmt.boundVarsAll ss
  | [], _, _, _, _, _, _, _, _, hw, hx => by
    cases hw
    exact .inl hx
  | s :: ss, _, _, _, _, _, _, hfree, h, hw, hx => by
    simp only [TypedStmt.widthsAll, Option.bind_eq_bind, Option.bind_eq_some_iff] at hw
    obtain ⟨w₁, hs', hw⟩ := hw
    cases h with
    | cons hs hss =>
      rcases BlockTyped.held_of_widthsAll ss hfree hss hw hx with hx | hx
      · exact (StmtTyped.held_of_widths s hfree hs hs' hx).imp_right (List.mem_append_left _)
      · exact .inr (List.mem_append_right _ hx)

end

/-! ### Scopes of well-typed statements -/

section
variable {Γ Γ' Γ₁ : TypeEnv} {w w' : Widths} {past : List ZoneEntry}

/-- An expression only adds free variables, which are in scope, so it keeps what is said of held
names. -/
theorem Scopes.expr {e : TypedExpr} (h : Scopes past Γ w) (he : ExprTyped S Γ e Γ')
    (hw : e.widths w = some w') : Scopes past Γ' w' := by
  intro x hx hΓ
  have hheld := (ExprTyped.held_of_widths e he hw hx).resolve_right fun hfree => hfree.2 hΓ
  refine h x hheld ?_
  cases ht : Γ x with
  | none => rfl
  | some t =>
    rw [he.env_le e ht] at hΓ
    cases hΓ

/-- A name that is not in scope behind a target was not in scope before it, and is not the target. -/
theorem TargetTyped.not_mem_scope {target : TypedTarget} {t : VarType} {x : String}
    (h : TargetTyped S Γ target t Γ') (hx : Γ' x = none) : Γ x = none ∧ target ≠ .var x := by
  cases h with
  | output | ignore => exact ⟨hx, TypedTarget.noConfusion⟩
  | @var y =>
    by_cases hxy : x = y
    · subst hxy
      rw [TypeEnv.bind_self] at hx
      cases hx
    · rw [TypeEnv.bind_of_ne hxy] at hx
      exact ⟨hx, fun hvar => hxy (TypedTarget.var.inj hvar).symm⟩

/-- A name that is not in scope behind several targets was not in scope before them, and is none of
them. -/
theorem TargetsTyped.not_mem_scope {targets : List TypedTarget} {parts : List SocketType}
    {x : String} (h : TargetsTyped S Γ targets parts Γ') (hx : Γ' x = none) :
    Γ x = none ∧ .var x ∉ targets := by
  induction h with
  | nil => exact ⟨hx, List.not_mem_nil⟩
  | cons ht _ ih =>
    obtain ⟨hΓ₁, hrest⟩ := ih hx
    obtain ⟨hΓ, hfirst⟩ := ht.not_mem_scope hΓ₁
    refine ⟨hΓ, fun hmem => ?_⟩
    rcases List.mem_cons.1 hmem with hmem | hmem
    · exact hfirst hmem.symm
    · exact hrest hmem

theorem Scopes.storeAll {e : TypedExpr} {targets : List TypedTarget} (h : Scopes past Γ w)
    (hscope : ∀ x, Γ' x = none → Γ x = none ∧ .var x ∉ targets) :
    Scopes past Γ' (w.storeAll e targets) := by
  intro x hx hΓ
  obtain ⟨hΓ, hmem⟩ := hscope x hΓ
  exact h x ((Widths.held_of_storeAll hx).resolve_right hmem) hΓ

/-- Holding a value for a name in scope keeps what is said of held names. -/
theorem Scopes.bind {x : String} {t : VarType} {n : Nat} (h : Scopes past Γ w) (hx : Γ x = some t) :
    Scopes past Γ (w.bind x n) := by
  intro y hy hΓ
  refine h y ?_ hΓ
  rw [Widths.bind_of_ne ?_] at hy
  · exact hy
  · rintro rfl
    rw [hx] at hΓ
    cases hΓ

/-- What is left behind where a zone is entered was first bound by an earlier zone. -/
theorem Scopes.exists_of_leftBehind {body : List TypedStmt} {x : String} (h : Scopes past Γ w)
    (hx : ZoneEntry.LeftBehind ⟨Γ, w, body⟩ x) : ∃ earlier ∈ past, earlier.BindsFirst x := by
  obtain ⟨hscope, hheld⟩ := hx
  have hone : w x = some 1 := hheld
  refine h x ?_ hscope
  rw [hone]
  exact Option.some_ne_none _

/-- After a zone, what it bound first is left behind. -/
theorem Scopes.zone {Γ₂ : TypeEnv} {body : List TypedStmt} (h : Scopes past Γ w)
    (hb : BlockTyped (S.inZone Γ) Γ body Γ₂) (hw : TypedStmt.widthsAll w body = some w') :
    Scopes (past ++ [⟨Γ, w, body⟩]) Γ w' := by
  intro x hx hΓ
  rcases BlockTyped.held_of_widthsAll body rfl hb hw hx with hx | hx
  · exact h.mono (List.subset_append_left ..) x hx hΓ
  · exact ⟨⟨Γ, w, body⟩, List.mem_append_right _ (.head _), hx, fun hvisible => hvisible hΓ⟩

end

mutual

/-- The zones of the functions that an expression calls only find names left behind that an earlier
zone of the same body bound first, and so do the groups that it calls. A body starts with its
parameters and no past. -/
theorem ExprTyped.leftBefore : (e : TypedExpr) → ∀ {S : Setting} {Γ Γ' : TypeEnv} {w w' : Widths},
    ExprTyped S Γ e Γ' → e.widths w = some w' →
    LeftBefore [] (e.zones S.tree) ∧ ∀ f ∈ e.groups, LeftBefore [] (f.zones S.tree)
  | .constant _ _, _, _, _, _, _, _, _ => ⟨trivial, List.forall_mem_nil _⟩
  | .var _ _ _, _, _, _, _, _, _, _ => ⟨trivial, List.forall_mem_nil _⟩
  | .node _ args _, _, _, _, _, _, h, hw => by
    cases h with | node _ ha => exact ArgsTyped.leftBefore args ha hw
  | .call ⟨name, kind, inputs, outputs, body⟩ args _, S, _, _, _, _, h, hw => by
    simp only [TypedExpr.widths, Option.bind_eq_bind, Option.bind_eq_some_iff] at hw
    obtain ⟨w₁, hargs, wf, hbody', hw⟩ := hw
    cases h with
    | call _ hfun ha =>
      cases hfun with
      | mk _ _ hbody =>
        obtain ⟨hzones, hgroups⟩ := ArgsTyped.leftBefore args ha hargs
        obtain ⟨hbodyZones, -, hbodyGroups⟩ :=
          BlockTyped.leftBefore body hbody hbody' (scopes_params [] inputs)
        have hinner : ∀ f ∈ TypedExpr.groupsAll args ++ TypedStmt.groupsAll body,
            LeftBefore [] (f.zones S.tree) := List.forall_mem_append.2 ⟨hgroups, hbodyGroups⟩
        cases kind with
        | function =>
          refine ⟨leftBefore_append.2 ⟨hzones, hbodyZones.mono (List.nil_subset _)⟩, ?_⟩
          rw [TypedExpr.groups, List.append_nil]
          exact hinner
        | group =>
          rw [TypedExpr.zones, List.append_nil]
          exact ⟨hzones, List.forall_mem_append.2 ⟨hinner, List.forall_mem_singleton.2 hbodyZones⟩⟩
  | .output e _ _, _, _, _, _, _, h, hw => by
    cases h with | output he => exact ExprTyped.leftBefore e he hw
  | .component e _ _, _, _, _, _, _, h, hw => by
    cases h with | component he => exact ExprTyped.leftBefore e he hw

/-- The functions and groups that arguments call find names left behind from earlier zones of the
same body, one argument after the other. -/
theorem ArgsTyped.leftBefore : (es : List TypedExpr) → ∀ {S : Setting} {Γ Γ' : TypeEnv}
    {w w' : Widths}, ArgsTyped S Γ es Γ' → TypedExpr.widthsAll w es = some w' →
    LeftBefore [] (TypedExpr.zonesAll S.tree es) ∧
      ∀ f ∈ TypedExpr.groupsAll es, LeftBefore [] (f.zones S.tree)
  | [], _, _, _, _, _, _, _ => ⟨trivial, List.forall_mem_nil _⟩
  | e :: es, _, _, _, _, _, h, hw => by
    simp only [TypedExpr.widthsAll, Option.bind_eq_bind, Option.bind_eq_some_iff] at hw
    obtain ⟨w₁, he', hw⟩ := hw
    cases h with
    | cons he hes =>
      obtain ⟨hzones, hgroups⟩ := ExprTyped.leftBefore e he he'
      obtain ⟨hmore, hmoreGroups⟩ := ArgsTyped.leftBefore es hes hw
      exact ⟨leftBefore_append.2 ⟨hzones, hmore.mono (List.nil_subset _)⟩,
        List.forall_mem_append.2 ⟨hgroups, hmoreGroups⟩⟩

/-- Each zone of a well-typed statement finds names left behind from earlier zones, and what is said
of held names goes on behind the statement. The induction is on the statement, where a zone is itself
in the past of the zones in its body. -/
theorem StmtTyped.leftBefore : (s : TypedStmt) → ∀ {S : Setting} {Γ Γ' : TypeEnv} {w w' : Widths}
    {past : List ZoneEntry}, StmtTyped S Γ s Γ' → s.widths w = some w' → Scopes past Γ w →
    LeftBefore past (s.zones S.tree Γ w) ∧ Scopes (past ++ s.zones S.tree Γ w) Γ' w' ∧
      ∀ f ∈ s.groups, LeftBefore [] (f.zones S.tree)
  | .expr e, _, _, _, _, _, past, h, hw, hscopes => by
    cases h with
    | expr he =>
      obtain ⟨hzones, hgroups⟩ := ExprTyped.leftBefore e he hw
      exact ⟨hzones.mono (List.nil_subset _),
        (hscopes.expr he hw).mono (List.subset_append_left ..), hgroups⟩
  | .assign targets e, S, Γ, Γ', _, _, past, h, hw, hscopes => by
    simp only [TypedStmt.widths, Option.bind_eq_bind, Option.bind_eq_some_iff] at hw
    obtain ⟨w₁, he', hw⟩ := hw
    cases hw
    obtain ⟨Γ₁, he, hscope⟩ : ∃ Γ₁, ExprTyped S Γ e Γ₁ ∧
        ∀ x, Γ' x = none → Γ₁ x = none ∧ .var x ∉ targets := by
      cases h with
      | assign he _ _ ht =>
        refine ⟨_, he, fun x hx => ?_⟩
        obtain ⟨hΓ, hvar⟩ := ht.not_mem_scope hx
        exact ⟨hΓ, fun hmem => hvar (List.mem_singleton.1 hmem).symm⟩
      | unpack he _ _ _ _ ht => exact ⟨_, he, fun x hx => ht.not_mem_scope hx⟩
    obtain ⟨hzones, hgroups⟩ := ExprTyped.leftBefore e he he'
    exact ⟨hzones.mono (List.nil_subset _),
      ((hscopes.expr he he').storeAll hscope).mono (List.subset_append_left ..), hgroups⟩
  | .setField y _ _ value, S, Γ, Γ', _, _, past, h, hw, hscopes => by
    simp only [TypedStmt.widths, Option.bind_eq_bind, Option.bind_eq_some_iff] at hw
    obtain ⟨w₁, he', hw⟩ := hw
    cases hw
    cases h with
    | setField hobject _ _ _ _ he =>
      obtain ⟨hzones, hgroups⟩ := ExprTyped.leftBefore value he he'
      cases hobject with
      | var hy =>
        exact ⟨hzones.mono (List.nil_subset _), ((hscopes.expr he he').bind
          (he.env_le value hy)).mono (List.subset_append_left ..), hgroups⟩
  | .zone count body, S, Γ, Γ₁, w, w', past, h, hw, hscopes => by
    simp only [TypedStmt.widths, Option.bind_eq_bind, Option.bind_eq_some_iff] at hw
    obtain ⟨before, hcount', after, hbody', hw⟩ := hw
    split at hw
    next =>
      cases hw
      cases h with
      | zone _ _ hcount _ hb =>
        obtain ⟨hzones, hgroups⟩ := ExprTyped.leftBefore count hcount hcount'
        have hstart : Scopes (past ++ count.zones S.tree) Γ₁ before :=
          (hscopes.expr hcount hcount').mono (List.subset_append_left ..)
        obtain ⟨hinner, -, hinnerGroups⟩ := BlockTyped.leftBefore body hb hbody'
          (hstart.mono (List.subset_append_left _ [⟨Γ₁, before, body⟩]))
        have hpast : past ++ (count.zones S.tree ++
            ⟨Γ₁, before, body⟩ :: TypedStmt.zonesAll S.tree Γ₁ before body) =
            past ++ count.zones S.tree ++ [⟨Γ₁, before, body⟩] ++
              TypedStmt.zonesAll S.tree Γ₁ before body := by simp
        rw [hcount.zones_zone hcount', hpast]
        have hentry : LeftBefore (past ++ count.zones S.tree)
            (⟨Γ₁, before, body⟩ :: TypedStmt.zonesAll S.tree Γ₁ before body) :=
          ⟨fun x hx => hstart.exists_of_leftBehind hx, hinner⟩
        exact ⟨leftBefore_append.2 ⟨hzones.mono (List.nil_subset _), hentry⟩,
          (hstart.zone hb hbody').mono (List.subset_append_left ..),
          List.forall_mem_append.2 ⟨hgroups, hinnerGroups⟩⟩
    next => cases hw

/-- What is left behind where a zone of a well-typed block is entered was first bound by a zone that
was entered before. -/
theorem BlockTyped.leftBefore : (ss : List TypedStmt) → ∀ {S : Setting} {Γ Γ' : TypeEnv}
    {w w' : Widths} {past : List ZoneEntry}, BlockTyped S Γ ss Γ' →
    TypedStmt.widthsAll w ss = some w' → Scopes past Γ w →
    LeftBefore past (TypedStmt.zonesAll S.tree Γ w ss) ∧
      Scopes (past ++ TypedStmt.zonesAll S.tree Γ w ss) Γ' w' ∧
      ∀ f ∈ TypedStmt.groupsAll ss, LeftBefore [] (f.zones S.tree)
  | [], _, _, _, _, _, past, h, hw, hscopes => by
    cases h
    cases hw
    exact ⟨trivial, hscopes.mono (List.subset_append_left ..), List.forall_mem_nil _⟩
  | s :: ss, _, _, _, _, _, past, h, hw, hscopes => by
    simp only [TypedStmt.widthsAll, Option.bind_eq_bind, Option.bind_eq_some_iff] at hw
    obtain ⟨w₁, hs', hw⟩ := hw
    cases h with
    | cons hs hss =>
      obtain ⟨hzones, hscopes₁, hgroups⟩ := StmtTyped.leftBefore s hs hs' hscopes
      obtain ⟨hmore, hscopes', hmoreGroups⟩ := BlockTyped.leftBefore ss hss hw hscopes₁
      rw [TypedStmt.zonesAll, hs.scopeAfter_eq, hs']
      rw [List.append_assoc] at hscopes'
      exact ⟨leftBefore_append.2 ⟨hzones, hmore⟩, hscopes',
        List.forall_mem_append.2 ⟨hgroups, hmoreGroups⟩⟩

end

end

end NodeFormula

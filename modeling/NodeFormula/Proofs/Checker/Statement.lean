import NodeFormula.Proofs.Checker.Expression
import NodeFormula.Proofs.Checker.Growth

/-!
# Checked statements are well typed

What the checker makes of statements without noting an error is well typed (`block_typed`). A clean run
has no failed statement in it, since failures are noted and errors are never taken back. Definitions
are added in between; `known` of the setting is asked of the definitions at the end only, and these
include all earlier ones.
-/

namespace NodeFormula

/-! ### Parts of the language -/

/-- A target's name satisfies `P`. -/
def Target.Spelled (P : String → Prop) : Target → Prop
  | .name n _ => P n
  | .ignore _ => True

/-- A parameter's name satisfies `P`, and so do the variables in its default. -/
def Param.Spelled (P : String → Prop) (p : Param) : Prop :=
  P p.name ∧ ∀ e, p.default = some e → e.Spelled P

mutual

/-- A statement is in a part of the language. -/
def Stmt.Within (d : Dialect) : Stmt → Prop
  | .expr e _ => e.Spelled d.spelled
  | .assign targets e _ => (∀ t ∈ targets, t.Spelled d.spelled) ∧ e.Spelled d.spelled
  | .setField target _ e _ => d.spelled target ∧ e.Spelled d.spelled
  | .loop _ _ _ body _ => Stmt.AllWithin d body
  | .zone count body _ => d.repeats ∧ count.Spelled d.spelled ∧ Stmt.AllWithin d body
  | .define h body _ => (∀ p ∈ h.inputs, p.Spelled d.spelled) ∧ Stmt.AllWithin d body

/-- Statements are in a part of the language. -/
def Stmt.AllWithin (d : Dialect) : List Stmt → Prop
  | [] => True
  | s :: ss => s.Within d ∧ Stmt.AllWithin d ss

end

/-! ### Settings -/

section
variable {S S' : Setting} {ctx : Context}

/-- Two settings with the same language, tree and definitions. -/
structure Setting.Alike (S S' : Setting) : Prop where
  dialect : S'.toDialect = S.toDialect
  tree : S'.tree = S.tree
  known : S'.known = S.known

theorem Setting.Alike.symm (h : S.Alike S') : S'.Alike S :=
  ⟨h.dialect.symm, h.tree.symm, h.known.symm⟩

theorem FunctionTyped.alike (h : S.Alike S') {f : TypedFunction} (hf : FunctionTyped S f) :
    FunctionTyped S' f := by
  have hb : S'.body f = S.body f := by simp [Setting.body, h.tree, h.known, h.dialect]
  cases hf with
  | mk hn hd hbody ha => exact .mk (by rw [h.dialect]; exact hn) hd (by rw [hb]; exact hbody) ha

theorem Knows.alike (h : S.Alike S') {functions : Table String TypedFunction}
    (hk : Knows S functions) : Knows S' functions := fun n f hf =>
  let ⟨hn, hknown, htyped⟩ := hk n f hf
  ⟨hn, by rw [h.known]; exact hknown, htyped.alike h⟩

theorem InSetting.inLoop (h : InSetting ctx S) : InSetting ctx.inLoop S :=
  ⟨h.tree, h.outputs, h.free, h.zones, fun _ => rfl⟩

theorem InSetting.inZone (h : InSetting ctx S) {scope : Scope} {Γ : TypeEnv}
    (ht : Tracks scope Γ) : InSetting (ctx.inZone scope) (S.inZone Γ) where
  tree := h.tree
  outputs := h.outputs
  free := by simp [Context.inZone, Setting.inZone]
  zones := List.rel_append h.zones (.cons ht .nil)
  nested _ := rfl

theorem InSetting.inDefinition (h : InSetting ctx S) (htop : ctx.topLevel = true) (name : String)
    (f : TypedFunction) : InSetting (ctx.inDefinition ⟨name, f.outputs⟩) (S.body f) := by
  have hz : ctx.zones = [] := by
    rcases hc : ctx.zones with _ | ⟨z, zs⟩
    · rfl
    · have := h.nested (by simp [hc])
      simp [Context.topLevel, this] at htop
  exact ⟨h.tree, rfl, rfl, by simp [Context.inDefinition, Setting.body, hz],
    by simp [Context.inDefinition, hz]⟩

end

/-- In a zone no output is assigned. -/
theorem TargetsTyped.output_not_mem {S : Setting} {Γ Γ' : TypeEnv} {targets : List TypedTarget}
    {parts : List SocketType} (h : TargetsTyped S Γ targets parts Γ') (hz : S.zones ≠ []) (i : Nat) :
    .output i ∉ targets := by
  induction h with
  | nil => exact List.not_mem_nil
  | cons ht _ ih =>
    intro hm
    cases hm with
    | head => cases ht with | output h => exact hz h
    | tail _ hm => exact ih hm

/-- A well-typed block in a zone assigns no output, by induction on the block, so the check for
outputs that are never assigned need not look into zones. -/
theorem BlockTyped.not_assigns {S : Setting} {Γ Γ' : TypeEnv} {ss : List TypedStmt}
    (h : BlockTyped S Γ ss Γ') (hz : S.zones ≠ []) (i : Nat) : ∀ s ∈ ss, ¬ s.Assigns i := by
  induction ss generalizing Γ with
  | nil => exact fun _ h => nomatch h
  | cons s ss ih =>
    cases h with
    | cons hs hss =>
      intro x hx
      cases hx with
      | tail _ hx => exact ih hss x hx
      | head =>
        cases hs with
        | expr | setField | zone => exact id
        | unpack _ _ _ _ _ ht => exact ht.output_not_mem hz i
        | assign _ _ _ ht =>
          intro hm
          cases List.mem_singleton.1 hm
          cases ht with | output h => exact hz h

namespace Check

variable {S : Setting} {ctx : Context} {Γ : TypeEnv} {s s' : Checker}

/-! ### Targets -/

theorem output?_some {n : String} {d : Enclosing} {i : Nat} {type : SocketType}
    (h : ctx.output? n = some (d, i, type)) :
    ctx.enclosing = some d ∧ ∃ p, d.outputs[i]? = some p ∧ p.type = type := by
  simp only [Context.output?, Option.bind_eq_bind, Option.bind_eq_some_iff] at h
  obtain ⟨d', hd, j, -, p, hp, h⟩ := h
  cases h
  exact ⟨hd, p, hp, rfl⟩

/-- A variable that no zone around the block keeps from being rebound has, in each zone where it is
bound outside, a type that the zone can carry. The induction is over the zones. -/
theorem zoneProblem?_none {n : String} {b : Binding} (hS : InSetting ctx S)
    (h : zoneProblem? ctx n b = none) :
    ∀ outer ∈ S.zones, ∀ o, outer n = some o → o.Carries b.varType := by
  unfold zoneProblem? at h
  have hz := hS.zones
  generalize ctx.zones = scopes at h hz
  generalize S.zones = envs at hz
  induction hz with
  | nil => exact fun _ h => nomatch h
  | @cons scope Γz _ _ ht _ ih =>
    rw [List.findSome?_cons] at h
    split at h
    next => cases h
    next hnone =>
      intro outer hm o ho
      cases hm with
      | tail _ hm => exact ih h outer hm o ho
      | head =>
        cases hb : scope.get? n with
        | none => rw [ht.unbound n hb] at ho; cases ho
        | some b' =>
          rw [hb, Option.bind_some] at hnone
          unfold carryProblem? at hnone
          split at hnone
          next => cases hnone
          next hc =>
            split at hnone
            next => cases hnone
            next hs =>
              split at hnone
              next => cases hnone
              next hts =>
                simp only [Option.isSome_iff_ne_none, ne_eq, not_not, not_or] at hc hts
                rw [(ht.bound n b' hb hc).1] at ho
                cases ho
                refine ⟨?_, hts.1, hts.2⟩
                cases hsh : b'.shape with
                | single => simp [Binding.varType, hsh]
                | bundle => exact absurd hsh hs

/-- What assigning to a target gives: a well-typed target, the scope and the assigned outputs that it
makes. -/
structure Assigned (S : Setting) (Γ : TypeEnv) (s : Checker) (t : TypedTarget) (type : VarType)
    (Γ' : TypeEnv) (s' : Checker) : Prop where
  typed : TargetTyped S Γ t type Γ'
  tracks : Tracks s'.scope Γ'
  state : s' = { s with scope := s'.scope, assigned := s'.assigned }
  assigned : ∀ i ∈ s'.assigned, i ∈ s.assigned ∨ t = .output i

/-- Assigning to a target gives a well-typed target. An output has a type that its parameter takes
and stands in no zone, and a variable is one that all zones around can carry. -/
theorem assignTarget_typed {target : Target} {b : Binding} {t : TypedTarget}
    (hS : InSetting ctx S) (ht : Tracks s.scope Γ) (hn : target.Spelled S.spelled)
    (hb : b.constant = none) (hp : b.varType.Proper) (h : assignTarget ctx target b s = .ok t s') :
    ∃ Γ', Assigned S Γ s t b.varType Γ' s' := by
  cases target with
  | ignore =>
    obtain ⟨rfl, rfl⟩ := pure_ok.1 h
    exact ⟨Γ, .ignore, ht, rfl, fun _ hi => .inl hi⟩
  | name n span =>
    unfold assignTarget at h
    simp only at h
    cases ho : ctx.output? n with
    | some out =>
      obtain ⟨d, i, expected⟩ := out
      simp only [ho, guard_ok, bind_ok, require_ok, modify_ok, pure_ok] at h
      obtain ⟨hz, found, _, ⟨hf, rfl⟩, hc, _, _, rfl, rfl, rfl⟩ := h
      obtain ⟨hd, p, hpo, rfl⟩ := output?_some ho
      have hzones : S.zones = [] := by
        have hz' : ctx.zones = [] := by simpa using hz
        exact List.forall₂_nil_left_iff.1 (hz' ▸ hS.zones)
      have hout : S.outputs[i]? = some p := by rw [hS.outputs, hd]; exact hpo
      refine ⟨Γ, .output hzones hout hf (by simpa using hc), ht, rfl, ?_⟩
      intro j hj
      cases hj with
      | head => exact .inr rfl
      | tail _ hj => exact .inl hj
    | none =>
      cases hz : zoneProblem? ctx n b with
      | some problem =>
        simp only [ho, hz] at h
        exact (fail_ok.1 h).elim
      | none =>
        simp only [ho, hz, Check.bind, bind_ok, modify_ok, pure_ok] at h
        obtain ⟨_, _, rfl, rfl, rfl⟩ := h
        exact ⟨_, .var hn (zoneProblem?_none hS hz), ht.insert n hb hp, rfl, fun _ hi => .inl hi⟩

/-- A constant that passed is one that a node of the tree holds, unless it is ignored. Checking it
changes nothing, as it only raises an error or does not. -/
theorem checkConstant_ok {t : TypedTarget} {e : TypedExpr} {u : Unit}
    (h : checkConstant ctx t e s = .ok u s') : s' = s ∧ ConstantKept ctx.tree t e := by
  unfold checkConstant at h
  cases t with
  | ignore =>
    obtain ⟨-, rfl⟩ := pure_ok.1 h
    exact ⟨rfl, fun h => absurd rfl h⟩
  | var | output =>
    cases hv : e.constant? with
    | none =>
      rw [hv] at h
      obtain ⟨-, rfl⟩ := pure_ok.1 h
      exact ⟨rfl, fun _ w hw => by rw [hv] at hw; cases hw⟩
    | some v =>
      rw [hv] at h
      simp only at h
      split at h
      next hs =>
        obtain ⟨-, rfl⟩ := pure_ok.1 h
        exact ⟨rfl, fun _ w hw => by rw [hv] at hw; cases hw; exact hs⟩
      next => exact (fail_ok.1 h).elim

/-! ### Assignments -/

/-- What checking statements gives: well-typed statements, known and well-typed definitions, and the
scope and the assigned outputs that the statements make. -/
structure Checked (S : Setting) (Γ : TypeEnv) (s : Checker) (ss : List TypedStmt) (Γ' : TypeEnv)
    (s' : Checker) : Prop where
  typed : BlockTyped S Γ ss Γ'
  tracks : Tracks s'.scope Γ'
  knows : Knows S s'.functions
  assigned : ∀ i ∈ s'.assigned, i ∈ s.assigned ∨ ∃ st ∈ ss, st.Assigns i

/-- What two blocks in a row give, the second checked in the scope that the first has made. -/
theorem Checked.append {Γ₁ Γ' : TypeEnv} {s₁ : Checker} {a b : List TypedStmt}
    (ha : Checked S Γ s a Γ₁ s₁) (hb : Checked S Γ₁ s₁ b Γ' s') : Checked S Γ s (a ++ b) Γ' s' where
  typed := ha.typed.append hb.typed
  tracks := hb.tracks
  knows := hb.knows
  assigned i hi := by
    rcases hb.assigned i hi with hi | ⟨st, hm, hst⟩
    · rcases ha.assigned i hi with hi | ⟨st, hm, hst⟩
      · exact .inl hi
      · exact .inr ⟨st, List.mem_append_left _ hm, hst⟩
    · exact .inr ⟨st, List.mem_append_right _ hm, hst⟩

/-- An assignment to one target is well typed. A constant for an output is converted to the output's
type, and then the statement holds the converted expression. -/
theorem assignOne_typed {target : Target} {e : TypedExpr} {Γ₁ : TypeEnv} {ss : List TypedStmt}
    (hS : InSetting ctx S) (he : ExprTyped S Γ e Γ₁) (hne : e.types ≠ []) (ht : Tracks s.scope Γ₁)
    (hk : Knows S s.functions) (hn : target.Spelled S.spelled)
    (h : assignOne ctx target e s = .ok ss s') : ∃ Γ', Checked S Γ s ss Γ' s' := by
  simp only [assignOne, bind_ok, pure_ok] at h
  obtain ⟨t, s₂, hta, _, s₃, hc, rfl, rfl⟩ := h
  have hp : (Binding.ofTyping e.typing).varType.Proper := he.proper
  obtain ⟨Γ', ha⟩ := assignTarget_typed hS ht hn rfl hp hta
  obtain ⟨rfl, hkept⟩ := checkConstant_ok hc
  rw [← hS.tree] at hkept
  have hk' : Knows S s₃.functions := by rw [ha.state]; exact hk
  have hassigned : ∀ value, ∀ i ∈ s₃.assigned, i ∈ s.assigned ∨
      ∃ st ∈ [TypedStmt.assign [t] value], st.Assigns i := by
    intro value i hi
    rcases ha.assigned i hi with hi | rfl
    · exact .inl hi
    · exact .inr ⟨_, .head _, .head _⟩
  cases ha.typed with
  | ignore => exact ⟨_, .single (.assign he hne hkept .ignore), ha.tracks, hk', hassigned _⟩
  | var hx hz => exact ⟨_, .single (.assign he hne hkept (.var hx hz)), ha.tracks, hk', hassigned _⟩
  | @output i p _ a hz hp hh hcv =>
    -- A constant is converted to the type of the output, so the statement holds another expression.
    have hout : (ctx.enclosing.bind fun d => d.outputs[i]?) = some p := by
      rw [hS.outputs] at hp
      cases hen : ctx.enclosing with
      | none => rw [hen] at hp; simp at hp
      | some d => rw [hen] at hp; simpa using hp
    simp only [hout] at hkept ⊢
    obtain ⟨he', hfeeds⟩ := he.convertTo hh hcv
    obtain ⟨a', ha', hcv'⟩ := hfeeds.converts
    have hne' : (e.convertTo p.type).types ≠ [] := by
      intro hnil
      rw [hnil] at ha'
      cases ha'
    exact ⟨_, .single (.assign he' hne' hkept (.output hz hp ha' hcv')), ha.tracks, hk', hassigned _⟩

/-- The components of a constant give one well-typed assignment for each target, by induction on the
targets. Each is a float, and the scope behind one is the scope before the next. -/
theorem assignComponents_typed {type : SocketType} {v : Constant} {span : Span} {index : Nat}
    {targets : List Target} {ss : List TypedStmt} (hS : InSetting ctx S) (ht : Tracks s.scope Γ)
    (hk : Knows S s.functions) (hn : ∀ t ∈ targets, t.Spelled S.spelled)
    (h : assignComponents ctx type v span index targets s = .ok ss s') :
    ∃ Γ', Checked S Γ s ss Γ' s' := by
  induction targets generalizing Γ s index ss with
  | nil =>
    obtain ⟨rfl, rfl⟩ := pure_ok.1 h
    exact ⟨Γ, .nil, ht, hk, fun _ hi => .inl hi⟩
  | cons target targets ih =>
    simp only [assignComponents, bind_ok, require_ok, pure_ok] at h
    obtain ⟨x, _, ⟨-, rfl⟩, t, s₁, hta, _, s₂, hc, more, s₃, hmore, rfl, rfl⟩ := h
    have he : ExprTyped S Γ (.ofConstant x span) Γ := .ofConstant _ _
    have hp : (Binding.ofTyping (TypedExpr.ofConstant x span).typing).varType.Proper := he.proper
    obtain ⟨Γ₁, ha⟩ := assignTarget_typed hS ht (hn _ (.head _)) rfl hp hta
    obtain ⟨rfl, hkept⟩ := checkConstant_ok hc
    rw [← hS.tree] at hkept
    have hfirst : Checked S Γ s [.assign [t] (.ofConstant x span)] Γ₁ s₂ := by
      refine ⟨.single (.assign he (List.cons_ne_nil _ _) hkept ha.typed), ha.tracks, ?_, ?_⟩
      · rw [ha.state]; exact hk
      · intro i hi
        rcases ha.assigned i hi with hi | rfl
        · exact .inl hi
        · exact .inr ⟨_, .head _, .head _⟩
    obtain ⟨Γ', hrest⟩ := ih hfirst.tracks hfirst.knows (fun t ht => hn t (.tail _ ht)) hmore
    exact ⟨Γ', hfirst.append hrest⟩

/-- Targets are bound to parts in order, each well typed for its part, by induction on the targets.
Nothing but the scope and the assigned outputs of the checker changes. -/
theorem assignParts_typed {targets : List Target} {types : List SocketType}
    {bound : List TypedTarget} (hS : InSetting ctx S) (ht : Tracks s.scope Γ)
    (hn : ∀ t ∈ targets, t.Spelled S.spelled) (hl : targets.length ≤ types.length)
    (h : assignParts ctx targets types s = .ok bound s') :
    ∃ Γ', TargetsTyped S Γ bound types Γ' ∧ Tracks s'.scope Γ' ∧
      s' = { s with scope := s'.scope, assigned := s'.assigned } ∧
      bound.length = targets.length ∧ ∀ i ∈ s'.assigned, i ∈ s.assigned ∨ .output i ∈ bound := by
  induction targets generalizing Γ s types bound with
  | nil =>
    obtain ⟨rfl, rfl⟩ := pure_ok.1 h
    exact ⟨Γ, .nil, ht, rfl, rfl, fun _ hi => .inl hi⟩
  | cons target targets ih =>
    cases types with
    | nil => cases hl
    | cons type types =>
      simp only [assignParts, bind_ok, pure_ok] at h
      obtain ⟨t, s₁, hta, more, s₂, hmore, rfl, rfl⟩ := h
      have hp : (Binding.value type).varType.Proper := VarType.proper_value type
      obtain ⟨Γ₁, ha⟩ := assignTarget_typed hS ht (hn _ (.head _)) rfl hp hta
      obtain ⟨Γ', hts, ht', hs, hlen, hassigned⟩ :=
        ih ha.tracks (fun t ht => hn t (.tail _ ht)) (Nat.le_of_succ_le_succ hl) hmore
      refine ⟨Γ', .cons ha.typed hts, ht', ?_, by simp [hlen], fun i hi => ?_⟩
      · rw [hs, ha.state]
      · rcases hassigned i hi with hi | hi
        · rcases ha.assigned i hi with hi | rfl
          · exact .inl hi
          · exact .inr (.head _)
        · exact .inr (.tail _ hi)

/-- The parts of a value that can be unpacked are the outputs of a bundle or the components of a
vector of the tree. -/
theorem partTypes?_some {tree : TreeKind} {e : TypedExpr} {type : SocketType}
    {parts : List SocketType} (he : e.types.head? = some type)
    (h : partTypes? tree e type = some parts) : Unpacks tree e parts := by
  unfold partTypes? at h
  cases hs : e.shape with
  | bundle =>
    rw [hs] at h
    cases h
    exact .bundle hs
  | single =>
    rw [hs] at h
    obtain ⟨split, hsplit, rfl⟩ := Option.map_eq_some_iff.1 h
    exact .single hs he hsplit

/-- An assignment to several targets is well typed: one statement for each component of a constant,
and otherwise one statement that unpacks the value. -/
theorem assignMany_typed {targets : List Target} {e : TypedExpr} {type : SocketType} {Γ₁ : TypeEnv}
    {ss : List TypedStmt} (hS : InSetting ctx S) (he : ExprTyped S Γ e Γ₁)
    (hh : e.types.head? = some type) (ht : Tracks s.scope Γ₁) (hk : Knows S s.functions)
    (hn : ∀ t ∈ targets, t.Spelled S.spelled) (hl : targets.length ≠ 1)
    (h : assignMany ctx targets e type s = .ok ss s') : ∃ Γ', Checked S Γ s ss Γ' s' := by
  simp only [assignMany, bind_ok, require_ok, guard_ok] at h
  obtain ⟨parts, _, ⟨hparts, rfl⟩, hlen, h⟩ := h
  cases hv : e.constant? with
  | some v =>
    simp only [hv] at h
    cases he.env_eq_of_constant? hv
    exact assignComponents_typed hS ht hk hn h
  | none =>
    simp only [hv, bind_ok, pure_ok] at h
    obtain ⟨bound, s₁, hb, rfl, rfl⟩ := h
    obtain ⟨Γ', hts, ht', hs, hlen', hassigned⟩ :=
      assignParts_typed hS ht hn (Nat.le_of_not_lt hlen) hb
    have hne : e.types ≠ [] := by
      intro hnil
      rw [hnil] at hh
      cases hh
    have hunpacks : Unpacks S.tree e parts := by
      rw [hS.tree]
      exact partTypes?_some hh hparts
    refine ⟨Γ', .single (.unpack he hne hv (by omega) hunpacks hts), ht', ?_, fun i hi => ?_⟩
    · rw [hs]; exact hk
    · rcases hassigned i hi with hi | hi
      · exact .inl hi
      · exact .inr ⟨_, .head _, hi⟩

/-- An assignment that is checked is well typed. `assign` has asked for the type of the value, so the
value has one. -/
theorem assign_typed {targets : List Target} {e : Expr} {ss : List TypedStmt}
    (hS : InSetting ctx S) (ht : Tracks s.scope Γ) (hk : Knows S s.functions)
    (hn : (∀ t ∈ targets, t.Spelled S.spelled) ∧ e.Spelled S.spelled)
    (h : assign ctx targets e s = .ok ss s') : ∃ Γ', Checked S Γ s ss Γ' s' := by
  simp only [assign, bind_ok, valueType_ok] at h
  obtain ⟨value, s₁, hvalue, type, _, ⟨hh, rfl⟩, h⟩ := h
  obtain ⟨Γ₁, he, ht₁, hs₁⟩ := expr_typed hS e hn.2 ht hk hvalue
  have hk₁ : Knows S s₁.functions := by rw [hs₁]; exact hk
  have hback : ∀ {Γ'}, Checked S Γ s₁ ss Γ' s' → Checked S Γ s ss Γ' s' := fun hc =>
    { hc with assigned := by rw [hs₁] at hc; exact hc.assigned }
  split at h
  next target =>
    have hne : value.types ≠ [] := by
      intro hnil
      rw [hnil] at hh
      cases hh
    obtain ⟨Γ', hc⟩ := assignOne_typed hS he hne ht₁ hk₁ (hn.1 _ (.head _)) h
    exact ⟨Γ', hback hc⟩
  next hne =>
    have hl : targets.length ≠ 1 := by
      intro hl
      obtain ⟨t, rfl⟩ := List.length_eq_one_iff.1 hl
      exact hne t rfl
    obtain ⟨Γ', hc⟩ := assignMany_typed hS he hh ht₁ hk₁ hn.1 hl h
    exact ⟨Γ', hback hc⟩

/-! ### Look-ups of assignments

An assignment looks up the first type of what is assigned and the parameter of an output by its index.
Both are there: `assign` has asked for the type of the value before, and the index of an output comes from
the outputs of the enclosing definition. -/

/-- A step that fails does so with another problem than `p`. -/
def Avoids {α : Type} (p : Problem) (x : Check α) : Prop :=
  ∀ s e s', x s = .error e s' → e.problem ≠ p

namespace Avoids

variable {α β : Type} {p problem : Problem} {span : Span}

theorem pure (a : α) : Avoids p (pure a : Check α) := fun _ _ _ h => by cases h

theorem modify (f : Checker → Checker) : Avoids p (modify f : Check PUnit) := fun _ _ _ h => by cases h

/-- A step that fails with some problem avoids every other one. -/
theorem fail (h : problem ≠ p) : Avoids p (fail problem span : Check α) := fun _ _ _ hrun => by
  cases hrun
  exact h

theorem require {o : Option α} (h : o = none → problem ≠ p) : Avoids p (require o problem span) := by
  cases o with
  | none => exact fail (h rfl)
  | some a => exact pure a

/-- Two steps in a row avoid what both avoid, as the one that fails is one of them. -/
theorem bind {x : Check α} {f : α → Check β} (hx : Avoids p x) (hf : ∀ a, Avoids p (f a)) :
    Avoids p (x >>= f) := by
  intro s e s' h
  change EStateM.bind x f s = _ at h
  unfold EStateM.bind at h
  cases hxs : x s with
  | ok a s₁ =>
    rw [hxs] at h
    exact hf a s₁ e s' h
  | error e' s₁ =>
    rw [hxs] at h
    cases h
    exact hx s e s' hxs

theorem guarded {c : Prop} [Decidable c] {x : Check α} (h : problem ≠ p) (hx : Avoids p x) :
    Avoids p (if c then (Check.fail problem span : Check PUnit) >>= fun _ => x else x) := by
  split
  · exact bind (fail h) fun _ => hx
  · exact hx

end Avoids

/-- What keeps a zone from rebinding a variable is never that a call has no outputs. -/
theorem zoneProblem?_ne_noOutputs {n : String} {b : Binding} {problem : Problem}
    (h : zoneProblem? ctx n b = some problem) : problem ≠ .noOutputs := by
  obtain ⟨outer, -, h⟩ := List.exists_of_findSome?_eq_some h
  obtain ⟨o, -, h⟩ := Option.bind_eq_some_iff.1 h
  rintro rfl
  unfold carryProblem? at h
  repeat' split at h
  all_goals cases h

/-- What has a type can be assigned to an output without failing for want of one. -/
theorem assignTarget_avoids (target : Target) {b : Binding} (hb : b.types ≠ []) :
    Avoids .noOutputs (assignTarget ctx target b) := by
  cases target with
  | ignore => exact .pure _
  | name n span =>
    unfold assignTarget
    simp only
    cases ctx.output? n with
    | some o =>
      have hhead : b.types.head? = none → Problem.noOutputs ≠ .noOutputs :=
        fun h => absurd (List.head?_eq_none_iff.1 h) hb
      exact .guarded (by rintro ⟨⟩) <| .bind (.require hhead) fun _ => .guarded (by rintro ⟨⟩) <|
        .bind (.modify _) fun _ => .pure _
    | none =>
      cases hz : zoneProblem? ctx n b with
      | some problem => exact .fail (zoneProblem?_ne_noOutputs hz)
      | none => exact .bind (.modify _) fun _ => .pure _

/-- That a node cannot hold a constant is another problem than the want of a type. -/
theorem checkConstant_avoids (t : TypedTarget) (e : TypedExpr) :
    Avoids .noOutputs (checkConstant ctx t e) := by
  unfold checkConstant
  split
  · exact .pure _
  · exact .pure _
  · split
    · exact .pure _
    · exact .fail (by rintro ⟨⟩)

/-- The components of a constant have a type each, so no target fails for want of one. -/
theorem assignComponents_avoids (type : SocketType) (v : Constant) (span : Span) (index : Nat)
    (targets : List Target) : Avoids .noOutputs (assignComponents ctx type v span index targets) := by
  induction targets generalizing index with
  | nil => exact .pure _
  | cons target targets ih =>
    exact .bind (.require fun _ => by rintro ⟨⟩) fun _ =>
      .bind (assignTarget_avoids target (List.cons_ne_nil _ _)) fun t =>
        .bind (checkConstant_avoids t _) fun _ => .bind (ih _) fun _ => .pure _

/-- The parts of a value have a type each, so no target fails for want of one. -/
theorem assignParts_avoids (targets : List Target) (types : List SocketType) :
    Avoids .noOutputs (assignParts ctx targets types) := by
  induction targets generalizing types with
  | nil => exact .pure _
  | cons target targets ih =>
    cases types with
    | nil => exact .pure _
    | cons type types =>
      exact .bind (assignTarget_avoids target (List.cons_ne_nil _ _)) fun _ =>
        .bind (ih types) fun _ => .pure _

/-- Once `valueType` has found the type of a value, assigning the value, whole or in parts, never fails
for want of a type: the look-up of the first type in `assignTarget` succeeds. -/
theorem assign_avoids_of_valueType {e : TypedExpr} {type : SocketType}
    (h : valueType e s = .ok type s') (target : Target) (targets : List Target) :
    Avoids .noOutputs (assignOne ctx target e) ∧
      Avoids .noOutputs (assignMany ctx targets e type) := by
  have hne : e.types ≠ [] := by
    intro hnil
    have hhead := (valueType_ok.1 h).1
    rw [hnil] at hhead
    cases hhead
  constructor
  · exact .bind (assignTarget_avoids target hne) fun t => .bind (checkConstant_avoids t _) fun _ =>
      .pure _
  · refine .bind (.require fun _ => by rintro ⟨⟩) fun parts => .guarded (by rintro ⟨⟩) ?_
    cases e.constant? with
    | some v => exact assignComponents_avoids type v e.span 0 targets
    | none => exact .bind (assignParts_avoids targets parts) fun _ => .pure _

/-- An output that was assigned is one of the enclosing definition, since its number was found by
looking for its name among the outputs. So the look-up of its type that comes next does not fail. -/
theorem output_of_assignTarget {target : Target} {b : Binding} {i : Nat}
    (h : assignTarget ctx target b s = .ok (.output i) s') :
    ∃ p, (ctx.enclosing.bind fun d => d.outputs[i]?) = some p := by
  cases target with
  | ignore => cases (pure_ok.1 h).1
  | name n span =>
    unfold assignTarget at h
    simp only at h
    cases ho : ctx.output? n with
    | some out =>
      obtain ⟨d, j, expected⟩ := out
      simp only [ho, guard_ok, bind_ok, modify_ok, pure_ok] at h
      obtain ⟨-, _, _, -, -, _, _, -, hij, -⟩ := h
      cases hij
      obtain ⟨hd, p, hp, -⟩ := output?_some ho
      exact ⟨p, by rw [hd]; exact hp⟩
    | none =>
      cases hz : zoneProblem? ctx n b with
      | some problem =>
        simp only [ho, hz] at h
        exact (fail_ok.1 h).elim
      | none =>
        simp only [ho, hz, Check.bind, bind_ok, pure_ok] at h
        obtain ⟨_, _, -, hvar, -⟩ := h
        cases hvar

/-- What `assignOne` gives: a value is assigned as it is, or to an output of the enclosing definition and
then always converted to that output's type. The look-up of the output succeeds. -/
theorem assignOne_ok {target : Target} {e : TypedExpr} {ss : List TypedStmt}
    (h : assignOne ctx target e s = .ok ss s') :
    (∃ t, (∀ i, t ≠ .output i) ∧ ss = [.assign [t] e]) ∨
      ∃ i p, (ctx.enclosing.bind fun d => d.outputs[i]?) = some p ∧
        ss = [.assign [.output i] (e.convertTo p.type)] := by
  simp only [assignOne, bind_ok, pure_ok] at h
  obtain ⟨t, s₂, ht, _, s₃, -, rfl, -⟩ := h
  cases t with
  | ignore => exact .inl ⟨_, by rintro i ⟨⟩, rfl⟩
  | var n => exact .inl ⟨_, by rintro i ⟨⟩, rfl⟩
  | output i =>
    obtain ⟨p, hp⟩ := output_of_assignTarget ht
    refine .inr ⟨i, p, hp, ?_⟩
    simp only [hp]

/-! ### Components -/

/-- An assignment to a component is well typed: the variable is a single value with that component,
and the new value converts to a number. -/
theorem setField_typed {target field : String} {e : Expr} {span : Span} {ss : List TypedStmt}
    (hS : InSetting ctx S) (ht : Tracks s.scope Γ) (hk : Knows S s.functions)
    (hn : S.spelled target ∧ e.Spelled S.spelled)
    (h : setField ctx target field e span s = .ok ss s') : ∃ Γ', Checked S Γ s ss Γ' s' := by
  simp only [setField, bind_ok, get_ok, guard_ok, valueType_ok, require_ok, pure_ok] at h
  obtain ⟨_, _, ⟨rfl, rfl⟩, hscope, object, s₁, hobject, type, _, ⟨hh, rfl⟩, part, _, ⟨hpart, rfl⟩,
    value, s₂, hvalue, found, _, ⟨hf, rfl⟩, hc, rfl, rfl⟩ := h
  obtain ⟨b, hb⟩ : ∃ b, s.scope.get? target = some b := by
    simpa [Table.contains, ← Option.ne_none_iff_exists'] using hscope
  simp only [name, bind_ok, get_ok] at hobject
  obtain ⟨_, _, ⟨rfl, rfl⟩, hobject⟩ := hobject
  cases hv : b.constant with
  | some v =>
    simp only [hb, hv] at hobject
    obtain ⟨rfl, rfl⟩ := pure_ok.1 hobject
    -- An int has no components.
    have hint : type = .int := by
      cases hh
      exact ht.counters target b v hb hv
    subst hint
    have hof := Component.of_lookup? (n := field) hpart
    obtain ⟨-, _, h, -⟩ := hof
    cases h
  | none =>
    simp only [hb, hv] at hobject
    obtain ⟨rfl, rfl⟩ := pure_ok.1 hobject
    obtain ⟨hΓ, hp⟩ := ht.bound target b hb hv
    obtain ⟨Γ', he, ht', hs₂⟩ := expr_typed hS e hn.2 ht hk hvalue
    obtain ⟨he', hfeeds⟩ := he.convertTo hf (by simpa using hc)
    cases hshape : b.shape with
    | bundle => simp [TypedExpr.shape, TypedExpr.typing, Binding.typing, hshape] at hpart
    | single =>
      have hof : part.Of S.tree type := by
        rw [hS.tree]
        refine Component.of_lookup? (n := field) ?_
        simpa [TypedExpr.shape, TypedExpr.typing, Binding.typing, hshape] using hpart
      refine ⟨Γ', .single (.setField (.var hΓ hp) hn.1 hshape hh hof he' hfeeds), ht', ?_, fun i hi => ?_⟩
      · rw [hs₂]; exact hk
      · rw [hs₂] at hi; exact .inl hi

/-! ### Blocks in loops, zones and definitions -/

/-- No error is noted, and the definitions are known if they have their names. -/
structure Clean (S : Setting) (s : Checker) : Prop where
  errors : s.errors = []
  known : ∀ n f, s.functions.get? n = some f → f.name = n → S.known f

theorem Clean.of_grows {top : Bool} (hc : Clean S s') (hg : Checker.Grows top s s') : Clean S s :=
  ⟨hg.errors_eq_nil hc.errors, fun n f hf => hc.known n f (hg.functions n f hf)⟩

/-- A step that checks statements gives well-typed ones if its end is clean. -/
structure ChecksStmts (S : Setting) (top : Bool) (x : Check (List TypedStmt)) : Prop where
  monotone : Monotone top x
  checked : ∀ {Γ : TypeEnv} {s s' : Checker} {ss : List TypedStmt}, x s = .ok ss s' →
    Tracks s.scope Γ → Knows S s.functions → Clean S s' → ∃ Γ', Checked S Γ s ss Γ' s'

/-- Unrolling gives the well-typed statements of all rounds, by induction on the values of the
counter. A clean run has no round that stops the loop. -/
theorem unroll_checks {top : Bool} (counter : Option String) {body : Check (List TypedStmt)}
    (hb : ChecksStmts S top body) (values : List Int64) :
    ChecksStmts S top (unroll counter body values) := by
  refine ⟨unroll_monotone counter hb.monotone values, ?_⟩
  induction values with
  | nil =>
    intro Γ s s' ss h ht hk _
    obtain ⟨rfl, rfl⟩ := pure_ok.1 h
    exact ⟨Γ, .nil, ht, hk, fun _ hi => .inl hi⟩
  | cons i values ih =>
    intro Γ s s' ss h ht hk hc
    -- The counter is in scope but not in the environment, since its reads become constants.
    obtain ⟨s₀, ht₀, hs₀, h⟩ : ∃ s₀, Tracks s₀.scope Γ ∧ s₀ = { s with scope := s₀.scope } ∧
        (do
          let before := (← get).errors.length
          let stmts ← body
          if before < (← get).errors.length then return stmts
          else
            let more ← unroll counter body values
            return stmts ++ more : Check _) s₀ = .ok ss s' := by
      cases counter with
      | none => exact ⟨s, ht, rfl, h⟩
      | some n => exact ⟨{ s with scope := s.scope.insert n (.counter i) }, ht.counter n i, rfl, h⟩
    have hk₀ : Knows S s₀.functions := by rw [hs₀]; exact hk
    simp only [bind_ok, get_ok] at h
    obtain ⟨_, _, ⟨rfl, rfl⟩, stmts, s₁, hbody, _, _, ⟨rfl, rfl⟩, h⟩ := h
    have hback : ∀ {ss Γ' s'}, Checked S Γ s₀ ss Γ' s' → Checked S Γ s ss Γ' s' := fun hc =>
      { hc with assigned := by rw [hs₀] at hc; exact hc.assigned }
    split at h
    · obtain ⟨rfl, rfl⟩ := pure_ok.1 h
      obtain ⟨Γ₁, hfirst⟩ := hb.checked hbody ht₀ hk₀ hc
      exact ⟨Γ₁, hback hfirst⟩
    · simp only [bind_ok, pure_ok] at h
      obtain ⟨more, _, hmore, rfl, rfl⟩ := h
      have hgrows := (unroll_monotone counter hb.monotone values).grows hmore
      obtain ⟨Γ₁, hfirst⟩ := hb.checked hbody ht₀ hk₀ (hc.of_grows hgrows)
      obtain ⟨Γ', hrest⟩ := ih hmore hfirst.tracks hfirst.knows hc
      exact ⟨Γ', hback (hfirst.append hrest)⟩

/-- The body of a zone is well typed in the setting with one zone more, the scope behind the zone is
the one before it, and no output is assigned in it. -/
theorem inZone_typed {body : Context → Check (List TypedStmt)} {ss : List TypedStmt}
    (hS : InSetting ctx S) (ht : Tracks s.scope Γ) (hk : Knows S s.functions)
    (hb : ∀ inner S', InSetting inner S' → S.Alike S' → ChecksStmts S' inner.topLevel (body inner))
    (h : inZone ctx body s = .ok ss s') (hc : Clean S s') :
    ∃ Γ', BlockTyped (S.inZone Γ) Γ ss Γ' ∧ s'.scope = s.scope ∧ Knows S s'.functions ∧
      ∀ i ∈ s'.assigned, i ∈ s.assigned := by
  simp only [inZone, bind_ok, get_ok, modify_ok, pure_ok] at h
  obtain ⟨_, _, ⟨rfl, rfl⟩, stmts, s₁, hbody, _, _, rfl, rfl, rfl⟩ := h
  have halike : S.Alike (S.inZone Γ) := ⟨rfl, rfl, rfl⟩
  have hbody' := hb _ _ (hS.inZone ht) halike
  obtain ⟨Γ', hchecked⟩ := hbody'.checked hbody ht (hk.alike halike) ⟨hc.errors, hc.known⟩
  refine ⟨Γ', hchecked.typed, rfl, hchecked.knows.alike halike.symm, fun i hi => ?_⟩
  rcases hchecked.assigned i hi with hi | ⟨st, hm, hst⟩
  · exact hi
  · exact absurd hst (hchecked.typed.not_assigns (by simp [Setting.inZone]) i st hm)

/-- The default of a parameter is a constant of the type of the parameter. Checking it binds no
variable that the types of the formula would notice. -/
theorem defaultValue_typed {p : Param} {q : TypedParam} (hS : InSetting ctx S)
    (ht : Tracks s.scope Γ) (hk : Knows S s.functions) (hn : p.Spelled S.spelled)
    (h : defaultValue ctx p s = .ok q s') :
    Tracks s'.scope Γ ∧ s' = { s with scope := s'.scope } ∧ S.spelled q.name ∧
      ∀ v, q.default = some v → v.type = q.type := by
  unfold defaultValue at h
  cases hd : p.default with
  | none =>
    rw [hd] at h
    obtain ⟨rfl, rfl⟩ := pure_ok.1 h
    exact ⟨ht, rfl, hn.1, nofun⟩
  | some e =>
    simp only [hd, bind_ok, require_ok, pure_ok] at h
    obtain ⟨value, s₁, he, v, _, ⟨hv, rfl⟩, w, _, ⟨hw, rfl⟩, rfl, rfl⟩ := h
    obtain ⟨Γ', hvalue, ht', hs⟩ := expr_typed hS e (hn.2 e hd) ht hk he
    cases hvalue.env_eq_of_constant? hv
    refine ⟨ht', hs, hn.1, fun u hu => ?_⟩
    cases hu
    exact Constant.type_of_convert? hw

/-- The defaults of parameters are constants of their types, one parameter after the other. -/
theorem parameters_typed {ps : List Param} {qs : List TypedParam} (hS : InSetting ctx S)
    (ht : Tracks s.scope Γ) (hk : Knows S s.functions) (hn : ∀ p ∈ ps, p.Spelled S.spelled)
    (h : parameters ctx ps s = .ok qs s') :
    Tracks s'.scope Γ ∧ s' = { s with scope := s'.scope } ∧ (∀ q ∈ qs, S.spelled q.name) ∧
      ∀ q ∈ qs, ∀ v, q.default = some v → v.type = q.type := by
  induction ps generalizing s qs with
  | nil =>
    obtain ⟨rfl, rfl⟩ := pure_ok.1 h
    exact ⟨ht, rfl, fun _ h => (nomatch h), fun _ h => nomatch h⟩
  | cons p ps ih =>
    simp only [parameters, bind_ok, pure_ok] at h
    obtain ⟨q, s₁, hq, rest, s₂, hrest, rfl, rfl⟩ := h
    obtain ⟨ht₁, hs₁, hname, hdefault⟩ := defaultValue_typed hS ht hk (hn p (.head _)) hq
    have hk₁ : Knows S s₁.functions := by rw [hs₁]; exact hk
    obtain ⟨ht₂, hs₂, hnames, hdefaults⟩ := ih ht₁ hk₁ (fun p hp => hn p (.tail _ hp)) hrest
    exact ⟨ht₂, by rw [hs₂, hs₁], List.forall_mem_cons.2 ⟨hname, hnames⟩,
      List.forall_mem_cons.2 ⟨hdefault, hdefaults⟩⟩

/-- If no output is reported as never assigned, all of them are assigned. The index runs along with
the list of outputs. -/
theorem reportUnassigned_clean {function : String} {span : Span} {assigned : List Nat} {i : Nat}
    {ps : List TypedParam} {u : Unit} (h : reportUnassigned function span assigned i ps s = .ok u s')
    (hc : s'.errors = []) :
    (∀ j < ps.length, i + j ∈ assigned) ∧ s' = s := by
  induction ps generalizing i s with
  | nil =>
    obtain ⟨-, rfl⟩ := pure_ok.1 h
    exact ⟨fun _ hj => (nomatch hj), rfl⟩
  | cons p ps ih =>
    unfold reportUnassigned at h
    simp only at h
    split at h
    next =>
      simp only [report, bind_ok, modify_ok] at h
      obtain ⟨_, _, rfl, h⟩ := h
      have hgrows : Checker.Grows false _ _ := (reportUnassigned_monotone ..).grows h
      simpa using hgrows.errors_eq_nil hc
    next hm =>
      obtain ⟨hrest, rfl⟩ := ih h
      refine ⟨fun j hj => ?_, rfl⟩
      cases j with
      | zero => simpa using hm
      | succ j =>
        have := hrest j (Nat.lt_of_succ_lt_succ hj)
        rwa [Nat.add_right_comm, Nat.add_assoc] at this

theorem tracks_parameters (inputs : List TypedParam) :
    Tracks (Table.ofList (inputs.map fun p => (p.name, Binding.value p.type)))
      (TypeEnv.empty.bindParams inputs) := by
  have key : ∀ (scope : Scope) (Γ : TypeEnv), Tracks scope Γ →
      Tracks (scope.insertAll (inputs.map fun p => (p.name, Binding.value p.type)))
        (Γ.bindParams inputs) := by
    induction inputs with
    | nil => exact fun _ _ h => h
    | cons p ps ih => exact fun scope Γ h => ih _ _ (h.insert p.name rfl (VarType.proper_value p.type))
  exact key ∅ TypeEnv.empty .empty

/-- A definition that is checked cleanly becomes known as a well-typed function, and the scope and
the assigned outputs around it stay as they were. -/
theorem define_typed {header : Header} {span : Span} {body : Context → Check (List TypedStmt)}
    {u : Unit} (hS : InSetting ctx S) (ht : Tracks s.scope Γ) (hk : Knows S s.functions)
    (hn : ∀ p ∈ header.inputs, p.Spelled S.spelled)
    (hb : ∀ inner S', InSetting inner S' → S.Alike S' → ChecksStmts S' inner.topLevel (body inner))
    (h : define ctx header span body s = .ok u s') (hc : Clean S s') :
    Tracks s'.scope Γ ∧ Knows S s'.functions ∧ s'.assigned = s.assigned := by
  simp only [define, inDefinition, guard_ok, bind_ok, get_ok, set_ok, modify_ok, pure_ok] at h
  obtain ⟨htop, _, _, ⟨rfl, rfl⟩, hnew, inputs, s₁, hinputs, _, s₂, ⟨_, _, ⟨rfl, rfl⟩, _, _, rfl,
    stmts, s₃, hbody, _, _, ⟨rfl, rfl⟩, _, _, rfl, rfl, rfl⟩, _, s₄, hreport, rfl⟩ := h
  obtain ⟨hassigned, rfl⟩ := reportUnassigned_clean hreport hc.errors
  obtain ⟨ht₁, hs₁, hnames, hdefaults⟩ := parameters_typed hS ht hk hn hinputs
  let outputs := header.outputs.map fun p => (⟨p.name, p.type, none⟩ : TypedParam)
  let f : TypedFunction := ⟨header.name, header.kind, inputs, outputs, stmts⟩
  have halike : S.Alike (S.body f) := ⟨rfl, rfl, rfl⟩
  have hinner : InSetting (ctx.inDefinition ⟨header.name, outputs⟩) (S.body f) :=
    hS.inDefinition (by simpa using htop) header.name f
  have hchecks := hb _ _ hinner halike
  -- The body adds no definition, so the table at the end is the one before with this definition.
  have hfixed : s₃.functions = s.functions := by
    have := (hchecks.monotone.grows hbody).fixed (topLevel_inDefinition _ _)
    rw [this, hs₁]
  have hknown : ∀ n g, s₃.functions.get? n = some g → g.name = n → S.known g := by
    intro n g hg
    refine hc.known n g ?_
    rw [Table.get?_insert, if_neg]
    · exact hg
    · rintro rfl
      rw [hfixed] at hg
      simp [Table.contains, hg] at hnew
  have hk₁ : Knows (S.body f) s₁.functions := by
    rw [hs₁]
    exact hk.alike halike
  obtain ⟨Γ', hchecked⟩ :=
    hchecks.checked hbody (tracks_parameters inputs) hk₁ ⟨hc.errors, hknown⟩
  have hf : FunctionTyped S f := by
    refine .mk hnames hdefaults hchecked.typed fun i hi => ?_
    have hi' : i ∈ s₃.assigned := by simpa using hassigned i hi
    rcases hchecked.assigned i hi' with h | h
    · cases h
    · exact h
  refine ⟨ht₁, fun n g hg => ?_, by rw [hs₁]⟩
  rw [Table.get?_insert] at hg
  split at hg
  next heq =>
    cases hg
    exact ⟨heq.symm, hc.known n f (by rw [Table.get?_insert, if_pos heq]) heq.symm, hf⟩
  next => exact hk n g (hfixed ▸ hg)

/-! ### All statements -/

/-- In a clean run no statement has failed, so noting failures changes nothing. -/
theorem recover_ok {x : Check (List TypedStmt)} {ss : List TypedStmt} (hc : s'.errors = [])
    (h : recover x s = .ok ss s') : x s = .ok ss s' := by
  unfold recover at h
  cases hx : x s with
  | ok _ _ =>
    rw [hx] at h
    exact h
  | error e s₁ =>
    rw [hx] at h
    cases h
    simp at hc

mutual

/-- A statement that is checked without errors gives well-typed statements, and the scope and the
definitions behind it are tracked. The induction is on the statement, with a case for each kind. -/
theorem stmt_checks : (st : Stmt) → ∀ {ctx : Context} {S : Setting}, InSetting ctx S →
    st.Within S.toDialect → ChecksStmts S ctx.topLevel (stmt ctx st)
  | .expr e sp, ctx, S, hS, hn => by
    refine ⟨stmt_monotone _ ctx, fun {Γ s s' ss} h ht hk hc => ?_⟩
    simp only [stmt, bind_ok, pure_ok] at h
    obtain ⟨value, s₁, he, rfl, rfl⟩ := h
    obtain ⟨Γ', hvalue, ht', hs⟩ := expr_typed hS e hn ht hk he
    refine ⟨Γ', .single (.expr hvalue), ht', ?_, fun i hi => .inl ?_⟩
    · rw [hs]; exact hk
    · rw [hs] at hi; exact hi
  | .assign targets e _, ctx, S, hS, hn =>
    ⟨stmt_monotone _ ctx, fun h ht hk _ => assign_typed hS ht hk hn h⟩
  | .setField target field e _, ctx, S, hS, hn =>
    ⟨stmt_monotone _ ctx, fun h ht hk _ => setField_typed hS ht hk hn h⟩
  | .loop counter first last body _, ctx, S, hS, hn => by
    refine ⟨stmt_monotone _ ctx, fun {Γ s s' ss} h ht hk hc => ?_⟩
    simp only [stmt, guard_ok] at h
    have hbody := block_checks body hS.inLoop hn
    exact (unroll_checks counter hbody _).checked h.2 ht hk hc
  | .zone count body _, ctx, S, hS, hn => by
    refine ⟨stmt_monotone _ ctx, fun {Γ s s' ss} h ht hk hc => ?_⟩
    simp only [stmt, guard_ok, bind_ok, valueType_ok, pure_ok] at h
    obtain ⟨hrep, value, s₁, hcount, type, _, ⟨hh, rfl⟩, hconv, stmts, s₂, hzone, rfl, rfl⟩ := h
    obtain ⟨Γ₁, he, ht₁, hs₁⟩ := expr_typed hS count hn.2.1 ht hk hcount
    obtain ⟨he', hfeeds⟩ := he.convertTo hh (by simpa using hconv)
    have hk₁ : Knows S s₁.functions := by rw [hs₁]; exact hk
    have hbody : ∀ inner S', InSetting inner S' → S.Alike S' →
        ChecksStmts S' inner.topLevel (block inner body) := fun inner S' hS' halike =>
      block_checks body hS' (by rw [halike.dialect]; exact hn.2.2)
    obtain ⟨Γ', hb, hscope, hk₂, hassigned⟩ := inZone_typed hS ht₁ hk₁ hbody hzone hc
    refine ⟨Γ₁, .single (.zone hn.1 ?_ he' hfeeds hb), by rw [hscope]; exact ht₁, hk₂,
      fun i hi => .inl ?_⟩
    · rw [hS.tree]; simpa using hrep
    · have := hassigned i hi
      rw [hs₁] at this
      exact this
  | .define header body sp, ctx, S, hS, hn => by
    refine ⟨stmt_monotone _ ctx, fun {Γ s s' ss} h ht hk hc => ?_⟩
    simp only [stmt, bind_ok, pure_ok] at h
    obtain ⟨_, s₁, hdefine, rfl, rfl⟩ := h
    have hbody : ∀ inner S', InSetting inner S' → S.Alike S' →
        ChecksStmts S' inner.topLevel (block inner body) := fun inner S' hS' halike =>
      block_checks body hS' (by rw [halike.dialect]; exact hn.2)
    obtain ⟨ht₁, hk₁, hassigned⟩ := define_typed hS ht hk hn.1 hbody hdefine hc
    exact ⟨Γ, .nil, ht₁, hk₁, fun i hi => .inl (hassigned ▸ hi)⟩

/-- Statements that are checked without errors give well-typed statements. -/
theorem block_checks : (ss : List Stmt) → ∀ {ctx : Context} {S : Setting}, InSetting ctx S →
    Stmt.AllWithin S.toDialect ss → ChecksStmts S ctx.topLevel (block ctx ss)
  | [], ctx, S, hS, _ => by
    refine ⟨block_monotone _ ctx, fun {Γ s s' ss} h ht hk _ => ?_⟩
    obtain ⟨rfl, rfl⟩ := pure_ok.1 h
    exact ⟨Γ, .nil, ht, hk, fun _ hi => .inl hi⟩
  | st :: rest, ctx, S, hS, hn => by
    refine ⟨block_monotone _ ctx, fun {Γ s s' ss} h ht hk hc => ?_⟩
    simp only [block, bind_ok, pure_ok] at h
    obtain ⟨first, s₁, hfirst, others, s₂, hrest, rfl, rfl⟩ := h
    have hc₁ := hc.of_grows ((block_monotone rest ctx).grows hrest)
    obtain ⟨Γ₁, hchecked⟩ :=
      (stmt_checks st hS hn.1).checked (recover_ok hc₁.errors hfirst) ht hk hc₁
    obtain ⟨Γ', hchecked'⟩ :=
      (block_checks rest hS hn.2).checked hrest hchecked.tracks hchecked.knows hc
    exact ⟨Γ', hchecked.append hchecked'⟩

end

end Check

end NodeFormula

import NodeFormula.Proofs.Running.Statement

/-!
# Lowering and running well-typed formulas

Every well-typed expression, statement and block can be lowered, and its ops run as the widths of
variables foretell. The proof follows the recursion of lowering: each kind of expression and statement
has its case, and a call lowers the body of its definition in the setting of that body.

`BlockTyped.lower_ends` is the result for a whole formula.
-/

namespace NodeFormula

open Machine

/-- A value that may be passed on has an output. -/
theorem TypedExpr.Feeds.types_ne_nil {e : TypedExpr} {p : SocketType} (h : e.Feeds p) :
    e.types ≠ [] := by
  intro hnil
  obtain ⟨t, ht, -⟩ := h.converts
  rw [hnil] at ht
  cases ht

theorem FeedsAll.types_ne_nil {es : List TypedExpr} {ps : List SocketType} (h : FeedsAll es ps) :
    ∀ e ∈ es, e.types ≠ [] := by
  intro e he hnil
  obtain ⟨t, ht⟩ := h.exists_head? e he
  rw [hnil] at ht
  cases ht

theorem Lower.pushDefaults_ok {params : List TypedParam} {given : Nat}
    (h : given ≤ params.length) :
    Lower.pushDefaults params given =
      .ok ((params.drop given).map fun p => .pushValue p.default) := if_pos h

mutual

/-- A well-typed expression can be lowered, and its ops run as the widths foretell. The recursion is
that of lowering, which goes into the bodies of definitions that are called. -/
theorem ExprTyped.lowers : (e : TypedExpr) → ∀ {S : Setting} {Γ Γ' : TypeEnv}, S.Runnable →
    ExprTyped S Γ e Γ' → ∀ n, ∃ ops n', Lower.expr S.tree e n = .ok (ops, n') ∧
      ExprRuns S Γ e Γ' ops
  | .constant v _, _, _, _, _, h, n => by
    cases h with | constant ht => exact ⟨_, n, rfl, .constant ht⟩
  | .var x fresh _, _, _, _, _, h, n => by
    cases h with
    | var hx => exact ⟨_, n, rfl, .var hx⟩
    | free _ hx _ ht => exact ⟨_, n, rfl, .free hx ht⟩
  | .node node args t, S, _, _, hS, h, n => by
    cases h with
    | @node _ _ _ _ o _ _ _ ha hfeeds hin hout ht hn hp =>
      obtain ⟨ops, n', hops, hrun⟩ := ArgsTyped.lowers args hS ha hfeeds.types_ne_nil n
      refine ⟨_, n', Lower.bind_ok hops rfl, .node (hin ▸ hfeeds.length_le) ?_ hrun⟩
      rw [ht, ← hout]
      exact List.length_map ..
  | .call ⟨name, kind, inputs, outputs, body⟩ args _, S, _, _, hS, h, n => by
    cases h with
    | call hf hfun ha hfeeds hd ht hn hp =>
      cases hfun with
      | mk hinputs _ hbody hassigns =>
        obtain ⟨ops, n₁, hops, hrun⟩ := ArgsTyped.lowers args hS ha hfeeds.types_ne_nil n
        have hS' : (S.body ⟨name, kind, inputs, outputs, body⟩).Runnable := ⟨hS.plain, hS.unique⟩
        obtain ⟨inner, n₂, hinner, hblock⟩ := BlockTyped.lowers body hS' hbody n₁
        have hl : args.length ≤ inputs.length := by simpa using hfeeds.length_le
        refine ⟨_, n₂, Lower.bind_ok hops (Lower.bind_ok
          (Lower.lift_ok (Lower.pushDefaults_ok hl) n₁) (Lower.bind_ok hinner rfl)), ?_⟩
        exact .call hS hf hl hd ht hrun (.of_block hinputs hassigns hblock)
  | .output e i _, _, _, _, hS, h, n => by
    cases h with
    | output he hshape hi hname ht =>
      obtain ⟨ops, n', hops, hrun⟩ := ExprTyped.lowers e hS he n
      exact ⟨_, n', Lower.bind_ok hops rfl, .output he.proper hshape hi ht hrun⟩
  | .component e part _, _, _, _, hS, h, n => by
    cases h with
    | component he hshape hh hk ht =>
      obtain ⟨ops, n₁, hops, hrun⟩ := ExprTyped.lowers e hS he n
      obtain ⟨reading, hreading, hruns⟩ :=
        hrun.component hS (Lower.mem_temporary "field" n₁) he.proper hh hk ht
      refine ⟨_, n₁ + 1, Lower.bind_ok hops (Lower.bind_ok (Lower.temporary_ok "field" n₁)
        (Lower.bind_ok (Lower.lift_ok hreading _) rfl)), hruns⟩

/-- Well-typed arguments can be lowered, and their ops run as the widths foretell. -/
theorem ArgsTyped.lowers : (es : List TypedExpr) → ∀ {S : Setting} {Γ Γ' : TypeEnv}, S.Runnable →
    ArgsTyped S Γ es Γ' → (∀ e ∈ es, e.types ≠ []) → ∀ n, ∃ ops n',
      Lower.args S.tree es n = .ok (ops, n') ∧ ArgsRun S Γ es Γ' ops
  | [], _, _, _, _, h, _, n => by
    cases h
    exact ⟨[], n, rfl, .nil⟩
  | e :: es, _, _, _, hS, h, hne, n => by
    cases h with
    | cons he hes =>
      obtain ⟨ops, n₁, hops, hrun⟩ := ExprTyped.lowers e hS he n
      obtain ⟨more, n₂, hmore, hruns⟩ :=
        ArgsTyped.lowers es hS hes (fun e' he' => hne e' (.tail _ he')) n₁
      exact ⟨_, n₂, Lower.bind_ok hops (Lower.bind_ok hmore rfl),
        .cons he.proper (hne e (.head _)) hrun hruns⟩

/-- A well-typed statement can be lowered, and its ops run as the widths foretell. The recursion is
that of lowering, with a case for each kind of statement from the lemmas before. -/
theorem StmtTyped.lowers : (s : TypedStmt) → ∀ {S : Setting} {Γ Γ' : TypeEnv}, S.Runnable →
    StmtTyped S Γ s Γ' → ∀ n, ∃ ops n',
      Lower.stmt S.tree (S.outputs.map (·.name)) s n = .ok (ops, n') ∧ StmtRuns S Γ s Γ' ops
  | .expr e, _, _, _, hS, h, n => by
    cases h with
    | expr he =>
      obtain ⟨ops, n', hops, hrun⟩ := ExprTyped.lowers e hS he n
      exact ⟨_, n', Lower.bind_ok hops rfl, .expr hrun⟩
  | .assign targets e, S, _, _, hS, h, n => by
    cases h with
    | assign he hne hkept ht =>
      cases hc : e.constant? with
      | some v =>
        cases e with
        | constant u typing =>
          cases hc
          cases he with
          | constant hv =>
            obtain ⟨ops, hops, hrun⟩ := StmtRuns.assignConstant hS hv hkept ht
            exact ⟨_, n, Lower.bind_ok (Lower.lift_ok hops n) rfl, hrun⟩
        | _ => cases hc
      | none =>
        obtain ⟨ops, n', hops, hrun⟩ := ExprTyped.lowers e hS he n
        obtain ⟨storing, hstoring, hruns⟩ := StmtRuns.assign hS he.proper hne ht hrun
        refine ⟨_, n', ?_, hruns⟩
        simp only [Lower.stmt, hc]
        exact Lower.bind_ok hops (Lower.bind_ok (Lower.lift_ok hstoring _) rfl)
    | unpack he hne hc hl hu ht =>
      obtain ⟨ops, n', hops, hrun⟩ := ExprTyped.lowers e hS he n
      obtain ⟨storing, hstoring, hruns⟩ := StmtRuns.unpack hS he.proper hne hl hu ht hrun
      refine ⟨_, n', ?_, hruns⟩
      simp only [Lower.stmt, hc]
      exact Lower.bind_ok hops (Lower.bind_ok (Lower.lift_ok hstoring _) rfl)
  | .setField x object part value, S, _, _, hS, h, n => by
    cases h with
    | @setField _ _ _ _ t _ _ _ hobject hspelled hshape hh hk he hfeeds =>
      obtain ⟨ops, n₁, hops, hrun⟩ := ExprTyped.lowers value hS he n
      cases hobject with
      | var hx hp =>
        have hne : t.types ≠ [] := by
          intro hnil
          rw [hnil] at hh
          cases hh
        have htemps : s!"value#{n₁}" ≠ s!"{x}#{n₁ + 1}" :=
          Lower.temporary_ne (a := "value") (by decide) (by omega)
        obtain ⟨writing, hwriting, hruns⟩ := StmtRuns.setField hS
          (Lower.mem_temporary x (n₁ + 1)) (Lower.mem_temporary "value" n₁) htemps.symm
          (he.env_le value hx) hspelled (hp.length_eq_one hshape hne) hk he.proper
          hfeeds.types_ne_nil hrun
        refine ⟨_, n₁ + 2, Lower.bind_ok hops (Lower.bind_ok (Lower.temporary_ok "value" n₁)
          (Lower.bind_ok rfl (Lower.bind_ok (Lower.temporary_ok x (n₁ + 1))
            (Lower.bind_ok (Lower.lift_ok hwriting _) rfl)))), hruns⟩
  | .zone count body, S, _, Γ₁, hS, h, n => by
    cases h with
    | zone _ _ hcount hfeeds hb =>
      have hS' : (S.inZone Γ₁).Runnable := ⟨hS.plain, hS.unique⟩
      obtain ⟨inner, n₁, hinner, hblock⟩ := BlockTyped.lowers body hS' hb n
      obtain ⟨ops, n₂, hops, hrun⟩ := ExprTyped.lowers count hS hcount n₁
      exact ⟨_, n₂, Lower.bind_ok hinner (Lower.bind_ok hops rfl),
        .zone hcount.proper hfeeds.types_ne_nil hb hrun hblock⟩

/-- A well-typed block can be lowered, and its ops run as the widths foretell. -/
theorem BlockTyped.lowers : (ss : List TypedStmt) → ∀ {S : Setting} {Γ Γ' : TypeEnv}, S.Runnable →
    BlockTyped S Γ ss Γ' → ∀ n, ∃ ops n',
      Lower.stmts S.tree (S.outputs.map (·.name)) ss n = .ok (ops, n') ∧ BlockRuns S Γ ss Γ' ops
  | [], _, _, _, _, h, n => by
    cases h
    exact ⟨[], n, rfl, .nil⟩
  | s :: ss, _, _, _, hS, h, n => by
    cases h with
    | cons hs hss =>
      obtain ⟨ops, n₁, hops, hrun⟩ := StmtTyped.lowers s hS hs n
      obtain ⟨more, n₂, hmore, hruns⟩ := BlockTyped.lowers ss hS hss n₁
      exact ⟨_, n₂, Lower.bind_ok hops (Lower.bind_ok hmore rfl), .cons hrun hruns⟩

end

/-! ### Whole formulas -/

variable {S : Setting} {Γ' : TypeEnv} {ss : List TypedStmt}

/-- The machine in which a formula starts. -/
theorem agrees_start (S : Setting) (name : String) :
    Agrees S TypeEnv.empty Widths.empty { tree := { name, kind := S.tree } } :=
  ⟨fun _ _ hx => (by cases hx), fun _ _ => .none, List.forall_mem_nil _⟩

/-- A well-typed formula can be lowered. Its ops build a graph if the widths of its variables have a
result, and otherwise a bundle meets a socket. -/
theorem BlockTyped.lower_ends (hS : S.Runnable) (ho : S.outputs = [])
    (h : BlockTyped S TypeEnv.empty ss Γ') (name : String) :
    ∃ ops, lower S.tree ss = .ok ops ∧
      match TypedStmt.widthsAll Widths.empty ss with
      | some _ => ∃ g, NodeGraph.ofOps S.tree name ops = .ok g ∧ ∀ t ∈ g.trees, t.LinksInRange
      | none => NodeGraph.ofOps S.tree name ops = .error .bundleToSocket := by
  obtain ⟨ops, n, hops, hrun⟩ := BlockTyped.lowers ss hS h 0
  have hlower : lower S.tree ss = .ok ops := by
    rw [ho, List.map_nil] at hops
    change (Lower.stmts S.tree [] ss 0 >>= fun p => .ok p.1) = _
    rw [hops]
    rfl
  refine ⟨ops, hlower, ?_⟩
  let m : Machine := { tree := { name, kind := S.tree } }
  have hends := hrun.runs Widths.empty m (agrees_start S name) (by rw [ho]; rfl)
  cases hw : TypedStmt.widthsAll Widths.empty ss with
  | none =>
    rw [hw] at hends
    have hfail : runOps ops m = .error .bundleToSocket := hends
    change (runOps ops m >>= _) = _
    rw [hfail]
    rfl
  | some w =>
    rw [hw] at hends
    obtain ⟨m', hm', -, -⟩ := hends
    have hend := runOps_inRange ops m m' hm' (inRange_start name S.tree)
    refine ⟨⟨m'.tree, m'.groups⟩, bind_of_ok hm' _, fun t ht => ?_⟩
    rcases List.mem_cons.1 ht with rfl | ht
    · exact hend.links
    · exact hend.groups t ht

end NodeFormula

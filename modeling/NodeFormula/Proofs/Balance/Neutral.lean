import NodeFormula.Proofs.Balance.Statements
import NodeFormula.Proofs.Pipeline

/-!
# Compiled expressions are neutral

The ops of an expression that the checker has produced leave the machine as it was, but for one item on
the stack, the free variables that the expression creates, and what is new in the graph
(`Compilation.expr_neutral`). The machine may be in any state that has no temporary variables and binds
the variables which the expression reads: what else is in scope does not matter, as an expression is well
typed already with the variables that stand in it (`ExprTyped.only`).
-/

namespace NodeFormula

open Machine

/-! ### The variables of an expression -/

/-- The variable that an expression is. -/
def TypedExpr.var? : TypedExpr → Option String
  | .var x _ _ => some x
  | _ => none

/-- The environment with some of its variables. -/
def TypeEnv.only (Γ : TypeEnv) (xs : List String) : TypeEnv := fun x => if x ∈ xs then Γ x else none

theorem TypeEnv.only_eq_some {Γ : TypeEnv} {xs : List String} {x : String} {t : VarType} :
    Γ.only xs x = some t ↔ x ∈ xs ∧ Γ x = some t := by
  unfold TypeEnv.only
  split <;> simp [*]

theorem TypeEnv.only_bind {Γ : TypeEnv} {xs : List String} {x : String} (t : VarType) (hx : x ∈ xs) :
    (Γ.bind x t).only xs = (Γ.only xs).bind x t := by
  funext y
  by_cases hy : y = x
  · simp [TypeEnv.only, TypeEnv.bind, hy, hx]
  · simp [TypeEnv.only, TypeEnv.bind, hy]

mutual

/-- An expression is well typed already with the variables that stand in it, so nothing else in scope
matters. The induction is on the expression, and a name that it creates is one of those. -/
theorem ExprTyped.only : (e : TypedExpr) → ∀ {S : Setting} {Γ Γ' : TypeEnv} {xs : List String},
    ExprTyped S Γ e Γ' → (∀ x ∈ e.parts.filterMap TypedExpr.var?, x ∈ xs) →
    ExprTyped S (Γ.only xs) e (Γ'.only xs)
  | .constant _ _, _, _, _, _, h, _ => by
    cases h with
    | constant ht => exact .constant ht
  | .var x _ _, _, _, _, _, h, hxs => by
    have hx := hxs x (.head _)
    cases h with
    | var hΓ hp => exact .var (TypeEnv.only_eq_some.2 ⟨hx, hΓ⟩) hp
    | free hfree hs hΓ ht =>
      rw [TypeEnv.only_bind _ hx]
      exact .free hfree hs (by simp [TypeEnv.only, hΓ]) ht
  | .node _ args _, _, _, _, _, h, hxs => by
    cases h with
    | node ho ha hfeeds hin hout ht hn hp =>
      exact .node ho (ArgsTyped.only args ha hxs) hfeeds hin hout ht hn hp
  | .call _ args _, _, _, _, _, h, hxs => by
    cases h with
    | call hf hfun ha hfeeds hd ht hn hp =>
      exact .call hf hfun (ArgsTyped.only args ha hxs) hfeeds hd ht hn hp
  | .output e _ _, _, _, _, _, h, hxs => by
    cases h with
    | output he hshape hi hn ht => exact .output (ExprTyped.only e he hxs) hshape hi hn ht
  | .component e _ _, _, _, _, _, h, hxs => by
    cases h with
    | component he hshape hh hk ht => exact .component (ExprTyped.only e he hxs) hshape hh hk ht

/-- Well-typed arguments are well typed already with the variables that stand in them. -/
theorem ArgsTyped.only : (es : List TypedExpr) → ∀ {S : Setting} {Γ Γ' : TypeEnv} {xs : List String},
    ArgsTyped S Γ es Γ' → (∀ x ∈ (TypedExpr.partsAll es).filterMap TypedExpr.var?, x ∈ xs) →
    ArgsTyped S (Γ.only xs) es (Γ'.only xs)
  | [], _, _, _, _, h, _ => by
    cases h
    exact .nil
  | e :: es, _, _, _, _, h, hxs => by
    rw [TypedExpr.partsAll, List.filterMap_append, List.forall_mem_append] at hxs
    cases h with
    | cons he hes => exact .cons (ExprTyped.only e he hxs.1) (ArgsTyped.only es hes hxs.2)

end

mutual

/-- A variable that is in scope where an expression with an output starts is read in it, with the type
it has there, and has an output too. -/
theorem ExprTyped.read_of_scope : (e : TypedExpr) → ∀ {S : Setting} {Γ Γ' : TypeEnv} {x : String}
    {fresh : Bool} {t : Typing} {u : VarType}, ExprTyped S Γ e Γ' → e.types ≠ [] →
    .var x fresh t ∈ e.parts → Γ x = some u →
    fresh = false ∧ t.varType = u ∧ u.Proper ∧ u.types ≠ []
  | .constant _ _, _, _, _, _, _, _, _, _, _, hmem, _ => by cases List.mem_singleton.1 hmem
  | .var _ _ _, _, _, _, _, _, _, _, h, hne, hmem, hx => by
    cases List.mem_singleton.1 hmem
    cases h with
    | var hΓ hp =>
      rw [hΓ] at hx
      cases hx
      exact ⟨rfl, rfl, hp, hne⟩
    | free _ _ hΓ =>
      rw [hΓ] at hx
      cases hx
  | .node _ args _, _, _, _, _, _, _, _, h, _, hmem, hx => by
    cases h with
    | node _ ha hfeeds =>
      rcases List.mem_cons.1 hmem with heq | hmem
      · cases heq
      · exact ArgsTyped.read_of_scope args ha hfeeds.types_ne_nil hmem hx
  | .call _ args _, _, _, _, _, _, _, _, h, _, hmem, hx => by
    cases h with
    | call _ _ ha hfeeds =>
      rcases List.mem_cons.1 hmem with heq | hmem
      · cases heq
      · exact ArgsTyped.read_of_scope args ha hfeeds.types_ne_nil hmem hx
  | .output e _ _, _, _, _, _, _, _, _, h, _, hmem, hx => by
    cases h with
    | output he _ hi =>
      rcases List.mem_cons.1 hmem with heq | hmem
      · cases heq
      · exact ExprTyped.read_of_scope e he (List.ne_nil_of_mem (List.mem_of_getElem? hi)) hmem hx
  | .component e _ _, _, _, _, _, _, _, _, h, _, hmem, hx => by
    cases h with
    | component he _ hh =>
      rcases List.mem_cons.1 hmem with heq | hmem
      · cases heq
      · exact ExprTyped.read_of_scope e he (List.ne_nil_of_mem (List.mem_of_mem_head? hh)) hmem hx

/-- A variable that is in scope where arguments start is read by them and not created, with the type
that it has there. -/
theorem ArgsTyped.read_of_scope : (es : List TypedExpr) → ∀ {S : Setting} {Γ Γ' : TypeEnv}
    {x : String} {fresh : Bool} {t : Typing} {u : VarType}, ArgsTyped S Γ es Γ' →
    (∀ e ∈ es, e.types ≠ []) → .var x fresh t ∈ TypedExpr.partsAll es → Γ x = some u →
    fresh = false ∧ t.varType = u ∧ u.Proper ∧ u.types ≠ []
  | [], _, _, _, _, _, _, _, _, _, hmem, _ => by cases hmem
  | e :: es, _, _, _, _, _, _, _, h, hne, hmem, hx => by
    cases h with
    | cons he hes =>
      rcases List.mem_append.1 hmem with hmem | hmem
      · exact ExprTyped.read_of_scope e he (hne e (.head _)) hmem hx
      · exact ArgsTyped.read_of_scope es hes (fun e' he' => hne e' (.tail _ he')) hmem
          (ExprTyped.env_le e he hx)

end

/-! ### One expression -/

/-- A state from which the ops of an expression may be run: no temporary variable is bound, and every
variable that the expression reads and does not create is bound to an item of its shape. -/
structure Machine.Ready (e : TypedExpr) (m : Machine) : Prop where
  names : ∀ x i, m.env.get? x = some i → '#' ∉ x.toList
  reads : ∀ x t, .var x false t ∈ e.parts → x ∉ e.created →
    ∃ i, m.env.get? x = some i ∧ i.Shaped t.varType

section
variable {S : Setting} {Γ Γ' : TypeEnv} {e : TypedExpr} {m m' : Machine}

/-- A state that binds the variables which an expression reads is tidy for the variables of the
expression. A variable that the expression creates is not among the types where it starts. -/
theorem Machine.Ready.tidy (hm : m.Ready e) (h : ExprTyped S Γ e Γ') (hne : e.types ≠ []) :
    m.Tidy (Γ.only (e.parts.filterMap TypedExpr.var?)) := by
  refine ⟨fun x u hx => ?_, fun x hx => ?_⟩
  · obtain ⟨hmem, hx⟩ := TypeEnv.only_eq_some.1 hx
    obtain ⟨part, hpart, hname⟩ := List.mem_filterMap.1 hmem
    cases part with
    | var y fresh t =>
      cases hname
      obtain ⟨rfl, rfl, hp, htypes⟩ := h.read_of_scope e hne hpart hx
      have hcreated : x ∉ e.created := by
        intro hcreated
        obtain ⟨part', hpart', hfresh⟩ := List.mem_filterMap.1 hcreated
        unfold TypedExpr.fresh? at hfresh
        split at hfresh
        next =>
          cases hfresh
          cases (h.read_of_scope e hne hpart' hx).1
        next => cases hfresh
      obtain ⟨i, hi, hshaped⟩ := hm.reads x t hpart hcreated
      exact ⟨i, hi, hshaped.covers hp htypes⟩
    | _ => cases hname
  · rcases hget : m.env.get? x with _ | i
    · rfl
    · exact absurd hx (hm.names x i hget)

/-- The ops of a well-typed expression push one item of its shape and keep all else, whatever is in
scope besides the variables that it reads. -/
theorem ExprTyped.neutral (hS : S.Runnable) (h : ExprTyped S Γ e Γ') (hne : e.types ≠ []) {n n' : Nat}
    {ops : List Op} (hops : Lower.expr S.tree e n = .ok (ops, n')) (hm : m.Ready e)
    (hrun : runOps ops m = .ok m') :
    (∃ i, i.Shaped e.varType ∧ m'.stack = i :: m.stack) ∧ Keeps e.created m m' := by
  have hbalanced := (h.only e fun _ hx => hx).balanced e hS hops
  obtain ⟨-, hpushed, hkeeps⟩ := hbalanced m m' (hm.tidy h hne) hrun
  obtain ⟨i, hi, hs⟩ := hpushed.exists_of_pos fun h => hne (List.length_eq_zero_iff.1 h)
  exact ⟨⟨i, hi.shaped h.proper, hs⟩, hkeeps⟩

end

/-! ### The expressions of accepted formulas -/

mutual

/-- The expressions of a statement and all those in them. -/
def TypedStmt.parts : TypedStmt → List TypedExpr
  | .expr e => e.parts
  | .assign _ e => e.parts
  | .setField _ object _ value => object.parts ++ value.parts
  | .zone count body => count.parts ++ TypedStmt.partsAll body

/-- The expressions of statements and all those in them. -/
def TypedStmt.partsAll : List TypedStmt → List TypedExpr
  | [] => []
  | s :: ss => s.parts ++ TypedStmt.partsAll ss

end

mutual

/-- A part of a well-typed expression is well typed, in an environment between the one before and the
one after the expression. -/
theorem ExprTyped.of_mem_parts : (e : TypedExpr) → ∀ {S : Setting} {Γ Γ' : TypeEnv} {part : TypedExpr},
    ExprTyped S Γ e Γ' → part ∈ e.parts → ∃ Γ₁ Γ₂, ExprTyped S Γ₁ part Γ₂
  | .constant _ _, _, _, _, _, h, hmem => by
    cases List.mem_singleton.1 hmem
    exact ⟨_, _, h⟩
  | .var _ _ _, _, _, _, _, h, hmem => by
    cases List.mem_singleton.1 hmem
    exact ⟨_, _, h⟩
  | .node _ args _, _, _, _, _, h, hmem => by
    rcases List.mem_cons.1 hmem with rfl | hinner
    · exact ⟨_, _, h⟩
    · cases h with
      | node _ ha => exact ArgsTyped.of_mem_parts args ha hinner
  | .call _ args _, _, _, _, _, h, hmem => by
    rcases List.mem_cons.1 hmem with rfl | hinner
    · exact ⟨_, _, h⟩
    · cases h with
      | call _ _ ha => exact ArgsTyped.of_mem_parts args ha hinner
  | .output e _ _, _, _, _, _, h, hmem => by
    rcases List.mem_cons.1 hmem with rfl | hinner
    · exact ⟨_, _, h⟩
    · cases h with
      | output he => exact ExprTyped.of_mem_parts e he hinner
  | .component e _ _, _, _, _, _, h, hmem => by
    rcases List.mem_cons.1 hmem with rfl | hinner
    · exact ⟨_, _, h⟩
    · cases h with
      | component he => exact ExprTyped.of_mem_parts e he hinner

theorem ArgsTyped.of_mem_parts : (es : List TypedExpr) → ∀ {S : Setting} {Γ Γ' : TypeEnv}
    {part : TypedExpr}, ArgsTyped S Γ es Γ' → part ∈ TypedExpr.partsAll es →
    ∃ Γ₁ Γ₂, ExprTyped S Γ₁ part Γ₂
  | [], _, _, _, _, _, hmem => by cases hmem
  | e :: es, _, _, _, _, h, hmem => by
    cases h with
    | cons he hes =>
      rcases List.mem_append.1 hmem with hmem | hmem
      · exact ExprTyped.of_mem_parts e he hmem
      · exact ArgsTyped.of_mem_parts es hes hmem

end

/-- An expression is well typed where formulas for a tree can be run. -/
def RunnableIn (tree : TreeKind) (e : TypedExpr) : Prop :=
  ∃ S Γ Γ', S.tree = tree ∧ S.Runnable ∧ ExprTyped S Γ e Γ'

theorem ExprTyped.runnableIn {S : Setting} {Γ Γ' : TypeEnv} {e part : TypedExpr} (hS : S.Runnable)
    (h : ExprTyped S Γ e Γ') (hmem : part ∈ e.parts) : RunnableIn S.tree part := by
  obtain ⟨Γ₁, Γ₂, hpart⟩ := h.of_mem_parts e hmem
  exact ⟨S, Γ₁, Γ₂, rfl, hS, hpart⟩

mutual

/-- The expressions of a well-typed statement can be run, by induction on the statement. They include
those in the bodies of zones. -/
theorem StmtTyped.runnableIn : (s : TypedStmt) → ∀ {S : Setting} {Γ Γ' : TypeEnv} {part : TypedExpr},
    S.Runnable → StmtTyped S Γ s Γ' → part ∈ s.parts → RunnableIn S.tree part
  | .expr _, _, _, _, _, hS, h, hmem => by
    cases h with
    | expr he => exact he.runnableIn hS hmem
  | .assign _ _, _, _, _, _, hS, h, hmem => by
    cases h with
    | assign he => exact he.runnableIn hS hmem
    | unpack he => exact he.runnableIn hS hmem
  | .setField _ _ _ _, _, _, _, _, hS, h, hmem => by
    cases h with
    | setField hobject _ _ _ _ he =>
      rcases List.mem_append.1 hmem with hmem | hmem
      · exact hobject.runnableIn hS hmem
      · exact he.runnableIn hS hmem
  | .zone _ body, S, _, Γ₁, _, hS, h, hmem => by
    cases h with
    | zone _ _ hcount _ hb =>
      rcases List.mem_append.1 hmem with hmem | hmem
      · exact hcount.runnableIn hS hmem
      · have hS' : (S.inZone Γ₁).Runnable := ⟨hS.plain, hS.unique⟩
        have hin := BlockTyped.runnableIn body hS' hb hmem
        exact hin

theorem BlockTyped.runnableIn : (ss : List TypedStmt) → ∀ {S : Setting} {Γ Γ' : TypeEnv}
    {part : TypedExpr}, S.Runnable → BlockTyped S Γ ss Γ' → part ∈ TypedStmt.partsAll ss →
    RunnableIn S.tree part
  | [], _, _, _, _, _, _, hmem => by cases hmem
  | s :: ss, _, _, _, _, hS, h, hmem => by
    cases h with
    | cons hs hss =>
      rcases List.mem_append.1 hmem with hmem | hmem
      · exact StmtTyped.runnableIn s hS hs hmem
      · exact BlockTyped.runnableIn ss hS hss hmem

end

namespace Compilation

variable {source : Source} {options : CompileOptions} {e : TypedExpr}

/-- The check accepts a formula with its libraries, and the expression stands in the statements that it
gives or in the body of a definition that is then known, whether it is called or not. -/
def Produces (source : Source) (options : CompileOptions) (e : TypedExpr) : Prop :=
  ∃ s p stmts s', addLibraries options.tree options.libraries {} = ([], s) ∧
    Program.parse source.text = .ok p ∧ s.check options.tree p = (.ok stmts, s') ∧
    (e ∈ TypedStmt.partsAll stmts ∨
      ∃ n f, s'.functions.get? n = some f ∧ e ∈ TypedStmt.partsAll f.body)

/-- An expression that the checker produces can be run, both in a formula and in a library. -/
theorem Produces.runnableIn (h : Produces source options e) : RunnableIn options.tree e := by
  obtain ⟨s, p, stmts, s', hlibs, hp, hcheck, hmem⟩ := h
  have hs := sound_addLibraries (Checker.sound_new options.tree (.parsed True))
    (fun _ _ => .inl trivial) hlibs
  have hwithin := Source.allWithin_parsed hp (.inl trivial)
  obtain ⟨hS, Γ', htyped⟩ := typed_of_accepted hs hwithin hcheck
  rcases hmem with hmem | ⟨n, f, hf, hmem⟩
  · exact htyped.runnableIn stmts hS hmem
  · let known (f : TypedFunction) : Prop := s'.functions.get? f.name = some f
    have hknown : ∀ n f, s'.functions.get? n = some f → f.name = n → known f := by
      rintro n f hf rfl
      exact hf
    obtain ⟨-, -, hfun⟩ := (hs.check hwithin hcheck).1.knows known hknown n f hf
    cases hfun with
    | mk _ _ hbody =>
      have hS' : (Setting.body { Dialect.parsed True with tree := options.tree, known } f).Runnable :=
        ⟨hS.plain, hS.unique⟩
      exact hbody.runnableIn f.body hS' hmem

/-- The ops of an expression that the check of an accepted formula produces push one item of its shape.
They bind the free variables that the expression creates to new nodes and leave all other variables, the
outputs of the running definition and all nodes, links and groups that there were. -/
theorem expr_neutral (h : Produces source options e) (hne : e.types ≠ []) (n : Nat) :
    ∃ ops n', Lower.expr options.tree e n = .ok (ops, n') ∧
      ∀ m m', m.Ready e → runOps ops m = .ok m' →
        (∃ i, i.Shaped e.varType ∧ m'.stack = i :: m.stack) ∧
        (∀ x, x ∉ e.created → m'.env.get? x = m.env.get? x) ∧
        (∀ x ∈ e.created, m'.Instantiates m.tree.nodes.size x) ∧
        m'.outputs = m.outputs ∧
        (∀ (id : NodeId) (node : Node), m.tree.nodes[id]? = some node → m'.tree.nodes[id]? = some node) ∧
        (∀ l ∈ m.tree.links, l.toNode < m.tree.nodes.size → l ∈ m'.tree.links) ∧
        (m.tree.LinksEnter → m.tree.links.toList <+: m'.tree.links.toList) ∧
        m.groups <+: m'.groups := by
  obtain ⟨S, Γ, Γ', htree, hS, htyped⟩ := h.runnableIn
  obtain ⟨ops, n', hops, -⟩ := htyped.lowers e hS n
  refine ⟨ops, n', htree ▸ hops, fun m m' hm hrun => ?_⟩
  obtain ⟨hpushed, hkeeps⟩ := htyped.neutral hS hne hops hm hrun
  have htree := hkeeps.appends.tree
  exact ⟨hpushed, hkeeps.env, hkeeps.created, hkeeps.outputs,
    fun _ _ hnode => hkeeps.appends.getElem? hnode, fun _ hl hlt => htree.mem_links hl hlt,
    fun henter => htree.links_prefix henter, hkeeps.appends.groups⟩

/-- A formula whose last value reads a variable, splits it, calls a function and creates a variable. -/
def weightedSource : Source where
  name := "weighted"
  text := "fn half(a: float) -> b: float \x7b b = a / 2.0; \x7d v = \x7bp, q, r\x7d; n = half(v.y) + w;"

/-- A state in the middle of a run, with an item on the stack and a variable that the formula does not
have. -/
def weightedStart : Machine where
  tree := {
    name := "weighted"
    kind := .geometry
    nodes := #[{ id := 0, key := "NodeReroute" }, { id := 1, key := "ShaderNodeCombineXYZ" }]
    links := #[⟨0, 0, 1, 0⟩] }
  stack := [.constant (.float 1.0)]
  env := .ofList [("v", .socket ⟨1, 0, .vec3⟩), ("other", .bundle [])]
  outputs := [.empty]
  newest := some 1

/-- Whether an expression reads no variable but a single `v` and those it creates. -/
def readsOnlyV (e : TypedExpr) : Bool :=
  e.parts.all fun part => match part with
    | .var x false t => e.created.contains x || (x == "v" && t.shape == .single)
    | _ => true

/-- The state in the middle of a run is ready for every expression that reads no variable but `v`. -/
theorem ready_weightedStart {e : TypedExpr} (h : readsOnlyV e = true) : weightedStart.Ready e := by
  refine ⟨fun x i hi => ?_, fun x t hmem hcreated => ?_⟩
  · have hkey : x = "v" ∨ x = "other" := by
      by_contra hne
      rw [not_or] at hne
      simp [weightedStart, Table.ofList, Table.insertAll, Table.get?_insert, hne] at hi
    rcases hkey with rfl | rfl <;> decide
  · have hread := List.all_eq_true.1 h _ hmem
    simp only [Bool.or_eq_true, List.contains_iff_mem, Bool.and_eq_true, beq_iff_eq] at hread
    obtain ⟨rfl, hshape⟩ := hread.resolve_left hcreated
    exact ⟨.socket ⟨1, 0, .vec3⟩, rfl, .single hshape (Item.plain_socket _)⟩

/-- The first expression of the formula that creates `w` alone, which is its last value. -/
def weightedValue? : Option TypedExpr := do
  let p ← (Program.parse weightedSource.text).toOption
  let stmts ← (Checker.check .geometry p {}).1.toOption
  (TypedStmt.partsAll stmts).find? fun e => e.created = ["w"]

/-- A call with a member of a variable and a free variable, run in the middle of a formula. One item
is pushed above the others, `w` gets a node behind those that there were, and `v` stays. -/
theorem expr_neutral_weighted : ∃ e ops n' m', Produces weightedSource { tree := .geometry } e ∧
    Lower.expr .geometry e 0 = .ok (ops, n') ∧ e.types ≠ [] ∧ weightedStart.Ready e ∧
    runOps ops weightedStart = .ok m' ∧ e.created = ["w"] ∧
    (∃ i, i.Shaped e.varType ∧ m'.stack = i :: weightedStart.stack) ∧
    m'.Instantiates 2 "w" ∧ m'.env.get? "v" = weightedStart.env.get? "v" := by
  have hfound : weightedValue?.any (fun e => !e.types.isEmpty && readsOnlyV e &&
      (Lower.expr .geometry e 0).toOption.any fun r => (runOps r.1 weightedStart).toBool) = true := by
    decide +kernel
  obtain ⟨e, he, hfound⟩ := (Option.any_eq_true ..).1 hfound
  simp only [Bool.and_eq_true, Bool.not_eq_true', List.isEmpty_eq_false_iff] at hfound
  obtain ⟨⟨hne, hreads⟩, hran⟩ := hfound
  obtain ⟨p, hp, he⟩ := Option.bind_eq_some_iff.1 he
  obtain ⟨stmts, hstmts, he⟩ := Option.bind_eq_some_iff.1 he
  have hproduced : Produces weightedSource { tree := .geometry } e :=
    ⟨{}, p, stmts, _, rfl, ok_of_toOption hp, Prod.ext (ok_of_toOption hstmts) rfl,
      .inl (List.mem_of_find?_eq_some he)⟩
  have hcreated : e.created = ["w"] := by simpa using List.find?_some he
  have hready := ready_weightedStart hreads
  obtain ⟨ops, n', hops, hneutral⟩ := expr_neutral hproduced hne 0
  obtain ⟨r, hr, hran⟩ := (Option.any_eq_true ..).1 hran
  rw [ok_of_toOption hr] at hops
  cases hops
  cases hend : runOps ops weightedStart with
  | error _ =>
    rw [hend] at hran
    cases hran
  | ok m' =>
    obtain ⟨hpushed, hothers, hnew, -⟩ := hneutral weightedStart m' hready hend
    rw [hcreated] at hothers hnew
    exact ⟨e, ops, n', m', hproduced, ok_of_toOption hr, hne, hready, hend, hcreated, hpushed,
      hnew "w" (.head _), hothers "v" (by decide)⟩

end Compilation

end NodeFormula

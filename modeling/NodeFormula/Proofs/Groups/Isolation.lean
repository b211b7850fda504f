import NodeFormula.Proofs.Checker.Hygiene
import NodeFormula.Proofs.Groups.Renaming
import NodeFormula.Proofs.Pipeline

/-!
# Groups are built alike in every formula

A group is built at the first call of it, from a body that is lowered anew for every call. The groups of
a compiled formula are those that its definitions build (`Compilation.groups_of_compile`), and a
definition builds one tree only (`TypedFunction.Builds.unique`).

Formulas that start alike share the definitions of what they start with (`Checker.check_shared`), so what
they do later does not show in the trees of these definitions.
-/

namespace NodeFormula

/-! ### Formulas that start alike -/

/-- The names that statements define. -/
def Stmt.definedNames (ss : List Stmt) : List String := ss.filterMap Stmt.definedName?

namespace Check

variable {ctx : Context} {s s' : Checker} {stmts : List TypedStmt}

/-- A block of two parts is checked part by part, the second from the state that the first leaves. -/
theorem block_append {ss rest : List Stmt} (h : block ctx (ss ++ rest) s = .ok stmts s') :
    ∃ first others s₁, block ctx ss s = .ok first s₁ ∧ block ctx rest s₁ = .ok others s' := by
  induction ss generalizing s stmts with
  | nil => exact ⟨[], stmts, s, rfl, h⟩
  | cons st ss ih =>
    simp only [List.cons_append, block, bind_ok, pure_ok] at h
    obtain ⟨first, s₁, hfirst, more, _, hmore, -, rfl⟩ := h
    obtain ⟨others, last, s₂, hothers, hlast⟩ := ih hmore
    refine ⟨first ++ others, last, s₂, ?_, hlast⟩
    simp only [block, bind_ok, pure_ok]
    exact ⟨first, s₁, hfirst, others, s₂, hothers, rfl, rfl⟩

/-- A statement without errors changes no definition but the one it gives. -/
theorem stmt_functions {st : Stmt} {n : String} (h : stmt ctx st s = .ok stmts s')
    (hc : s'.errors = []) (hn : st.definedName? ≠ some n) :
    s'.functions.get? n = s.functions.get? n := by
  cases st with
  | define header body span =>
    simp only [stmt, bind_ok, pure_ok] at h
    obtain ⟨_, _, hdefine, -, rfl⟩ := h
    have hbody : ∀ d, Monotone false (block (ctx.inDefinition d) body) := fun d =>
      topLevel_inDefinition ctx d ▸ block_monotone body (ctx.inDefinition d)
    obtain ⟨f, d, start, typed, s₁, -, -, -, rfl⟩ := define_leaves hbody hdefine hc
    rw [Table.get?_insert, if_neg fun heq => hn (congrArg some heq.symm)]
  | _ => rw [((stmt_adds _ ctx).grows h).fixed rfl]

/-- A block that is checked without errors changes no definition of a name that it does not
define. -/
theorem block_functions {ss : List Stmt} {n : String} (h : block ctx ss s = .ok stmts s')
    (hc : s'.errors = []) (hn : n ∉ Stmt.definedNames ss) :
    s'.functions.get? n = s.functions.get? n := by
  induction ss generalizing s stmts with
  | nil => rw [(pure_ok.1 h).2]
  | cons st ss ih =>
    simp only [block, bind_ok, pure_ok] at h
    obtain ⟨first, s₁, hfirst, others, _, hothers, -, rfl⟩ := h
    have hc₁ : s₁.errors = [] := ((block_monotone ss ctx).grows hothers).errors_eq_nil hc
    simp only [Stmt.definedNames, List.mem_filterMap, not_exists, not_and, List.forall_mem_cons] at hn ih
    rw [ih hothers hn.2, stmt_functions (recover_ok hc₁ hfirst) hc₁ hn.1]

end Check

/-- A definition that one of two accepted formulas has from what they start with, or from a library, is
that of the other. -/
theorem Checker.check_shared {tree : TreeKind} {s s₁ s₂ : Checker} {shared rest₁ rest₂ : List Stmt}
    {stmts₁ stmts₂ : List TypedStmt} {n : String} {f : TypedFunction}
    (h₁ : s.check tree ⟨shared ++ rest₁⟩ = (.ok stmts₁, s₁))
    (h₂ : s.check tree ⟨shared ++ rest₂⟩ = (.ok stmts₂, s₂)) (hn : n ∉ Stmt.definedNames rest₁)
    (hf : s₁.functions.get? n = some f) : s₂.functions.get? n = some f := by
  obtain ⟨h₁, hc₁⟩ := finish_ok h₁
  obtain ⟨h₂, -⟩ := finish_ok h₂
  obtain ⟨_, _, mid, hshared, hrest₁⟩ := Check.block_append h₁
  obtain ⟨_, _, mid', hshared', hrest₂⟩ := Check.block_append h₂
  cases hshared.symm.trans hshared'
  rw [Check.block_functions hrest₁ hc₁ hn] at hf
  exact ((Check.block_monotone rest₂ _).grows hrest₂).functions n f hf

/-! ### What a definition builds -/

/-- `t` is the tree that a call of a definition builds in a tree of kind `kind`. The definition has no
names of temporary variables. -/
def TypedFunction.Builds (kind : TreeKind) (f : TypedFunction) (t : NodeTree) : Prop :=
  (∀ p ∈ f.inputs, '#' ∉ p.name.toList) ∧
    (∃ Q, TypedStmt.AllUse (fun x => '#' ∉ x.toList) Q f.body) ∧
    ∃ c : GroupCall, c.Lowers kind f ∧ c.Builds kind t

theorem TypedFunction.Builds.unique {kind : TreeKind} {f : TypedFunction} {t t' : NodeTree}
    (h : f.Builds kind t) (h' : f.Builds kind t') : t = t' := by
  obtain ⟨hinputs, ⟨Q, huses⟩, c, hc, hbuilds⟩ := h
  obtain ⟨-, -, c', hc', hbuilds'⟩ := h'
  exact GroupCall.Builds.unique hinputs huses hc hc' hbuilds hbuilds'

/-- The tree that a definition builds has the name of the definition. -/
theorem TypedFunction.Builds.name {kind : TreeKind} {f : TypedFunction} {t : NodeTree}
    (h : f.Builds kind t) : t.name = f.name := by
  obtain ⟨-, -, c, hc, hbuilds⟩ := h
  rw [hbuilds.name, hc.name]

/-- The groups of a formula are built from definitions that it may call, each from the ops of its own
body. The formula uses no other definitions, as it is well typed. -/
theorem BlockTyped.builds {repeats : Prop} {kind : TreeKind} {known : TypedFunction → Prop}
    {Γ' : TypeEnv} {stmts : List TypedStmt} {name : String} {ops : List Op} {g : NodeGraph}
    (h : BlockTyped { Dialect.parsed repeats with tree := kind, known } TypeEnv.empty stmts Γ')
    (hops : lower kind stmts = .ok ops) (hg : NodeGraph.ofOps kind name ops = .ok g) :
    ∀ t ∈ g.groups, ∃ f, known f ∧ f.Builds kind t := by
  obtain ⟨m, hrun, hg⟩ := Machine.run_bind_ok.1 hg
  cases hg
  obtain ⟨new, hnew, hbuilt⟩ := (Machine.runOps_collects ops (h.calls hops) _ m hrun).groups
  intro t ht
  change t ∈ m.groups at ht
  rw [hnew, List.nil_append] at ht
  obtain ⟨c, ⟨f, -, hf, hinputs, huses, hc⟩, hbuilds⟩ := hbuilt t ht
  exact ⟨f, hf, hinputs, ⟨_, huses⟩, c, hc, hbuilds⟩

namespace Compilation

variable {source : Source} {options : CompileOptions} {result : Compilation}

/-- The groups of a compiled formula are built from the definitions that are known after it, and laid
out. -/
theorem groups_of_compile (h : compile source options = .ok result) : ∃ s p stmts s',
    addLibraries options.tree options.libraries {} = ([], s) ∧
    Program.parse source.text = .ok p ∧ s.check options.tree p = (.ok stmts, s') ∧
    ∀ t ∈ result.graph.groups, ∃ f u, s'.functions.get? t.name = some f ∧
      f.Builds options.tree u ∧ t = Layout.tree u := by
  obtain ⟨stmts, g, hcheck, hops, hg, hgraph⟩ := compile_ok h
  obtain ⟨s, p, s', hlibs, hp, hcheck⟩ := check_ok hcheck
  have hs := sound_addLibraries (Checker.sound_new options.tree (.parsed True))
    (fun _ _ => .inl trivial) hlibs
  obtain ⟨-, Γ', htyped⟩ := typed_of_accepted hs (Source.allWithin_parsed hp (.inl trivial)) hcheck
  refine ⟨s, p, stmts, s', hlibs, hp, hcheck, fun t ht => ?_⟩
  rw [hgraph] at ht
  obtain ⟨u, hu, rfl⟩ := List.mem_map.1 ht
  obtain ⟨f, hf, hbuilds⟩ := htyped.builds hops hg u hu
  refine ⟨f, u, ?_, hbuilds, rfl⟩
  change s'.functions.get? u.name = some f
  rw [hbuilds.name]
  exact hf

/-- Let two formulas start with the same statements and compile with the same libraries. A group of
both that they do not both define in what follows is the same tree in both, wherever and however often
it is called, in which order with other groups and with which arguments. -/
theorem groups_isolated {source₁ source₂ : Source} {name : String} {shared rest₁ rest₂ : List Stmt}
    {result₁ result₂ : Compilation} {t₁ t₂ : NodeTree}
    (hparse₁ : Program.parse source₁.text = .ok ⟨shared ++ rest₁⟩)
    (hparse₂ : Program.parse source₂.text = .ok ⟨shared ++ rest₂⟩)
    (h₁ : compile source₁ options = .ok result₁)
    (h₂ : compile source₂ { options with treeName := name } = .ok result₂)
    (ht₁ : t₁ ∈ result₁.graph.groups) (ht₂ : t₂ ∈ result₂.graph.groups) (hname : t₁.name = t₂.name)
    (hrest : t₁.name ∉ Stmt.definedNames rest₁ ∨ t₁.name ∉ Stmt.definedNames rest₂) : t₁ = t₂ := by
  obtain ⟨s, p₁, stmts₁, s₁, hlibs₁, hp₁, hcheck₁, hgroups₁⟩ := groups_of_compile h₁
  obtain ⟨_, p₂, stmts₂, s₂, hlibs₂, hp₂, hcheck₂, hgroups₂⟩ := groups_of_compile h₂
  cases hlibs₁.symm.trans hlibs₂
  cases hparse₁.symm.trans hp₁
  cases hparse₂.symm.trans hp₂
  obtain ⟨f, u₁, hf, hbuilds₁, rfl⟩ := hgroups₁ t₁ ht₁
  obtain ⟨g, u₂, hg, hbuilds₂, rfl⟩ := hgroups₂ t₂ ht₂
  rw [← hname] at hg
  have hfg : f = g := by
    rcases hrest with hrest | hrest
    · exact Option.some.inj ((Checker.check_shared hcheck₁ hcheck₂ hrest hf).symm.trans hg)
    · exact Option.some.inj (hf.symm.trans (Checker.check_shared hcheck₂ hcheck₁ hrest hg))
  subst hfg
  rw [hbuilds₁.unique hbuilds₂]

/-- A library with a group that has a zone in it. -/
def growthLibrary : Source where
  name := "growth"
  text := "ng grow(a: float) -> b: float \x7b repeat 2 \x7b a = a + a; \x7d b = a; \x7d"

/-- A group that takes a vector apart, as it is read at the start of a source. -/
@[match_pattern]
def splitDefinition : Stmt :=
  .define ⟨.group, "split", [⟨"v", .vec3, none, ⟨9, 16⟩⟩], [⟨"b", .float, none, ⟨21, 29⟩⟩]⟩
    [.assign [.name "b" ⟨32, 33⟩] (.member (.name "v" ⟨36, 37⟩) "x" ⟨36, 39⟩) ⟨32, 40⟩] ⟨0, 42⟩

/-- A formula that calls the groups in turn. -/
def plainCalls : Source where
  name := "formula"
  text := "ng split(v: vec3) -> b: float \x7b b = v.x; \x7d x = split(\x7b1, 2, 3\x7d); y = grow(x);"

/-- A formula that calls the groups in another order, in a zone and in a function, with other arguments
and after other temporary variables. -/
def scatteredCalls : Source where
  name := "formula"
  text := "ng split(v: vec3) -> b: float \x7b b = v.x; \x7d
    fn both(a: vec3) -> c: float \x7b c = split(a * 2) + split(a); \x7d
    w = \x7bk, k, 1\x7d; w.y = k; repeat 3 \x7b k = grow(w.y); \x7d z = both(w) + w.z;"

/-- Whether a source starts with the definition of `split` and goes on to define `names`. -/
def opensWithSplit (source : Source) (names : List String) : Bool :=
  match Program.parse source.text with
  | .ok ⟨splitDefinition :: rest⟩ => Stmt.definedNames rest = names
  | _ => false

theorem exists_of_opensWithSplit {names : List String} (h : opensWithSplit source names = true) :
    ∃ rest, Program.parse source.text = .ok ⟨[splitDefinition] ++ rest⟩ ∧
      Stmt.definedNames rest = names := by
  unfold opensWithSplit at h
  split at h
  next rest hparse => exact ⟨rest, hparse, of_decide_eq_true h⟩
  next => cases h

/-- Two formulas that share a library and a first definition. They call the two groups in different
orders and with other definitions around them, and both groups are built alike. -/
theorem groups_isolated_split : ∃ result₁ result₂,
    compile plainCalls { tree := .geometry, libraries := [growthLibrary] } = .ok result₁ ∧
    compile scatteredCalls { tree := .geometry, treeName := "Late", libraries := [growthLibrary] } =
      .ok result₂ ∧
    result₁.graph.groups.map (·.name) = ["split", "grow"] ∧
    result₂.graph.groups.map (·.name) = ["grow", "split"] ∧
    ∀ t₁ ∈ result₁.graph.groups, ∀ t₂ ∈ result₂.graph.groups, t₁.name = t₂.name → t₁ = t₂ := by
  obtain ⟨rest₁, hparse₁, hnames⟩ := exists_of_opensWithSplit
    (show opensWithSplit plainCalls [] = true by decide +kernel)
  obtain ⟨rest₂, hparse₂, -⟩ := exists_of_opensWithSplit
    (show opensWithSplit scatteredCalls ["both"] = true by decide +kernel)
  obtain ⟨-, result₁, -, h₁, hgroups₁⟩ := exists_of_yields plainCalls
    { tree := .geometry, libraries := [growthLibrary] }
    (fun _ result => result.graph.groups.map (·.name) = ["split", "grow"]) (by decide +kernel)
  obtain ⟨-, result₂, -, h₂, hgroups₂⟩ := exists_of_yields scatteredCalls
    { tree := .geometry, treeName := "Late", libraries := [growthLibrary] }
    (fun _ result => result.graph.groups.map (·.name) = ["grow", "split"]) (by decide +kernel)
  refine ⟨result₁, result₂, h₁, h₂, of_decide_eq_true hgroups₁, of_decide_eq_true hgroups₂,
    fun t₁ ht₁ t₂ ht₂ hname => ?_⟩
  exact groups_isolated hparse₁ hparse₂ h₁ h₂ ht₁ ht₂ hname
    (.inl (by rw [hnames]; exact List.not_mem_nil))

end Compilation

end NodeFormula

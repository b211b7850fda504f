import NodeFormula.Proofs.Pipeline
import NodeFormula.Proofs.Zones.Entering
import NodeFormula.Proofs.Zones.Leftovers

/-!
# What the zones of a compiled formula carry

A zone carries the variables in scope that its body assigns. It also carries names that an earlier zone
was the first to bind, although the formula cannot read them, if they still stand for a single value
(`Compilation.zones_carry`).

The items have the types that the formula has for the variables where functions get arguments and give
outputs of exactly the declared types, and otherwise these types up to the conversions on the way
(`Compilation.zones_typed`).
-/

namespace NodeFormula

/-! ### Scopes of the checker -/

/-- After statements the checker has in scope what the listing of zones has. So the scope of an entry in
`zones_carry` and `zones_typed`, which is computed from typed statements alone, is the scope that the
checker has where it enters the zone. -/
theorem Check.tracks_scopeAfterAll {ctx : Context} {S : Setting} (hS : InSetting ctx S)
    {ss : List Stmt} (hn : Stmt.AllWithin S.toDialect ss) {Γ : TypeEnv} {s s' : Checker}
    {typed : List TypedStmt} (h : block ctx ss s = .ok typed s') (ht : Tracks s.scope Γ)
    (hk : Knows S s.functions) (hc : Clean S s') :
    Tracks s'.scope (TypedStmt.scopeAfterAll S.tree Γ typed) := by
  obtain ⟨Γ', hchecked⟩ := (block_checks ss hS hn).checked h ht hk hc
  rw [hchecked.typed.scopeAfterAll_eq]
  exact hchecked.tracks

/-! ### Layout -/

theorem Layout.zoneItems_tree (t : NodeTree) : (tree t).zoneItems = t.zoneItems :=
  filterMap_tree (fun _ _ _ => rfl) t

/-! ### Compiled formulas -/

/-- A property holds of the zones that a formula enters in its tree, and of those in each of its
groups, with their items. -/
structure NodeGraph.ZonesSatisfy (P : List ZoneEntry → List (List RepeatItem) → Prop)
    (stmts : List TypedStmt) (g : NodeGraph) : Prop where
  tree : P (TypedStmt.zonesAll .geometry TypeEnv.empty Widths.empty stmts) g.tree.zoneItems
  groups : ∀ t ∈ g.groups, ∃ f ∈ TypedStmt.groupsAll stmts, f.name = t.name ∧
    P (f.zones .geometry) t.zoneItems

theorem NodeGraph.ZonesSatisfy.imp {P Q : List ZoneEntry → List (List RepeatItem) → Prop}
    {stmts : List TypedStmt} {g : NodeGraph} (h : g.ZonesSatisfy P stmts)
    (himp : ∀ entries items, P entries items → Q entries items) : g.ZonesSatisfy Q stmts where
  tree := himp _ _ h.tree
  groups t ht :=
    let ⟨f, hf, hname, hP⟩ := h.groups t ht
    ⟨f, hf, hname, himp _ _ hP⟩

/-- Layout keeps what holds of the zones of every tree. -/
theorem NodeGraph.ZonesSatisfy.layout {P : List ZoneEntry → List (List RepeatItem) → Prop}
    {stmts : List TypedStmt} {g : NodeGraph} (h : g.ZonesSatisfy P stmts) :
    (Layout.graph g).ZonesSatisfy P stmts := by
  refine ⟨?_, fun t ht => ?_⟩
  · change P _ (Layout.tree g.tree).zoneItems
    rw [Layout.zoneItems_tree]
    exact h.tree
  · obtain ⟨u, hu, rfl⟩ := List.mem_map.1 ht
    obtain ⟨f, hf, hname, hP⟩ := h.groups u hu
    refine ⟨f, hf, hname, ?_⟩
    rw [Layout.zoneItems_tree]
    exact hP

/-- The zones of a well-typed formula that is run match its entries, and what was left behind comes
from earlier zones. This holds of the formula's own tree and of the tree of each group. -/
theorem BlockTyped.zonesSatisfy {R : SocketType → SocketType → Prop} [DecidableRel R] [Std.Refl R]
    [IsTrans SocketType R] {S : Setting} {Γ' : TypeEnv} {stmts : List TypedStmt} {name : String}
    {ops : List Op} {g : NodeGraph} (hS : S.Runnable) (hgeo : S.tree = .geometry)
    (ho : S.outputs = []) (h : BlockTyped S TypeEnv.empty stmts Γ')
    (halong : TypedStmt.allAlong R .geometry [] stmts = true)
    (hops : lower S.tree stmts = .ok ops) (hg : NodeGraph.ofOps S.tree name ops = .ok g) :
    g.ZonesSatisfy
      (fun entries items => List.Forall₂ (Matches R) entries items ∧ LeftBefore [] entries) stmts := by
  obtain ⟨n, hlower⟩ : ∃ n, Lower.stmts S.tree (S.outputs.map (·.name)) stmts 0 = .ok (ops, n) := by
    rw [ho]
    exact Lower.stmts_of_lower hops
  obtain ⟨m, hm, hg⟩ := Machine.run_bind_ok.1 hg
  cases hg
  have hlen : ([] : List Item).length = S.outputs.length := by rw [ho]; rfl
  obtain ⟨w, hw, -⟩ :=
    ((h.runs hS hlower).runs Widths.empty _ (agrees_start S name) hlen).of_ok hm
  obtain ⟨-, -, hadds⟩ := BlockTyped.traces stmts hS hgeo h (hgeo ▸ halong) hlower
    Widths.empty _ m (agrees_start S name) hlen (fun _ _ hx => by cases hx)
    (fun _ _ _ _ hτ => by cases hτ) hm
  have hscopes : Scopes [] TypeEnv.empty Widths.empty := fun _ hx => absurd rfl hx
  obtain ⟨hleft, -, hleftGroups⟩ := BlockTyped.leftBefore stmts h hw hscopes
  rw [hgeo] at hadds hleft hleftGroups
  obtain ⟨new, hnew, hmatches⟩ := hadds.zones
  refine ⟨⟨?_, hleft⟩, fun t ht => ?_⟩
  · change List.Forall₂ (Matches R) _ m.tree.zoneItems
    rw [hnew]
    exact hmatches
  · rcases hadds.groups t ht with ht | ⟨f, hf, hname, hzones⟩
    · cases ht
    · exact ⟨f, hf, hname, hzones, hleftGroups f hf⟩

namespace Compilation

variable {source : Source} {options : CompileOptions} {stmts : List TypedStmt} {result : Compilation}

/-- The zones of a compiled formula match its entries, and what was left behind comes from earlier
zones. The formula is well typed as it was accepted, and layout keeps the zones of the graph that it
was run to. -/
theorem zonesSatisfy_of_compile {R : SocketType → SocketType → Prop} [DecidableRel R] [Std.Refl R]
    [IsTrans SocketType R] (htree : options.tree = .geometry) (h : check source options = .ok stmts)
    (hcompile : compile source options = .ok result)
    (halong : TypedStmt.allAlong R .geometry [] stmts = true) :
    result.graph.ZonesSatisfy
      (fun entries items => List.Forall₂ (Matches R) entries items ∧ LeftBefore [] entries) stmts := by
  obtain ⟨known, Γ', hS, htyped⟩ := typed_of_check h (.inl trivial)
  obtain ⟨ops, hops, -⟩ := htyped.lower_ends hS rfl options.treeName
  rw [compile_of_lower h hops] at hcompile
  cases hg : NodeGraph.ofOps options.tree options.treeName ops with
  | error e =>
    rw [hg] at hcompile
    cases hcompile
  | ok g =>
    rw [hg] at hcompile
    cases hcompile
    exact (htyped.zonesSatisfy hS htree rfl halong hops hg).layout

/-! ### Variables that zones carry -/

/-- The zones of an accepted geometry formula that compiles, in the order in which they are entered,
carry the variables in scope that their bodies assign, and those that their bodies assign and that
were left behind. What is left behind was first bound in an earlier zone. The scope with which an entry is
listed is the one that the checker has at that place (`Check.tracks_scopeAfterAll`). -/
theorem zones_carry (htree : options.tree = .geometry) (h : check source options = .ok stmts)
    (hcompile : compile source options = .ok result) :
    result.graph.ZonesSatisfy
      (fun entries items => List.Forall₂ ZoneEntry.Carries entries items ∧ LeftBefore [] entries)
      stmts := by
  -- The types do not matter here.
  let R : SocketType → SocketType → Prop := fun _ _ => True
  have : DecidableRel R := fun _ _ => .isTrue trivial
  have : Std.Refl R := ⟨fun _ => trivial⟩
  have : IsTrans SocketType R := ⟨fun _ _ _ _ _ => trivial⟩
  have hzones := zonesSatisfy_of_compile htree h hcompile
    (TypedStmt.allAlong_of_forall (R := R) (fun _ _ => trivial) .geometry [] stmts)
  exact hzones.imp fun _ _ ⟨hmatches, hleft⟩ => ⟨hmatches.imp fun _ _ h => h.names, hleft⟩

/-- A group and a formula with zones in zones. The last zone of the formula assigns a variable in scope
and a name that the first zone left behind. -/
def steppedZones : Source where
  name := "formula"
  text := "ng steps(a: float) -> b: float \x7b s = a; repeat 2 \x7b s = s + 1; \x7d b = s; \x7d
    x = 0.0; repeat 3 \x7b t = steps(x); repeat 2 \x7b t = t * 2; \x7d x = x + t; \x7d
    repeat 2 \x7b t = x; x = t + 1; \x7d"

/-- Zones one after the other, one in the body of another and one in a group. The second loop finds
`t` left behind by the first and carries it, although the formula binds it there first. -/
theorem zones_carry_steppedZones : ∃ stmts result,
    check steppedZones { tree := .geometry } = .ok stmts ∧
    compile steppedZones { tree := .geometry } = .ok result ∧
    result.graph.tree.zoneItems = [[⟨"x", .float⟩], [⟨"t", .float⟩], [⟨"t", .float⟩, ⟨"x", .float⟩]] ∧
    result.graph.ZonesSatisfy
      (fun entries items => List.Forall₂ ZoneEntry.Carries entries items ∧ LeftBefore [] entries)
      stmts := by
  obtain ⟨stmts, result, hcheck, hcompile, hitems⟩ := exists_of_yields steppedZones { tree := .geometry }
    (fun _ result => result.graph.tree.zoneItems =
      [[⟨"x", .float⟩], [⟨"t", .float⟩], [⟨"t", .float⟩, ⟨"x", .float⟩]]) (by decide +kernel)
  exact ⟨stmts, result, hcheck, hcompile, of_decide_eq_true hitems,
    zones_carry rfl hcheck hcompile⟩

/-- Two zones that bind one name, which no variable outside them has. -/
def zonesInTurn : Source where
  name := "formula"
  text := "repeat 2 \x7b t = 1.0; \x7d repeat 2 \x7b t = 2.0; \x7d"

/-- A zone that carries a name which is not in scope where it is entered: the zone before it was the
first to bind the name. -/
theorem zonesInTurn_carry : ∃ stmts result,
    check zonesInTurn { tree := .geometry } = .ok stmts ∧
    compile zonesInTurn { tree := .geometry } = .ok result ∧
    result.graph.tree.zoneItems = [[], [⟨"t", .float⟩]] ∧
    (TypedStmt.zonesAll .geometry TypeEnv.empty Widths.empty stmts).map (fun z => z.scope "t") =
      [none, none] := by
  obtain ⟨stmts, result, hcheck, hcompile, hyields⟩ := exists_of_yields zonesInTurn { tree := .geometry }
    (fun stmts result => result.graph.tree.zoneItems = [[], [⟨"t", .float⟩]] ∧
      (TypedStmt.zonesAll .geometry TypeEnv.empty Widths.empty stmts).map (fun z => z.scope "t") =
        [none, none]) (by decide +kernel)
  exact ⟨stmts, result, hcheck, hcompile, of_decide_eq_true hyields⟩

/-! ### Types of the variables that zones carry -/

/-- Let `R` be a relation of types along which an accepted geometry formula that compiles passes
arguments and outputs of functions. Then the items for the variables in scope have the types that the
formula has for them where the zone is entered, up to `R`. With equality for `R` they have these
types. The types that the formula has for variables are those in the scope of the checker
(`Check.tracks_scopeAfterAll`), so the items are compared with what the checker has accepted. -/
theorem zones_typed (R : SocketType → SocketType → Prop) [DecidableRel R] [Std.Refl R]
    [IsTrans SocketType R] (htree : options.tree = .geometry) (h : check source options = .ok stmts)
    (hcompile : compile source options = .ok result)
    (halong : TypedStmt.allAlong R .geometry [] stmts = true) :
    result.graph.ZonesSatisfy
      (fun entries items => List.Forall₂ (ZoneEntry.Types R) entries items) stmts :=
  (zonesSatisfy_of_compile htree h hcompile halong).imp fun _ _ ⟨hmatches, _⟩ =>
    hmatches.imp fun _ _ h => h.types

/-- A function with a zone that changes its parameter, called in a zone with values of exactly the
types that it declares. -/
def growingZones : Source where
  name := "formula"
  text := "fn grow(a: vec3, n: float) -> b: vec3, m: float
    \x7b repeat 2 \x7b a = a + \x7bn, n, n\x7d; \x7d b = a; m = n; \x7d
    v = \x7b1, 2, 3\x7d; k = 1.0; repeat 3 \x7b v, k = grow(v, k); \x7d"

/-- A function with a zone that is called in a zone, where arguments and outputs have the declared
types exactly. The zone around the call is entered first, then that of the function. -/
theorem zones_typed_growingZones : ∃ stmts result,
    check growingZones { tree := .geometry } = .ok stmts ∧
    compile growingZones { tree := .geometry } = .ok result ∧
    TypedStmt.allAlong (· = ·) .geometry [] stmts = true ∧
    result.graph.tree.zoneItems = [[⟨"k", .float⟩, ⟨"v", .vec3⟩], [⟨"a", .vec3⟩]] ∧
    result.graph.ZonesSatisfy
      (fun entries items => List.Forall₂ (ZoneEntry.Types (· = ·)) entries items) stmts := by
  obtain ⟨stmts, result, hcheck, hcompile, hyields⟩ := exists_of_yields growingZones { tree := .geometry }
    (fun stmts result => TypedStmt.allAlong (· = ·) .geometry [] stmts = true ∧
      result.graph.tree.zoneItems = [[⟨"k", .float⟩, ⟨"v", .vec3⟩], [⟨"a", .vec3⟩]])
    (by decide +kernel)
  obtain ⟨halong, hitems⟩ := of_decide_eq_true hyields
  exact ⟨stmts, result, hcheck, hcompile, halong, hitems,
    zones_typed (· = ·) rfl hcheck hcompile halong⟩

/-- A function that takes a float for a vector and has a zone that changes the parameter. -/
def widenedZone : Source where
  name := "formula"
  text := "fn f(a: vec3) -> b: vec3 \x7b repeat 2 \x7b a = a + \x7b1, 1, 1\x7d; \x7d b = a; \x7d
    x = 1.0; y = f(x);"

/-- An item of another type than the formula has for the variable: the parameter is a vector where the
zone is entered, and its item is a float. -/
theorem widenedZone_item : ∃ stmts result,
    check widenedZone { tree := .geometry } = .ok stmts ∧
    compile widenedZone { tree := .geometry } = .ok result ∧
    result.graph.tree.zoneItems = [[⟨"a", .float⟩]] ∧
    (TypedStmt.zonesAll .geometry TypeEnv.empty Widths.empty stmts).map (fun z => z.scope "a") =
      [some (.value .vec3)] := by
  obtain ⟨stmts, result, hcheck, hcompile, hyields⟩ := exists_of_yields widenedZone { tree := .geometry }
    (fun stmts result => result.graph.tree.zoneItems = [[⟨"a", .float⟩]] ∧
      (TypedStmt.zonesAll .geometry TypeEnv.empty Widths.empty stmts).map (fun z => z.scope "a") =
        [some (.value .vec3)]) (by decide +kernel)
  exact ⟨stmts, result, hcheck, hcompile, of_decide_eq_true hyields⟩

end Compilation

end NodeFormula

import NodeFormula.Compilation
import NodeFormula.Proofs.Checker.Session
import NodeFormula.Proofs.Graph.Layout
import NodeFormula.Proofs.Parsing.Shape
import NodeFormula.Proofs.Running.Simulation

/-!
# From accepted sources to graphs

A formula that is read and checked without errors is well typed, so it can be lowered, and its ops run
as the widths of its variables foretell. Names of a source have no `#`, which keeps them apart from
temporary variables.

Without repeat zones compilation of an accepted formula succeeds (`Compilation.compile_ok_of_check`).
With them it fails in one way: a zone carries a variable that an earlier zone left behind, and ends
with a bundle in it (`Compilation.compile_of_check`).
-/

namespace NodeFormula

/-! ### Parsed formulas as parts of the language -/

/-- The part of the language that the parser reads, with or without repeat zones. -/
def Dialect.parsed (repeats : Prop) : Dialect where
  spelled x := '#' ∉ x.toList
  repeats := repeats

/-- A name of a source has no hash in it, since it is of letters, digits and underscores. Temporary
variables have one, so the two never clash. -/
theorem Token.hash_notMem_of_isName {n : String} (h : Token.isName n = true) : '#' ∉ n.toList := by
  have hword := (Bool.and_eq_true_iff.1 h).1
  unfold Token.isWord at hword
  split at hword
  next => cases hword
  next x rest hx =>
    obtain ⟨hstart, hall⟩ := Bool.and_eq_true_iff.1 hword
    rw [hx]
    intro hmem
    rcases List.mem_cons.1 hmem with rfl | hmem
    · cases hstart
    · cases List.all_eq_true.1 hall _ hmem

mutual

/-- The names in an expression that was read have no hash in them, by induction on the expression. -/
theorem Expr.spelled_of_shaped : (e : Expr) → e.shaped true = true →
    e.Spelled fun x => '#' ∉ x.toList
  | .int .., _ | .float .., _ | .bool .., _ | .str .., _ => trivial
  | .name _ _, h => Token.hash_notMem_of_isName h
  | .vector items _, h => Expr.allSpelled_of_shaped items (Bool.and_eq_true_iff.1 h).2
  | .unary _ e _, h => Expr.spelled_of_shaped e h
  | .binary _ l r _, h =>
    let ⟨hl, hr⟩ := Bool.and_eq_true_iff.1 h
    ⟨Expr.spelled_of_shaped l hl, Expr.spelled_of_shaped r hr⟩
  | .call _ args _, h => Expr.allSpelled_of_shaped args (Bool.and_eq_true_iff.1 h).2
  | .member e _ _, h => Expr.spelled_of_shaped e (Bool.and_eq_true_iff.1 h).1

theorem Expr.allSpelled_of_shaped : (es : List Expr) → Expr.allShaped true es = true →
    Expr.AllSpelled (fun x => '#' ∉ x.toList) es
  | [], _ => trivial
  | e :: es, h =>
    let ⟨he, hes⟩ := Bool.and_eq_true_iff.1 h
    ⟨Expr.spelled_of_shaped e he, Expr.allSpelled_of_shaped es hes⟩

end

theorem Target.spelled_of_shaped {t : Target} (h : t.shaped = true) :
    t.Spelled fun x => '#' ∉ x.toList := by
  cases t with
  | name n => exact Token.hash_notMem_of_isName (Bool.and_eq_true_iff.1 h).1
  | ignore => trivial

theorem Param.spelled_of_shaped {p : Param} (h : p.shaped true = true) :
    p.Spelled fun x => '#' ∉ x.toList := by
  obtain ⟨hn, hd⟩ := Bool.and_eq_true_iff.1 h
  refine ⟨Token.hash_notMem_of_isName hn, fun e he => ?_⟩
  rw [he] at hd
  exact e.spelled_of_shaped hd

mutual

/-- Whether a statement has no repeat zone in it. -/
def Stmt.repeatFree : Stmt → Bool
  | .expr .. => true
  | .assign .. => true
  | .setField .. => true
  | .loop _ _ _ body _ => Stmt.allRepeatFree body
  | .zone .. => false
  | .define _ body _ => Stmt.allRepeatFree body

/-- Whether statements have no repeat zone in them. -/
def Stmt.allRepeatFree : List Stmt → Bool
  | [] => true
  | s :: ss => s.repeatFree && Stmt.allRepeatFree ss

end

mutual

/-- A statement that was read is in the part of the language that sources have, with zones only where
they are allowed. The induction is on the statement. -/
theorem Stmt.within_parsed {repeats : Prop} : (s : Stmt) → s.shaped true = true →
    (repeats ∨ s.repeatFree = true) → s.Within (.parsed repeats)
  | .expr e _, h, _ => e.spelled_of_shaped h
  | .assign targets e _, h, _ => by
    simp only [Stmt.shaped, Bool.and_eq_true, List.all_eq_true] at h
    exact ⟨fun t ht => Target.spelled_of_shaped (h.1.2 t ht), e.spelled_of_shaped h.2⟩
  | .setField _ _ e _, h, _ => by
    simp only [Stmt.shaped, Bool.and_eq_true] at h
    exact ⟨Token.hash_notMem_of_isName h.1.1, e.spelled_of_shaped h.2⟩
  | .loop _ _ _ body _, h, hr => Stmt.allWithin_parsed body (Bool.and_eq_true_iff.1 h).2 hr
  | .zone count body _, h, hr => by
    obtain ⟨hc, hb⟩ := Bool.and_eq_true_iff.1 h
    have hrepeats : repeats := hr.resolve_right nofun
    exact ⟨hrepeats, count.spelled_of_shaped hc, Stmt.allWithin_parsed body hb (.inl hrepeats)⟩
  | .define header body _, h, hr => by
    simp only [Stmt.shaped, Header.shaped, Bool.and_eq_true, List.all_eq_true] at h
    exact ⟨fun p hp => Param.spelled_of_shaped (h.1.1.2 p hp), Stmt.allWithin_parsed body h.2 hr⟩

theorem Stmt.allWithin_parsed {repeats : Prop} : (ss : List Stmt) →
    Stmt.allShaped true ss = true → (repeats ∨ Stmt.allRepeatFree ss = true) →
    Stmt.AllWithin (.parsed repeats) ss
  | [], _, _ => trivial
  | s :: ss, h, hr =>
    let ⟨hs, hss⟩ := Bool.and_eq_true_iff.1 h
    ⟨Stmt.within_parsed s hs (hr.imp_right fun h => (Bool.and_eq_true_iff.1 h).1),
      Stmt.allWithin_parsed ss hss (hr.imp_right fun h => (Bool.and_eq_true_iff.1 h).2)⟩

end

/-- Whether a source has no repeat zone in it. A source with a syntax error has none. -/
def Source.repeatFree (source : Source) : Bool :=
  match Program.parse source.text with
  | .ok p => Stmt.allRepeatFree p.items
  | .error _ => true

theorem Source.allWithin_parsed {source : Source} {p : Program} {repeats : Prop}
    (hp : Program.parse source.text = .ok p) (h : repeats ∨ source.repeatFree = true) :
    Stmt.AllWithin (.parsed repeats) p.items := by
  refine Stmt.allWithin_parsed p.items (Program.shaped_of_parse hp) (h.imp_right fun h => ?_)
  rw [Source.repeatFree, hp] at h
  exact h

/-! ### Libraries and formulas -/

namespace Compilation

variable {tree : TreeKind} {repeats : Prop} {s s' : Checker}

/-- A library that is added without errors leaves a checker in which all definitions are well
typed. -/
theorem sound_addLibrary {source : Source} (hs : s.Sound tree (.parsed repeats))
    (hr : repeats ∨ source.repeatFree = true) (h : addLibrary tree source s = ([], s')) :
    s'.Sound tree (.parsed repeats) := by
  unfold addLibrary at h
  split at h
  next => cases h
  next p hp =>
    split at h
    next s₁ hlib =>
      cases h
      exact hs.addLibrary (Source.allWithin_parsed hp hr) hlib
    next errors s₁ hlib =>
      -- A library that is refused has errors, so there would be diagnostics.
      obtain ⟨hd, rfl⟩ := Prod.mk.inj h
      have hnil : errors = [] := List.map_eq_nil_iff.1 hd
      exact absurd hnil (Checker.finish_error_ne_nil hlib)

/-- Libraries without errors leave a checker in which all definitions are well typed, by induction on
the libraries. The first may use none, and each may use those before it. -/
theorem sound_addLibraries {sources : List Source} (hs : s.Sound tree (.parsed repeats))
    (hr : ∀ l ∈ sources, repeats ∨ l.repeatFree = true)
    (h : addLibraries tree sources s = ([], s')) : s'.Sound tree (.parsed repeats) := by
  induction sources generalizing s with
  | nil => cases h; exact hs
  | cons source rest ih =>
    rcases hl : addLibrary tree source s with ⟨found, s₁⟩
    rcases hm : addLibraries tree rest s₁ with ⟨more, s₂⟩
    simp only [addLibraries, hl, hm, Prod.mk.injEq, List.append_eq_nil_iff] at h
    obtain ⟨⟨rfl, rfl⟩, rfl⟩ := h
    exact ih (sound_addLibrary hs (hr source (.head _)) hl) (fun l h => hr l (.tail _ h)) hm

variable {source : Source} {options : CompileOptions} {stmts : List TypedStmt}

/-- What an accepted formula has gone through: its libraries were added without errors, its text was
read, and its statements were checked from the state that the libraries left. -/
theorem check_ok (h : check source options = .ok stmts) : ∃ s p s',
    addLibraries options.tree options.libraries {} = ([], s) ∧
      Program.parse source.text = .ok p ∧ s.check options.tree p = (.ok stmts, s') := by
  unfold check at h
  split at h
  next s hlibs =>
    split at h
    next => cases h
    next p hp =>
      rcases hcheck : s.check options.tree p with ⟨_ | checked, s'⟩
      · rw [hcheck] at h
        cases h
      · rw [hcheck] at h
        cases h
        exact ⟨s, p, s', hlibs, hp, hcheck⟩
  next => cases h

/-- Statements that are accepted are well typed, and can be run, where the definitions that are then
known may be called. -/
theorem typed_of_accepted {p : Program} (hs : s.Sound tree (.parsed repeats))
    (hp : Stmt.AllWithin (.parsed repeats) p.items) (h : s.check tree p = (.ok stmts, s')) :
    let S : Setting := { Dialect.parsed repeats with
      tree, known := fun f => s'.functions.get? f.name = some f }
    S.Runnable ∧ ∃ Γ', BlockTyped S TypeEnv.empty stmts Γ' := by
  refine ⟨⟨fun x hx => hx, fun f g hf hg hn => ?_⟩,
    (hs.check hp h).2 _ fun n f hf hn => by rw [hn]; exact hf⟩
  have hf : s'.functions.get? f.name = some f := hf
  have hg : s'.functions.get? g.name = some g := hg
  rw [hn, hg] at hf
  exact (Option.some.inj hf).symm

/-- A formula that is accepted is well typed in a setting where it can be run. -/
theorem typed_of_check (h : check source options = .ok stmts)
    (hr : repeats ∨ source.repeatFree = true ∧ ∀ l ∈ options.libraries, l.repeatFree = true) :
    ∃ known Γ', Setting.Runnable { Dialect.parsed repeats with tree := options.tree, known } ∧
      BlockTyped { Dialect.parsed repeats with tree := options.tree, known } TypeEnv.empty stmts Γ' := by
  obtain ⟨s, p, s', hlibs, hp, hcheck⟩ := check_ok h
  have hs := sound_addLibraries (Checker.sound_new options.tree (.parsed repeats))
    (fun l hl => hr.imp_right fun h => h.2 l hl) hlibs
  obtain ⟨hS, Γ', htyped⟩ :=
    typed_of_accepted hs (Source.allWithin_parsed hp (hr.imp_right (·.1))) hcheck
  exact ⟨_, Γ', hS, htyped⟩

/-- What compilation does after a formula is accepted. -/
theorem compile_of_lower {ops : List Op} (h : check source options = .ok stmts)
    (hops : lower options.tree stmts = .ok ops) :
    compile source options = ((NodeGraph.ofOps options.tree options.treeName ops).mapError .running).map
      fun graph => ⟨ops, Layout.graph graph⟩ := by
  unfold compile
  rw [h]
  change ((lower options.tree stmts).mapError CompileError.lowering >>= _) = _
  rw [hops]
  rfl

theorem ok_of_mapError {ε ε' α : Type} {x : Except ε α} {f : ε → ε'} {a : α}
    (h : x.mapError f = .ok a) : x = .ok a := by
  cases x with
  | error e => cases h
  | ok b =>
    cases h
    rfl

theorem ok_of_toOption {ε α : Type} {x : Except ε α} {a : α} (h : x.toOption = some a) : x = .ok a := by
  cases x with
  | error e => cases h
  | ok b =>
    cases h
    rfl

/-- What compilation goes through. -/
theorem compile_ok {result : Compilation} (h : compile source options = .ok result) :
    ∃ stmts g,
    check source options = .ok stmts ∧ lower options.tree stmts = .ok result.ops ∧
      NodeGraph.ofOps options.tree options.treeName result.ops = .ok g ∧
      result.graph = Layout.graph g := by
  obtain ⟨stmts, hcheck, h⟩ := Machine.run_bind_ok.1 h
  obtain ⟨ops, hops, h⟩ := Machine.run_bind_ok.1 h
  obtain ⟨g, hg, h⟩ := Machine.run_bind_ok.1 h
  cases h
  exact ⟨stmts, g, ok_of_mapError hcheck, ok_of_mapError hops, ok_of_mapError hg, rfl⟩

/-- An accepted formula is lowered and run as the widths of its variables foretell. With widths
compilation succeeds, and without them it fails where a bundle meets a socket. -/
theorem compile_ends (h : check source options = .ok stmts)
    (hr : repeats ∨ source.repeatFree = true ∧ ∀ l ∈ options.libraries, l.repeatFree = true) :
    match TypedStmt.widthsAll Widths.empty stmts with
    | some _ => ∃ result, compile source options = .ok result ∧
        ∀ t ∈ result.graph.trees, t.LinksInRange
    | none => compile source options = .error (.running .bundleToSocket) := by
  obtain ⟨known, Γ', hS, htyped⟩ := typed_of_check h hr
  obtain ⟨ops, hops, hends⟩ := htyped.lower_ends hS rfl options.treeName
  have hcompile := compile_of_lower h hops
  cases hw : TypedStmt.widthsAll Widths.empty stmts with
  | none =>
    rw [hw] at hends
    simp only at hends
    rw [hcompile, hends]
    rfl
  | some w =>
    rw [hw] at hends
    obtain ⟨g, hg, hrange⟩ := hends
    refine ⟨⟨ops, Layout.graph g⟩, ?_, Layout.linksInRange_graph hrange⟩
    rw [hcompile, hg]
    rfl

/-- Whether a source is accepted and compiles, with a property of what it is checked and compiled
into. -/
def yields (source : Source) (options : CompileOptions)
    (P : List TypedStmt → Compilation → Bool) : Bool :=
  match check source options, compile source options with
  | .ok stmts, .ok result => P stmts result
  | _, _ => false

theorem exists_of_yields (source : Source) (options : CompileOptions)
    (P : List TypedStmt → Compilation → Bool) (h : yields source options P = true) : ∃ stmts result,
      check source options = .ok stmts ∧ compile source options = .ok result ∧
        P stmts result = true := by
  unfold yields at h
  split at h
  next stmts result hcheck hcompile => exact ⟨stmts, result, hcheck, hcompile, h⟩
  next => cases h

/-- What a formula that has been read is checked and compiled into, unless there are errors. -/
def ofRead (read : Except SourceError Program) (options : CompileOptions) :
    Option (List TypedStmt × Compilation) := do
  let libraries := addLibraries options.tree options.libraries {}
  guard libraries.1.isEmpty
  let p ← read.toOption
  let stmts ← (libraries.2.check options.tree p).1.toOption
  let ops ← (lower options.tree stmts).toOption
  let graph ← (NodeGraph.ofOps options.tree options.treeName ops).toOption
  return (stmts, ⟨ops, Layout.graph graph⟩)

/-- Checking and compiling a source follow from what its text is read as. A long text is read once
this way and not in each of the two. -/
theorem compile_of_ofRead {read : Except SourceError Program} {result : Compilation}
    (hread : Program.parse source.text = read) (h : ofRead read options = some (stmts, result)) :
    check source options = .ok stmts ∧ compile source options = .ok result := by
  obtain ⟨⟨⟩, hfound, h⟩ := Option.bind_eq_some_iff.1 h
  obtain ⟨p, hp, h⟩ := Option.bind_eq_some_iff.1 h
  obtain ⟨stmts', hstmts, h⟩ := Option.bind_eq_some_iff.1 h
  obtain ⟨ops, hops, h⟩ := Option.bind_eq_some_iff.1 h
  obtain ⟨g, hg, h⟩ := Option.bind_eq_some_iff.1 h
  cases h
  have hcheck : check source options = .ok stmts := by
    cases hl : addLibraries options.tree options.libraries {} with
    | mk found s =>
      rw [hl] at hfound hstmts
      cases found with
      | cons => cases hfound
      | nil =>
        unfold check
        rw [hl, hread, ok_of_toOption hp]
        exact congrArg (Except.mapError (typeDiagnostics source)) (ok_of_toOption hstmts)
  refine ⟨hcheck, ?_⟩
  rw [compile_of_lower hcheck (ok_of_toOption hops), ok_of_toOption hg]
  rfl

/-- The characters of a literal are at hand. So a formula that is read from them is evaluated without
taking its text apart, which the kernel is slow at. -/
theorem yields_of_chars {P : List TypedStmt → Compilation → Bool} {cs : List Char}
    (htext : source.text = String.ofList cs)
    (h : (ofRead ((Statement.program ⟨0, cs⟩).mapError Failure.toError) options).any
      (fun r => P r.1 r.2) = true) : yields source options P = true := by
  have hparse : Program.parse source.text =
      (Statement.program ⟨0, cs⟩).mapError Failure.toError := by
    rw [Program.parse, Cursor.ofString, htext, String.toList_ofList]
  obtain ⟨⟨stmts, result⟩, hread, hP⟩ := (Option.any_eq_true _ _).1 h
  obtain ⟨hcheck, hcompile⟩ := compile_of_ofRead hparse hread
  unfold yields
  rw [hcheck, hcompile]
  exact hP

/-! ### Formulas without zones -/

/-- A formula without repeat zones that is accepted, with libraries without them, compiles: no step of
lowering or running fails, and the links of every tree join nodes of that tree. -/
theorem compile_ok_of_check (hsource : source.repeatFree = true)
    (hlibraries : ∀ l ∈ options.libraries, l.repeatFree = true)
    (h : check source options = .ok stmts) :
    ∃ result, compile source options = .ok result ∧
      ∀ t ∈ result.graph.trees, t.LinksInRange := by
  have hr : False ∨ source.repeatFree = true ∧ ∀ l ∈ options.libraries, l.repeatFree = true :=
    .inr ⟨hsource, hlibraries⟩
  obtain ⟨known, Γ', -, htyped⟩ := typed_of_check h hr
  obtain ⟨w, hw⟩ := Option.isSome_iff_exists.1
    (htyped.isSome_widthsAll stmts (fun hrepeats => hrepeats) Widths.empty)
  have hends := compile_ends h hr
  rw [hw] at hends
  exact hends

/-- A library with a function and a node group. -/
def mixLibrary : Source where
  name := "mix"
  text := "fn half(a: vec3) -> b: vec3 \x7b b = a / 2; \x7d
    ng halves(a: vec3) -> b: vec3, c: float \x7b b = half(a); c = a.x; \x7d"

/-- A formula that unpacks a group's outputs and uses a loop. -/
def mixFormula : Source where
  name := "formula"
  text := "v = \x7b1, 2, 3\x7d; loop i = 0 -> 2 \x7b v, s = halves(v * i); v.x = s; \x7d _, y = v;"

/-- A formula that calls a definition of its library is accepted and compiles, and the links of its
graph join nodes that are there. -/
theorem compile_mixFormula : ∃ stmts result,
    check mixFormula { libraries := [mixLibrary] } = .ok stmts ∧
    compile mixFormula { libraries := [mixLibrary] } = .ok result ∧
    ∀ t ∈ result.graph.trees, t.LinksInRange := by
  have hcheck : (check mixFormula { libraries := [mixLibrary] }).toBool = true := by decide +kernel
  cases h : check mixFormula { libraries := [mixLibrary] } with
  | error e =>
    rw [h] at hcheck
    cases hcheck
  | ok stmts =>
    obtain ⟨result, hresult⟩ := compile_ok_of_check (by decide +kernel) (by decide +kernel) h
    exact ⟨stmts, result, rfl, hresult⟩

/-! ### Formulas with zones -/

/-- An accepted formula compiles exactly if the widths of its variables have a result. Otherwise a zone
ends with a bundle where it carries a single socket, which is the only way for compilation to fail. -/
theorem compile_of_check (h : check source options = .ok stmts) :
    ((TypedStmt.widthsAll Widths.empty stmts).isSome → ∃ result,
      compile source options = .ok result ∧ ∀ t ∈ result.graph.trees, t.LinksInRange) ∧
    (TypedStmt.widthsAll Widths.empty stmts = none →
      compile source options = .error (.running .bundleToSocket)) := by
  have hends := compile_ends h (.inl trivial)
  refine ⟨fun hsome => ?_, fun hnone => ?_⟩
  · obtain ⟨w, hw⟩ := Option.isSome_iff_exists.1 hsome
    rw [hw] at hends
    exact hends
  · rw [hnone] at hends
    exact hends

/-- A zone in a zone, both of which carry a variable. -/
def nestedZones : Source where
  name := "formula"
  text := "x = 0.0; repeat 3 \x7b y = x; repeat 2 \x7b y = y * 2; \x7d x = x + y; \x7d"

/-- A formula with a zone in the body of another one is accepted and compiles, and the links of its
graph join nodes that are there. -/
theorem compile_nestedZones : ∃ stmts result,
    check nestedZones { tree := .geometry } = .ok stmts ∧
    compile nestedZones { tree := .geometry } = .ok result ∧
    ∀ t ∈ result.graph.trees, t.LinksInRange := by
  have hcheck : (match check nestedZones { tree := .geometry } with
      | .ok stmts => (TypedStmt.widthsAll Widths.empty stmts).isSome
      | .error _ => false) = true := by decide +kernel
  split at hcheck
  next stmts h =>
    obtain ⟨result, hresult⟩ := (compile_of_check h).1 hcheck
    exact ⟨stmts, result, h, hresult⟩
  next => cases hcheck

/-- Two zones that bind one name, which no variable outside them has, first to a value and then to a
bundle. -/
def twoZones : Source where
  name := "formula"
  text := "repeat 2 \x7b t = 1.0; \x7d repeat 2 \x7b t = grid(); \x7d"

/-- An accepted formula that does not compile. The second zone carries the variable that the first
one left behind, and ends with a bundle in it. -/
theorem compile_twoZones : ∃ stmts, check twoZones { tree := .geometry } = .ok stmts ∧
    compile twoZones { tree := .geometry } = .error (.running .bundleToSocket) := by
  have hcheck : (check twoZones { tree := .geometry }).toBool = true := by decide +kernel
  have hcompile : (match compile twoZones { tree := .geometry } with
      | .error (.running .bundleToSocket) => true
      | _ => false) = true := by decide +kernel
  split at hcompile
  next hfail =>
    cases h : check twoZones { tree := .geometry } with
    | error e =>
      rw [h] at hcheck
      cases hcheck
    | ok stmts => exact ⟨stmts, rfl, hfail⟩
  next => cases hcompile

end Compilation

end NodeFormula

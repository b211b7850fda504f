import NodeFormula.Proofs.Checker.Twins

/-!
# A checker that keeps its own place

The steps of the checker are given the context in which they run. Here is a checker that keeps the
context in its state instead, as counters and stacks which each step moves: it notes the definition it
is in, pushes the scope in which a zone starts, and counts loops and zones. Where a step fails, they
stay as they are.

Both check alike, and the checker is back in its place after every block (`Walk.block_follows`), since a
block never fails. So between two sources it is in no definition and in no zone, whatever errors there
were (`Standing.run_eq`). Of the rest of its state only the definitions matter for the next formula
(`Checker.check_functions`).
-/

namespace NodeFormula

/-- Where a checker is. -/
structure Place where
  tree : TreeKind
  /-- The definition whose body is being checked. -/
  definition : Option Enclosing := none
  /-- The scopes in which the open zones started, outermost first. -/
  zones : List Scope := []
  /-- The number of open loops and zones. -/
  depth : Nat := 0

/-- The context at a place. -/
def Place.context (p : Place) : Context := ⟨p.tree, p.definition, p.zones, decide (0 < p.depth)⟩

/-- A checker with its place. -/
structure Standing where
  place : Place
  checker : Checker := {}

/-- A step of a checker that keeps its place. -/
abbrev Walk := EStateM TypeError Standing

/-- Leave a zone that started in the scope `outer`. -/
def Checker.leaveZone (outer : Scope) (s : Checker) : Checker :=
  { s with
    scope := outer
    zoneLocals := (s.scope.keys.filter fun n => !outer.contains n && !s.zoneLocals.contains n) ++
      s.zoneLocals }

/-- Fail unless a zone may start, and give its count. -/
def Check.zoneCount (ctx : Context) (count : Expr) : Check TypedExpr := do
  if !ctx.tree.supportsRepeat then fail (.noZones ctx.tree) count.span
  let value ← expr ctx count
  let type ← valueType value
  if !type.convertsTo .int then fail (.countType type) value.span
  return value.convertTo .int

namespace Walk

variable {α β : Type}

/-- A step that does not move. -/
def here (x : Context → Check α) : Walk α := fun s =>
  match x s.place.context s.checker with
  | .ok a c => .ok a { s with checker := c }
  | .error e c => .error e { s with checker := c }

/-- Move to another place. -/
def move (f : Place → Place) : Walk Unit := modify fun s => { s with place := f s.place }

/-- Check statements; if they fail, note the error and go on without them. -/
def recover (x : Walk (List TypedStmt)) : Walk (List TypedStmt) := fun s =>
  match x s with
  | .ok stmts s => .ok stmts s
  | .error e s => .ok [] { s with checker := { s.checker with errors := s.checker.errors ++ [e] } }

/-- A step one level deeper. -/
def nested (x : Walk α) : Walk α := do
  move fun p => { p with depth := p.depth + 1 }
  let a ← x
  move fun p => { p with depth := p.depth - 1 }
  return a

/-- Check a loop's body for each value of its counter, up to the first with an error. -/
def unroll (counter : Option String) (body : Walk (List TypedStmt)) :
    List Int64 → Walk (List TypedStmt)
  | [] => pure []
  | i :: rest => do
    match counter with
    | some n => here fun _ => Check.bind n (.counter i)
    | none => pure ()
    let before := (← get).checker.errors.length
    let stmts ← body
    if before < (← get).checker.errors.length then
      return stmts
    else
      let more ← unroll counter body rest
      return stmts ++ more

/-- Open a zone that starts in the scope at hand. -/
def openZone : Walk Unit :=
  modify fun s => { s with place := { s.place with zones := s.place.zones ++ [s.checker.scope] } }

/-- Close the innermost open zone. -/
def closeZone : Walk Unit := fun s =>
  match s.place.zones.getLast? with
  | some outer =>
    .ok () ⟨{ s.place with zones := s.place.zones.dropLast }, s.checker.leaveZone outer⟩
  | none => .ok () s

/-- Check a zone's body. -/
def inZone (body : Walk (List TypedStmt)) : Walk (List TypedStmt) := do
  openZone
  let stmts ← nested body
  closeZone
  return stmts

/-- Check a definition's body in a scope of its own. -/
def inDefinition (d : Enclosing) (inputs : List TypedParam) (body : Walk (List TypedStmt)) :
    Walk (List TypedStmt × List Nat) := do
  let outer := (← get).checker
  let scope : Scope := Table.ofList (inputs.map fun p => (p.name, .value p.type))
  here fun _ => set { outer with scope, assigned := [] }
  move fun p => { p with definition := some d }
  let stmts ← body
  move fun p => { p with definition := none }
  let assigned := (← get).checker.assigned
  here fun _ => modify fun s => { s with scope := outer.scope, assigned := outer.assigned }
  return (stmts, assigned)

/-- Check a definition and make it known. -/
def define (h : Header) (span : Span) (body : Walk (List TypedStmt)) : Walk Unit := do
  let p := (← get).place
  if p.definition.isSome || 0 < p.depth then throw ⟨.nestedDefinition, span⟩
  if (← get).checker.functions.contains h.name then throw ⟨.alreadyDefined h.name, span⟩
  let inputs ← here fun ctx => Check.parameters ctx h.inputs
  let outputs := h.outputs.map fun p => (⟨p.name, p.type, none⟩ : TypedParam)
  let (stmts, assigned) ← inDefinition ⟨h.name, outputs⟩ inputs body
  here fun _ => Check.reportUnassigned h.name span assigned 0 outputs
  here fun _ => modify fun s =>
    { s with functions := s.functions.insert h.name ⟨h.name, h.kind, inputs, outputs, stmts⟩ }

mutual

/-- Check a statement. -/
def stmt : Stmt → Walk (List TypedStmt)
  | .expr e s => here fun ctx => Check.stmt ctx (.expr e s)
  | .assign targets e s => here fun ctx => Check.stmt ctx (.assign targets e s)
  | .setField target field e s => here fun ctx => Check.stmt ctx (.setField target field e s)
  | .loop counter first last body s => do
    let values := last.toInt - first.toInt + 1
    if maxUnroll < values then throw ⟨.loopLength values, s⟩
    nested (unroll counter (block body) (Check.counterValues first last))
  | .zone count body _ => do
    let value ← here fun ctx => Check.zoneCount ctx count
    let stmts ← inZone (block body)
    return [.zone value stmts]
  | .define h body s => do
    define h s (block body)
    return []

/-- Check statements in order, going on after one that fails. -/
def block : List Stmt → Walk (List TypedStmt)
  | [] => pure []
  | s :: rest => do
    let first ← recover (stmt s)
    let others ← block rest
    return first ++ others

end

/-- Check the statements of a library, which are definitions. -/
def library : List Stmt → Walk Unit
  | [] => pure ()
  | s :: rest => do
    match s with
    | .define .. =>
      let _ ← recover (stmt s)
    | _ => here fun _ => Check.report ⟨.libraryStatement, s.span⟩
    library rest

/-! ### Steps that end where they start -/

/-- What a step gives, at a place. -/
def placed (p : Place) : EStateM.Result TypeError Checker α → EStateM.Result TypeError Standing α
  | .ok a c => .ok a ⟨p, c⟩
  | .error e c => .error e ⟨p, c⟩

/-- From a place, a step does what a step in the context of the place does, and ends there. -/
structure Follows (p : Place) (x : Walk α) (y : Check α) : Prop where
  eq : ∀ c, x ⟨p, c⟩ = placed p (y c)

/-- A step that never fails. -/
structure Total (y : Check α) : Prop where
  ok : ∀ c, ∃ a c', y c = .ok a c'

namespace Total

theorem pure (a : α) : Total (pure a : Check α) := ⟨fun c => ⟨a, c, rfl⟩⟩

/-- Reading the session never fails. -/
theorem get : Total (get : Check Checker) := ⟨fun c => ⟨c, c, rfl⟩⟩

theorem modify (f : Checker → Checker) : Total (modify f : Check PUnit) := ⟨fun c => ⟨_, f c, rfl⟩⟩

/-- Two steps in a row never fail if neither does. -/
theorem bind {x : Check α} {f : α → Check β} (hx : Total x) (hf : ∀ a, Total (f a)) :
    Total (x >>= f) := by
  refine ⟨fun c => ?_⟩
  obtain ⟨a, c₁, h₁⟩ := hx.ok c
  obtain ⟨b, c₂, h₂⟩ := (hf a).ok c₁
  refine ⟨b, c₂, ?_⟩
  change EStateM.bind x f c = _
  unfold EStateM.bind
  rw [h₁]
  exact h₂

/-- A choice between two steps that never fail. -/
theorem ite {P : Prop} [Decidable P] {x y : Check α} (hx : Total x) (hy : Total y) :
    Total (if P then x else y) := by
  split
  · exact hx
  · exact hy

theorem recover (x : Check (List TypedStmt)) : Total (Check.recover x) := by
  refine ⟨fun c => ?_⟩
  unfold Check.recover
  cases x c with
  | ok stmts c' => exact ⟨stmts, c', rfl⟩
  | error e c' => exact ⟨[], _, rfl⟩

end Total

/-- An unrolled loop never fails if its body does not: it stops early by returning. -/
theorem total_unroll (counter : Option String) {body : Check (List TypedStmt)} (hb : Total body)
    (values : List Int64) : Total (Check.unroll counter body values) := by
  induction values with
  | nil => exact .pure _
  | cons i values ih =>
    have rest : Total (do
        let before := (← get).errors.length
        let stmts ← body
        if before < (← get).errors.length then
          return stmts
        else
          let more ← Check.unroll counter body values
          return stmts ++ more) :=
      .bind .get fun _ => .bind hb fun _ => .bind .get fun _ =>
        .ite (.pure _) (.bind ih fun _ => .pure _)
    cases counter with
    | none => exact rest
    | some n => exact .bind (.modify _) fun _ => rest

theorem total_block (ctx : Context) (ss : List Stmt) : Total (Check.block ctx ss) := by
  induction ss with
  | nil => exact .pure _
  | cons st ss ih => exact .bind (.recover _) fun _ => .bind ih fun _ => .pure _

section
variable {p : Place}

namespace Follows

theorem pure (a : α) : Follows p (pure a) (pure a) := ⟨fun _ => rfl⟩

/-- A failure leaves the place as it is, in both checkers. -/
theorem fail (problem : Problem) (span : Span) :
    Follows p (throw ⟨problem, span⟩ : Walk α) (Check.fail problem span) := ⟨fun _ => rfl⟩

/-- A step that is given the context computed from the place follows the step that is given it as an
argument. -/
theorem here (x : Context → Check α) : Follows p (here x) (x p.context) := by
  refine ⟨fun c => ?_⟩
  unfold Walk.here
  cases x p.context c with
  | ok a c' => rfl
  | error e c' => rfl

/-- Two steps in a row follow two others if each follows its counterpart in the same place. -/
theorem bind {x : Walk α} {y : Check α} {f : α → Walk β} {g : α → Check β} (hx : Follows p x y)
    (hf : ∀ a, Follows p (f a) (g a)) : Follows p (x >>= f) (y >>= g) := by
  refine ⟨fun c => ?_⟩
  change EStateM.bind x f ⟨p, c⟩ = placed p (EStateM.bind y g c)
  unfold EStateM.bind
  rw [hx.eq]
  cases y c with
  | ok a c' => exact (hf a).eq c'
  | error e c' => rfl

theorem failed (problem : Problem) (span : Span) (f : α → Walk β) (g : α → Check β) :
    Follows p (throw ⟨problem, span⟩ >>= f) (Check.fail problem span >>= g) := ⟨fun _ => rfl⟩

/-- A choice is followed branch by branch, as the condition is the same. -/
theorem ite {P : Prop} [Decidable P] {x x' : Walk α} {y y' : Check α} (hx : Follows p x y)
    (hy : Follows p x' y') : Follows p (if P then x else x') (if P then y else y') := by
  split
  · exact hx
  · exact hy

/-- A step that looks at its place first. -/
theorem peek {f : Standing → Walk α} {y : Check α} (hf : ∀ c, Follows p (f ⟨p, c⟩) y) :
    Follows p (get >>= f) y := ⟨fun c => (hf c).eq c⟩

/-- A step that looks at the state first. -/
theorem look {f : Standing → Walk α} {g : Checker → Check α}
    (hf : ∀ c, Follows p (f ⟨p, c⟩) (g c)) : Follows p (get >>= f) (get >>= g) :=
  ⟨fun c => (hf c).eq c⟩

theorem recover {x : Walk (List TypedStmt)} {y : Check (List TypedStmt)} (hx : Follows p x y) :
    Follows p (recover x) (Check.recover y) := by
  refine ⟨fun c => ?_⟩
  unfold Walk.recover Check.recover
  rw [hx.eq]
  cases y c with
  | ok a c' => rfl
  | error e c' => rfl

end Follows

theorem nested_follows {x : Walk α} {y : Check α}
    (hx : Follows { p with depth := p.depth + 1 } x y) (hy : Total y) : Follows p (nested x) y := by
  refine ⟨fun c => ?_⟩
  obtain ⟨a, c', hc⟩ := hy.ok c
  change EStateM.bind x _ ⟨{ p with depth := p.depth + 1 }, c⟩ = _
  unfold EStateM.bind
  rw [hx.eq, hc]
  rfl

/-- An unrolled loop is followed round by round, in the place of the loop. The induction is on the
values of the counter, which both checkers bind before each round. -/
theorem unroll_follows {counter : Option String} {x : Walk (List TypedStmt)}
    {y : Check (List TypedStmt)} (hx : Follows p x y) (values : List Int64) :
    Follows p (unroll counter x values) (Check.unroll counter y values) := by
  induction values with
  | nil => exact .pure _
  | cons i values ih =>
    have rest : Follows p (do
        let before := (← get).checker.errors.length
        let stmts ← x
        if before < (← get).checker.errors.length then
          return stmts
        else
          let more ← unroll counter x values
          return stmts ++ more) (do
        let before := (← get).errors.length
        let stmts ← y
        if before < (← get).errors.length then
          return stmts
        else
          let more ← Check.unroll counter y values
          return stmts ++ more) :=
      .look fun _ => .bind hx fun _ => .look fun _ => .ite (.pure _) (.bind ih fun _ => .pure _)
    cases counter with
    | none => exact rest
    | some n => exact .bind (.here fun _ => Check.bind n (.counter i)) fun _ => rest

theorem closeZone_eq (outer : Scope) (c : Checker) :
    closeZone ⟨{ p with zones := p.zones ++ [outer] }, c⟩ = .ok () ⟨p, c.leaveZone outer⟩ := by
  unfold closeZone
  simp only [List.getLast?_concat, List.dropLast_concat]

/-- A zone is followed: the scope that is pushed is the one that the other checker passes to the body
in its context. -/
theorem inZone_follows {x : Walk (List TypedStmt)} {y : Context → Check (List TypedStmt)}
    (hx : ∀ scope, Follows { p with zones := p.zones ++ [scope], depth := p.depth + 1 } x
      (y (p.context.inZone scope)))
    (hy : ∀ ctx, Total (y ctx)) : Follows p (inZone x) (Check.inZone p.context y) := by
  refine ⟨fun c => ?_⟩
  let inner : Place := { p with zones := p.zones ++ [c.scope] }
  have hbody : Follows inner (nested x) (y (p.context.inZone c.scope)) :=
    nested_follows (hx c.scope) (hy _)
  obtain ⟨stmts, c', hc⟩ := (hy (p.context.inZone c.scope)).ok c
  have hleft : inZone x ⟨p, c⟩ = .ok stmts ⟨p, c'.leaveZone c.scope⟩ := by
    change EStateM.bind (nested x) _ ⟨inner, c⟩ = _
    unfold EStateM.bind
    rw [hbody.eq, hc]
    change EStateM.bind closeZone _ ⟨inner, c'⟩ = _
    unfold EStateM.bind
    rw [closeZone_eq]
    rfl
  have hright : Check.inZone p.context y c = .ok stmts (c'.leaveZone c.scope) := by
    change EStateM.bind (y (p.context.inZone c.scope)) _ c = _
    unfold EStateM.bind
    rw [hc]
    rfl
  rw [hleft, hright]
  rfl

/-- The body of a definition is followed. The definition is noted for the body and taken back behind
it, which loses nothing, since there was none before. -/
theorem inDefinition_follows {d : Enclosing} {inputs : List TypedParam} {x : Walk (List TypedStmt)}
    {y : Context → Check (List TypedStmt)} (hp : p.definition = none)
    (hx : Follows { p with definition := some d } x (y (p.context.inDefinition d)))
    (hy : ∀ ctx, Total (y ctx)) :
    Follows p (inDefinition d inputs x) (Check.inDefinition p.context d inputs y) := by
  refine ⟨fun c => ?_⟩
  let start : Checker :=
    { c with scope := Table.ofList (inputs.map fun p => (p.name, .value p.type)), assigned := [] }
  obtain ⟨stmts, c', hc⟩ := (hy (p.context.inDefinition d)).ok start
  have hplace : { p with definition := none } = p := by
    obtain ⟨tree, definition, zones, depth⟩ := p
    cases hp
    rfl
  have hleft : inDefinition d inputs x ⟨p, c⟩ = .ok (stmts, c'.assigned)
      ⟨{ p with definition := none }, { c' with scope := c.scope, assigned := c.assigned }⟩ := by
    change EStateM.bind x _ ⟨{ p with definition := some d }, start⟩ = _
    unfold EStateM.bind
    rw [hx.eq, hc]
    rfl
  have hright : Check.inDefinition p.context d inputs y c =
      .ok (stmts, c'.assigned) { c' with scope := c.scope, assigned := c.assigned } := by
    change EStateM.bind (y (p.context.inDefinition d)) _ start = _
    unfold EStateM.bind
    rw [hc]
    rfl
  rw [hleft, hright, hplace]
  rfl

/-- A definition is followed. It is refused alike below the top level, and so its body is checked
with no other definition around. -/
theorem define_follows {h : Header} {span : Span} {x : Walk (List TypedStmt)}
    {y : Context → Check (List TypedStmt)}
    (hx : ∀ d, Follows { p with definition := some d } x (y (p.context.inDefinition d)))
    (hy : ∀ ctx, Total (y ctx)) : Follows p (define h span x) (Check.define p.context h span y) := by
  refine .peek fun _ => ?_
  have htop : (p.definition.isSome || decide (0 < p.depth)) = !p.context.topLevel := by
    simp [Place.context, Context.topLevel]
  unfold Check.define
  simp only [htop]
  cases hc : p.context.topLevel with
  | false => exact .failed _ _ _ _
  | true =>
    have hp : p.definition = none := by
      rw [hc] at htop
      simpa using (Bool.or_eq_false_iff.1 htop).1
    refine .look fun c => .ite (.failed _ _ _ _) ?_
    exact .bind (.here fun ctx => Check.parameters ctx h.inputs) fun inputs =>
      .bind (inDefinition_follows hp (hx _) hy) fun checked =>
        .bind (.here fun _ => Check.reportUnassigned _ _ _ _ _) fun _ => .here fun _ => modify _

/-! ### Statements -/

/-- A zone is checked after its count: the count is made a value first, in the scope around the zone,
and then the body is checked in a zone of its own. -/
theorem stmt_zone_eq (ctx : Context) (count : Expr) (body : List Stmt) (span : Span) :
    Check.stmt ctx (.zone count body span) = (do
      let value ← Check.zoneCount ctx count
      let stmts ← Check.inZone ctx fun inner => Check.block inner body
      return [.zone value stmts]) := by
  rw [Check.stmt, Check.zoneCount]
  cases ctx.tree.supportsRepeat with
  | false => rfl
  | true =>
    simp only [Bool.not_true, Bool.false_eq_true, if_false, bind_assoc]
    refine congrArg _ (funext fun value => congrArg _ (funext fun type => ?_))
    split
    · rfl
    · rfl

mutual

/-- Every statement is followed in every place, by induction on the statement. -/
theorem stmt_follows : (st : Stmt) → ∀ p : Place, Follows p (stmt st) (Check.stmt p.context st)
  | .expr e s, _ => .here fun ctx => Check.stmt ctx (.expr e s)
  | .assign targets e s, _ => .here fun ctx => Check.stmt ctx (.assign targets e s)
  | .setField target field e s, _ => .here fun ctx => Check.stmt ctx (.setField target field e s)
  | .loop counter first last body s, p =>
    .ite (.failed _ _ _ _) (nested_follows
      (unroll_follows (block_follows body { p with depth := p.depth + 1 }) _) (total_unroll _ (total_block _ _) _))
  | .zone count body s, p => by
    rw [stmt_zone_eq]
    exact .bind (.here fun ctx => Check.zoneCount ctx count) fun value =>
      .bind (inZone_follows (fun scope => block_follows body _) fun ctx => total_block ctx body)
        fun _ => .pure _
  | .define h body s, p =>
    .bind (define_follows (fun d => block_follows body { p with definition := some d })
      fun ctx => total_block ctx body) fun _ => .pure _

/-- A block does what the checker does in the context of the place, and ends in the place. -/
theorem block_follows : (ss : List Stmt) → ∀ p : Place, Follows p (block ss) (Check.block p.context ss)
  | [], _ => .pure _
  | st :: ss, p =>
    .bind (.recover (stmt_follows st p)) fun _ => .bind (block_follows ss p) fun _ => .pure _

end

theorem library_follows (ss : List Stmt) :
    Follows p (library ss) (Check.library p.context ss) := by
  induction ss with
  | nil => exact .pure _
  | cons st ss ih =>
    cases st with
    | define h body s => exact .bind (.recover (stmt_follows _ p)) fun _ => ih
    | _ => exact .bind (.here fun _ => Check.report _) fun _ => ih

end

end Walk

/-! ### Sessions -/

/-- A source that is given to a checker. -/
inductive Call where
  | library (p : Program)
  | formula (p : Program)

/-- The definitions that are known after a call. -/
def Checker.call (tree : TreeKind) (s : Checker) : Call → Checker
  | .library p => (s.addLibrary tree p).2
  | .formula p => (s.check tree p).2

namespace Standing

/-- A checker that has seen no source. -/
def new (tree : TreeKind) : Standing := { place := { tree } }

/-- Run a step that notes its errors, and give the errors or its value. -/
def finish {α : Type} (x : Walk α) (s : Standing) : Except (List TypeError) α × Standing :=
  match x s with
  | .ok a s =>
    (if s.checker.errors.isEmpty then .ok a else .error s.checker.errors,
      { s with checker := { s.checker with errors := [] } })
  | .error e s =>
    (.error (s.checker.errors ++ [e]), { s with checker := { s.checker with errors := [] } })

/-- Make the definitions of a library known. -/
def addLibrary (p : Program) (s : Standing) : Except (List TypeError) Unit × Standing :=
  finish (Walk.library p.items) s

/-- Check a formula. -/
def check (p : Program) (s : Standing) : Except (List TypeError) (List TypedStmt) × Standing :=
  finish (Walk.block p.items) { s with checker := { s.checker with scope := ∅, zoneLocals := [] } }

/-- Give a source to a checker. -/
def call (s : Standing) : Call → Standing
  | .library p => (s.addLibrary p).2
  | .formula p => (s.check p).2

/-- Give sources to a checker, one after the other. -/
def run (s : Standing) (calls : List Call) : Standing := calls.foldl call s

/-- A checker between two sources: in no definition, no zone and no loop, with no errors left. -/
structure Idle (s : Standing) : Prop where
  definition : s.place.definition = none
  zones : s.place.zones = []
  depth : s.place.depth = 0
  errors : s.checker.errors = []

theorem finish_follows {α : Type} {p : Place} {x : Walk α} {y : Check α} (h : Walk.Follows p x y)
    (c : Checker) : finish x ⟨p, c⟩ = ((Checker.finish y c).1, ⟨p, (Checker.finish y c).2⟩) := by
  unfold finish Checker.finish
  rw [h.eq]
  cases y c with
  | ok a c' => rfl
  | error e c' => rfl

theorem addLibrary_eq (tree : TreeKind) (p : Program) (c : Checker) :
    addLibrary p ⟨{ tree }, c⟩ = ((c.addLibrary tree p).1, ⟨{ tree }, (c.addLibrary tree p).2⟩) :=
  finish_follows (Walk.library_follows p.items) c

theorem check_eq (tree : TreeKind) (p : Program) (c : Checker) :
    check p ⟨{ tree }, c⟩ = ((c.check tree p).1, ⟨{ tree }, (c.check tree p).2⟩) :=
  finish_follows (Walk.block_follows p.items { tree }) { c with scope := ∅, zoneLocals := [] }

theorem call_eq (tree : TreeKind) (c : Checker) (source : Call) :
    call ⟨{ tree }, c⟩ source = ⟨{ tree }, c.call tree source⟩ := by
  cases source with
  | library p => exact congrArg Prod.snd (addLibrary_eq tree p c)
  | formula p => exact congrArg Prod.snd (check_eq tree p c)

/-- Sources leave a checker in the place where they found it. -/
theorem run_eq (tree : TreeKind) (calls : List Call) (c : Checker) :
    run ⟨{ tree }, c⟩ calls = ⟨{ tree }, calls.foldl (Checker.call tree) c⟩ := by
  induction calls generalizing c with
  | nil => rfl
  | cons source calls ih =>
    change run (call ⟨{ tree }, c⟩ source) calls = _
    rw [call_eq]
    exact ih (c.call tree source)

end Standing

namespace Checker

variable {tree : TreeKind}

theorem call_errors (s : Checker) (source : Call) : (s.call tree source).errors = [] := by
  cases source with
  | library p => exact errors_finish _ _
  | formula p => exact errors_finish _ _

/-- A source takes back no definition: what was known before it is known after it, with errors or
without. -/
theorem finish_functions {α : Type} {top : Bool} {x : Check α} (hx : Check.Monotone top x) (s : Checker)
    {n : String} {f : TypedFunction} (hf : s.functions.get? n = some f) :
    (finish x s).2.functions.get? n = some f := by
  have hkept := (hx.grows_after s).functions n f hf
  unfold Check.after at hkept
  unfold finish
  cases h : x s with
  | ok a s' =>
    rw [h] at hkept
    exact hkept
  | error e s' =>
    rw [h] at hkept
    exact hkept

/-- A source takes no definition back. -/
theorem call_functions (s : Checker) (source : Call) {n : String} {f : TypedFunction}
    (hf : s.functions.get? n = some f) : (s.call tree source).functions.get? n = some f := by
  cases source with
  | library p => exact finish_functions (Check.library_monotone p.items { tree }) s hf
  | formula p => exact finish_functions (Check.block_monotone p.items { tree }) _ hf

theorem calls_functions (calls : List Call) {s : Checker} {n : String} {f : TypedFunction}
    (hf : s.functions.get? n = some f) :
    (calls.foldl (call tree) s).functions.get? n = some f := by
  induction calls generalizing s with
  | nil => exact hf
  | cons source calls ih => exact ih (call_functions s source hf)

theorem calls_errors (calls : List Call) {s : Checker} (hs : s.errors = []) :
    (calls.foldl (call tree) s).errors = [] := by
  induction calls generalizing s with
  | nil => exact hs
  | cons source calls ih => exact ih (call_errors s source)

/-- Of a state without errors only the definitions matter for a formula. -/
theorem check_functions {s : Checker} (hs : s.errors = []) (p : Program) :
    (s.check tree p).1 = (Checker.check tree p { functions := s.functions }).1 :=
  finish_twins (Check.block_steady { tree } p.items (Stmt.allKeepTo_full p.items))
    ⟨rfl, hs, fun _ _ => rfl, fun _ _ => rfl, fun he => absurd he Bool.false_ne_true⟩

end Checker

/-- After any sources, with or without errors, a checker is idle and in the state that the sources give
when they are checked one by one in the empty context. Further sources take back none of its definitions
and change none, and a formula is checked as by a new checker with the same definitions. -/
theorem Standing.run_session (tree : TreeKind) (calls : List Call) :
    ((new tree).run calls).Idle ∧
    ((new tree).run calls).checker = calls.foldl (Checker.call tree) {} ∧
    (∀ later n f, ((new tree).run calls).checker.functions.get? n = some f →
      ((new tree).run (calls ++ later)).checker.functions.get? n = some f) ∧
    ∀ p, (((new tree).run calls).check p).1 = (((new tree).run calls).checker.check tree p).1 ∧
      (((new tree).run calls).check p).1 =
        (Standing.check p
          ⟨{ tree }, { functions := ((new tree).run calls).checker.functions }⟩).1 := by
  have hrun := run_eq tree calls {}
  have herrors : (calls.foldl (Checker.call tree) {}).errors = [] := Checker.calls_errors calls rfl
  refine ⟨?_, ?_, fun later n f hf => ?_, fun p => ?_⟩
  · exact ⟨by rw [new, hrun], by rw [new, hrun], by rw [new, hrun], by rw [new, hrun]; exact herrors⟩
  · rw [new, hrun]
  · rw [new, hrun] at hf
    rw [new, run_eq, List.foldl_append]
    exact Checker.calls_functions later hf
  · rw [new, hrun, check_eq, check_eq]
    exact ⟨rfl, Checker.check_functions herrors p⟩

end NodeFormula

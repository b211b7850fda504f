import NodeFormula.Typed.Statement

/-!
# What checking leaves in place

Checking notes errors and makes definitions known; it takes back neither. This holds of every step,
whether it succeeds or fails (`stmt_monotone`, `block_monotone`, `library_monotone`), and below the top
level, where no definition may stand, the definitions do not change at all. Nor do they at the top level
in a statement that is no definition (`stmt_adds`).
-/

namespace NodeFormula

/-- The name that a statement defines. -/
def Stmt.definedName? : Stmt → Option String
  | .define h _ _ => some h.name
  | _ => none

namespace Checker

/-- The errors and definitions of `s` are still there in `s'`. Where no definition may stand, there
are no others. -/
structure Grows (top : Bool) (s s' : Checker) : Prop where
  errors : s.errors <+: s'.errors
  functions : ∀ n f, s.functions.get? n = some f → s'.functions.get? n = some f
  fixed : top = false → s'.functions = s.functions

namespace Grows

variable {top : Bool} {s s₁ s' : Checker}

/-- A step that touches neither the errors nor the definitions grows the session trivially. Most
steps of the checker only change the scope and the assigned outputs. -/
theorem of_eq (he : s'.errors = s.errors) (hf : s'.functions = s.functions) : Grows top s s' :=
  ⟨he.symm ▸ List.prefix_rfl, fun n f h => by rw [hf]; exact h, fun _ => hf⟩

/-- A session grows into itself, which is what a step that only reads it needs. -/
theorem refl (s : Checker) : Grows top s s := of_eq rfl rfl

/-- Growth composes: errors are appended, definitions are added, and below the top level the
definitions stay the same on both stretches. -/
theorem trans (h₁ : Grows top s s₁) (h₂ : Grows top s₁ s') : Grows top s s' where
  errors := h₁.errors.trans h₂.errors
  functions n f h := h₂.functions n f (h₁.functions n f h)
  fixed ht := (h₂.fixed ht).trans (h₁.fixed ht)

/-- What holds below the top level holds at the top level. -/
theorem weaken (h : Grows false s s') : Grows top s s' := ⟨h.errors, h.functions, fun _ => h.fixed rfl⟩

/-- A session without errors was without errors all along. This is how a clean result says something
about every step on the way to it. -/
theorem errors_eq_nil (h : Grows top s s') (he : s'.errors = []) : s.errors = [] := by
  have := h.errors
  rw [he] at this
  exact List.prefix_nil.1 this

end Grows

end Checker

namespace Check

open Checker (Grows)

/-- The state after a step, whether or not it succeeds. -/
def after {α : Type} (x : Check α) (s : Checker) : Checker :=
  match x s with
  | .ok _ s' => s'
  | .error _ s' => s'

/-- A step takes back no error and no definition. -/
structure Monotone {α : Type} (top : Bool) (x : Check α) : Prop where
  grows_after : ∀ s, Grows top s (after x s)

section
variable {α β : Type} {top : Bool}

/-- After a step that succeeds, the state is the one that it returns. -/
theorem after_ok {x : Check α} {s s' : Checker} {a : α} (h : x s = .ok a s') : after x s = s' := by
  rw [after, h]

/-- What a monotone step does to the session when it succeeds, in the form in which a caller has the
run at hand. -/
theorem Monotone.grows {x : Check α} {s s' : Checker} {a : α} (hx : Monotone top x)
    (h : x s = .ok a s') : Grows top s s' := after_ok h ▸ hx.grows_after s

namespace Monotone

/-- A step that only gives a value leaves the session alone. -/
theorem pure (a : α) : Monotone top (pure a : Check α) := ⟨fun s => Grows.refl s⟩

/-- Reading the session changes nothing in it. -/
theorem get : Monotone top (get : Check Checker) := ⟨fun s => Grows.refl s⟩

/-- Failing leaves the session as it is: the error is raised, and only `recover` notes it. -/
theorem fail (problem : Problem) (span : Span) : Monotone top (fail problem span : Check α) :=
  ⟨fun s => Grows.refl s⟩

/-- Asking for a value that must be there either gives it or fails, and neither touches the
session. -/
theorem require (o : Option α) (problem : Problem) (span : Span) :
    Monotone top (require o problem span) := by
  cases o with
  | none => exact fail problem span
  | some a => exact pure a

/-- A change of the session is monotone if it keeps the errors and the definitions, as a new scope
does. -/
theorem modify {f : Checker → Checker} (he : ∀ s, (f s).errors = s.errors)
    (hf : ∀ s, (f s).functions = s.functions) : Monotone top (modify f : Check PUnit) :=
  ⟨fun s => Grows.of_eq (he s) (hf s)⟩

/-- Two monotone steps in a row. If the first one fails, what it did before it failed is all that
happens. -/
theorem bind {x : Check α} {f : α → Check β} (hx : Monotone top x) (hf : ∀ a, Monotone top (f a)) :
    Monotone top (x >>= f) := by
  constructor
  intro s
  have h := hx.grows_after s
  change Grows top s (after (EStateM.bind x f) s)
  unfold after EStateM.bind
  unfold after at h
  cases hxs : x s with
  | ok a s₁ =>
    rw [hxs] at h
    exact h.trans ((hf a).grows_after s₁)
  | error e s₁ =>
    rw [hxs] at h
    exact h

/-- A choice between two monotone steps, whatever decides it. -/
theorem ite {c : Prop} [Decidable c] {x y : Check α} (hx : Monotone top x) (hy : Monotone top y) :
    Monotone top (if c then x else y) := by
  split
  · exact hx
  · exact hy

/-- A statement that fails has its error noted and the rest goes on, so that the errors get longer
and nothing else changes. -/
theorem recover {x : Check (List TypedStmt)} (hx : Monotone top x) :
    Monotone top (recover x) := by
  constructor
  intro s
  have h := hx.grows_after s
  unfold after at h ⊢
  unfold Check.recover
  cases hxs : x s with
  | ok a s₁ =>
    rw [hxs] at h
    exact h
  | error e s₁ =>
    rw [hxs] at h
    exact ⟨h.errors.trans (List.prefix_append _ _), h.functions, h.fixed⟩

/-- Noting an error appends it, the one way in which errors come to be. -/
theorem report (e : TypeError) : Monotone top (report e) :=
  ⟨fun _ => ⟨List.prefix_append _ _, fun _ _ h => h, fun _ => rfl⟩⟩

end Monotone

/-! ### Expressions -/

variable {ctx : Context}

/-- Asking for the type of a value looks at the expression only. -/
theorem valueType_monotone (e : TypedExpr) : Monotone top (valueType e) := .require _ _ _

/-- Asking for the types of several values asks for one after the other. -/
theorem valueTypes_monotone (es : List TypedExpr) : Monotone top (valueTypes es) := by
  induction es with
  | nil => exact .pure _
  | cons e es ih => exact .bind (valueType_monotone e) fun _ => .bind ih fun _ => .pure _

/-- Choosing the overload of an operator looks at the types of the operands and at the catalogue of
the tree, not at the session. -/
theorem operator_monotone (builtin symbol : String) (args : List TypedExpr) (span : Span) :
    Monotone top (operator ctx builtin symbol args span) :=
  .bind (valueTypes_monotone args) fun _ => .bind (.require _ _ _) fun _ => .pure _

/-- An operator in front of a constant is folded where it can be, and otherwise an overload is
chosen. Neither changes the session. -/
theorem unary_monotone (op : UnaryOp) (e : TypedExpr) (span : Span) :
    Monotone top (unary ctx op e span) := by
  unfold unary
  cases e.constant?.bind (Constant.foldUnary op) with
  | some v => exact .pure _
  | none =>
    cases op with
    | neg => exact operator_monotone ..
    | not => exact operator_monotone ..

/-- An operator between constants is folded where it can be, and otherwise an overload is chosen,
without a change of the session. -/
theorem binary_monotone (op : BinaryOp) (l r : TypedExpr) (span : Span) :
    Monotone top (binary ctx op l r span) := by
  unfold binary
  simp only
  split
  · exact .pure _
  · exact operator_monotone ..

/-- Comparing arguments with parameters reads the types of both and fails at the first that does not
convert. -/
theorem checkArgs_monotone (function : String) (args : List TypedExpr) (params : List TypedParam) :
    Monotone top (checkArgs function args params) := by
  induction args generalizing params with
  | nil => exact .pure _
  | cons a args ih =>
    cases params with
    | nil => exact .pure _
    | cons p params =>
      exact .bind (valueType_monotone a) fun _ =>
        .ite (.bind (.fail _ _) fun _ => ih params) (ih params)

/-- Calling a definition checks the number and the types of the arguments. The definition itself was
checked when it was made known. -/
theorem functionCall_monotone (f : TypedFunction) (args : List TypedExpr) (span : Span) :
    Monotone top (functionCall f args span) := by
  refine .ite (.bind (.fail _ _) fun _ => ?_) ?_ <;>
  · split
    · exact .fail _ _
    · exact .bind (checkArgs_monotone ..) fun _ => .pure _

/-- A call looks for a definition first and for a builtin after it, and leaves the session as it
found it. -/
theorem call_monotone (name : String) (args : List TypedExpr) (span : Span) :
    Monotone top (call ctx name args span) := by
  refine .bind .get fun s => ?_
  cases s.functions.get? name with
  | some f => exact functionCall_monotone f args span
  | none =>
    refine .ite (.bind (.fail _ _) fun _ => ?_) ?_ <;>
    exact .bind (valueTypes_monotone args) fun _ => .bind (.require _ _ _) fun _ => .pure _

/-- Binding a variable changes the scope, which growth does not speak of. -/
theorem bind_monotone (n : String) (b : Binding) : Monotone top (Check.bind n b) :=
  .modify (fun _ => rfl) fun _ => rfl

/-- Reading a variable looks it up in the scope. A name that is free becomes an input of type float,
and that changes the scope only. -/
theorem name_monotone (n : String) (span : Span) : Monotone top (name ctx n span) := by
  refine .bind .get fun s => ?_
  cases s.scope.get? n with
  | some b =>
    cases hv : b.constant with
    | some v => simp only [hv]; exact .pure _
    | none => simp only [hv]; exact .pure _
  | none => exact .ite (.fail _ _) (.bind (bind_monotone ..) fun _ => .pure _)

/-- The components of a vector are checked one by one for a type that converts to float. -/
theorem checkComponents_monotone (items : List TypedExpr) : Monotone top (checkComponents items) := by
  induction items with
  | nil => exact .pure _
  | cons e items ih =>
    exact .bind (valueType_monotone e) fun _ => .ite (.bind (.fail _ _) fun _ => ih) ih

/-- A vector of constants is folded and any other is built by a node. Both only read the types of the
components. -/
theorem vector_monotone (type : SocketType) (items : List TypedExpr) (span : Span) :
    Monotone top (vector ctx type items span) := by
  unfold vector
  cases constantVector? items with
  | some v => exact .pure _
  | none =>
    exact .bind (checkComponents_monotone items) fun _ => .bind (.require _ _ _) fun _ =>
      .ite (.bind (.fail _ _) fun _ => .pure _) (.pure _)

/-- Taking a member looks at the outputs of a bundle or the components of a vector. -/
theorem member_monotone (e : TypedExpr) (n : String) (span : Span) :
    Monotone top (member ctx e n span) := by
  unfold member
  cases e.shape with
  | bundle => exact .bind (.require _ _ _) fun _ => .bind (.require _ _ _) fun _ => .pure _
  | single =>
    refine .bind (valueType_monotone e) fun _ => .bind (.require _ _ _) fun part => ?_
    cases e.constant?.bind part.fold? with
    | some v => exact .pure _
    | none => exact .pure _

mutual

/-- Checking an expression grows the session, by induction on the expression: every form checks its
parts and then takes one of the steps above. -/
theorem expr_monotone : (e : Expr) → Monotone top (expr ctx e)
  | .int .. => .pure _
  | .float .. => .pure _
  | .bool .. => .pure _
  | .str .. => .pure _
  | .name n s => name_monotone n s
  | .vector items s =>
    .bind (.require _ _ _) fun _ => .bind (exprs_monotone items) fun _ => vector_monotone _ _ s
  | .unary op e s => .bind (expr_monotone e) fun _ => unary_monotone op _ s
  | .binary op l r s =>
    .bind (expr_monotone l) fun _ => .bind (expr_monotone r) fun _ => binary_monotone op _ _ s
  | .call f args s => .bind (exprs_monotone args) fun _ => call_monotone f _ s
  | .member e n s => .bind (expr_monotone e) fun _ => member_monotone _ n s

/-- Checking the items of a list grows the session item by item. -/
theorem exprs_monotone : (es : List Expr) → Monotone top (exprs ctx es)
  | [] => .pure _
  | e :: es => .bind (expr_monotone e) fun _ => .bind (exprs_monotone es) fun _ => .pure _

end

/-! ### Statements -/

/-- Whatever is monotone below the top level is so at the top level too, since the top level allows
more. -/
theorem Monotone.of_and {b : Bool} {x : Check α} (h : Monotone (b && top) x) : Monotone top x :=
  ⟨fun s => ⟨(h.grows_after s).errors, (h.grows_after s).functions, fun ht =>
    (h.grows_after s).fixed (by rw [ht, Bool.and_false])⟩⟩

/-- A step that starts by changing the state, where the change keeps errors and definitions. -/
theorem Monotone.getSet {g : Checker → Checker} {x : Checker → Check α}
    (he : ∀ s, (g s).errors = s.errors) (hf : ∀ s, (g s).functions = s.functions)
    (hx : ∀ s, Monotone top (x s)) :
    Monotone top (MonadState.get >>= fun s => set (g s) >>= fun (_ : PUnit) => x s) :=
  ⟨fun s => (Grows.of_eq (he s) (hf s)).trans ((hx s).grows_after (g s))⟩

/-- Assigning to a target marks an output as assigned or binds a variable. Both leave the errors and
the definitions alone, and so do the ways in which it can fail. -/
theorem assignTarget_monotone (target : Target) (b : Binding) :
    Monotone top (assignTarget ctx target b) := by
  cases target with
  | ignore => exact .pure _
  | name n span =>
    unfold assignTarget
    simp only
    cases ctx.output? n with
    | some o =>
      refine .ite (.bind (.fail _ _) fun _ => ?_) ?_ <;>
      exact .bind (.require _ _ _) fun _ =>
        .ite (.bind (.fail _ _) fun _ => .bind (.modify (fun _ => rfl) fun _ => rfl) fun _ => .pure _)
          (.bind (.modify (fun _ => rfl) fun _ => rfl) fun _ => .pure _)
    | none =>
      cases zoneProblem? ctx n b with
      | some problem => exact .fail _ _
      | none => exact .bind (bind_monotone ..) fun _ => .pure _

/-- Whether a constant can be held by a node is a question about the tree. -/
theorem checkConstant_monotone (target : TypedTarget) (e : TypedExpr) :
    Monotone top (checkConstant ctx target e) := by
  unfold checkConstant
  split
  · exact .pure _
  · exact .pure _
  · exact .ite (.pure _) (.fail _ _)

/-- Assigning a value to one target assigns the target and then looks at the constant, if it is
one. -/
theorem assignOne_monotone (target : Target) (e : TypedExpr) :
    Monotone top (assignOne ctx target e) :=
  .bind (assignTarget_monotone ..) fun _ => .bind (checkConstant_monotone ..) fun _ => .pure _

/-- The components of a constant are assigned target by target, so the growth of one assignment is
that of all. -/
theorem assignComponents_monotone (type : SocketType) (v : Constant) (span : Span) (index : Nat)
    (targets : List Target) : Monotone top (assignComponents ctx type v span index targets) := by
  induction targets generalizing index with
  | nil => exact .pure _
  | cons target targets ih =>
    exact .bind (.require _ _ _) fun _ => .bind (assignTarget_monotone ..) fun _ =>
      .bind (checkConstant_monotone ..) fun _ => .bind (ih _) fun _ => .pure _

/-- Parts of a value are bound target by target. Targets beyond the parts are not reached. -/
theorem assignParts_monotone (targets : List Target) (types : List SocketType) :
    Monotone top (assignParts ctx targets types) := by
  induction targets generalizing types with
  | nil => exact .pure _
  | cons target targets ih =>
    cases types with
    | nil => exact .pure _
    | cons type types =>
      exact .bind (assignTarget_monotone ..) fun _ => .bind (ih types) fun _ => .pure _

/-- Unpacking a value fails or assigns its parts, as components of a constant or as outputs of a
bundle. -/
theorem assignMany_monotone (targets : List Target) (e : TypedExpr) (type : SocketType) :
    Monotone top (assignMany ctx targets e type) := by
  refine .bind (.require _ _ _) fun parts => .ite (.bind (.fail _ _) fun _ => ?_) ?_ <;>
  · cases e.constant? with
    | some v => exact assignComponents_monotone ..
    | none => exact .bind (assignParts_monotone ..) fun _ => .pure _

/-- An assignment checks its value, asks for its type and assigns it to one target or to several. -/
theorem assign_monotone (targets : List Target) (e : Expr) : Monotone top (assign ctx targets e) := by
  refine .bind (expr_monotone e) fun value => .bind (valueType_monotone value) fun type => ?_
  split
  · exact assignOne_monotone ..
  · exact assignMany_monotone ..

/-- An assignment to a component reads the variable and checks the value, and changes no binding. -/
theorem setField_monotone (target field : String) (e : Expr) (span : Span) :
    Monotone top (setField ctx target field e span) := by
  refine .bind .get fun s => .ite (.bind (.fail _ _) fun _ => ?_) ?_ <;>
  exact .bind (name_monotone ..) fun _ => .bind (valueType_monotone _) fun _ =>
    .bind (.require _ _ _) fun _ => .bind (expr_monotone e) fun _ =>
      .bind (valueType_monotone _) fun _ => .ite (.bind (.fail _ _) fun _ => .pure _) (.pure _)

/-- Unrolling a loop checks the body once for each value of the counter, each time from the session
that the last one left. -/
theorem unroll_monotone (counter : Option String) {body : Check (List TypedStmt)}
    (hb : Monotone top body) (values : List Int64) : Monotone top (unroll counter body values) := by
  induction values with
  | nil => exact .pure _
  | cons i values ih =>
    have rest : Monotone top (do
        let before := (← get).errors.length
        let stmts ← body
        if before < (← get).errors.length then
          return stmts
        else
          let more ← unroll counter body values
          return stmts ++ more) :=
      .bind .get fun _ => .bind hb fun _ => .bind .get fun _ =>
        .ite (.pure _) (.bind ih fun _ => .pure _)
    cases counter with
    | none => exact rest
    | some n => exact .bind (bind_monotone ..) fun _ => rest

/-- A zone checks its body and then puts the scope back, which growth does not notice. -/
theorem inZone_monotone {body : Context → Check (List TypedStmt)}
    (hb : ∀ scope, Monotone top (body (ctx.inZone scope))) : Monotone top (inZone ctx body) :=
  .bind .get fun _ => .bind (hb _) fun _ => .bind (.modify (fun _ => rfl) fun _ => rfl) fun _ =>
    .pure _

/-- The default of a parameter is an expression that has to be a constant of the right type. -/
theorem defaultValue_monotone (p : Param) : Monotone top (defaultValue ctx p) := by
  unfold defaultValue
  cases p.default with
  | none => exact .pure _
  | some e =>
    exact .bind (expr_monotone e) fun _ => .bind (.require _ _ _) fun _ =>
      .bind (.require _ _ _) fun _ => .pure _

/-- Parameters are checked one after the other, each with its default. -/
theorem parameters_monotone (ps : List Param) : Monotone top (parameters ctx ps) := by
  induction ps with
  | nil => exact .pure _
  | cons p ps ih => exact .bind (defaultValue_monotone p) fun _ => .bind ih fun _ => .pure _

/-- Every output that was not assigned is noted as an error, and that is all that happens to the
session. -/
theorem reportUnassigned_monotone (function : String) (span : Span) (assigned : List Nat) (i : Nat)
    (ps : List TypedParam) : Monotone top (reportUnassigned function span assigned i ps) := by
  induction ps generalizing i with
  | nil => exact .pure _
  | cons p ps ih => exact .ite (.bind (.report _) fun _ => ih _) (ih _)

/-- A definition is checked in a scope of its own, which is taken back afterwards together with the
assigned outputs. -/
theorem inDefinition_monotone (d : Enclosing) (inputs : List TypedParam)
    {body : Context → Check (List TypedStmt)} (hb : Monotone top (body (ctx.inDefinition d))) :
    Monotone top (inDefinition ctx d inputs body) :=
  .getSet (fun _ => rfl) (fun _ => rfl) fun _ => .bind hb fun _ => .bind .get fun _ =>
    .bind (.modify (fun _ => rfl) fun _ => rfl) fun _ => .pure _

/-! ### Definitions -/

/-- A step that takes back no error and no definition from a state where `name` is not defined. -/
structure MonotoneFresh (name : String) (x : Check α) : Prop where
  grows_after : ∀ s, s.functions.get? name = none → Grows true s (after x s)

/-- A monotone step in front of one that may make one name known. The first changes no definition, so
the name is as new after it as before. -/
theorem MonotoneFresh.bind {name : String} {x : Check α} {f : α → Check β} (hx : Monotone false x)
    (hf : ∀ a, MonotoneFresh name (f a)) : MonotoneFresh name (x >>= f) := by
  constructor
  intro s hs
  have h := hx.grows_after s
  change Grows true s (after (EStateM.bind x f) s)
  unfold after EStateM.bind
  unfold after at h
  cases hxs : x s with
  | ok a s₁ =>
    rw [hxs] at h
    exact h.weaken.trans ((hf a).grows_after s₁ (by rw [h.fixed rfl]; exact hs))
  | error e s₁ =>
    rw [hxs] at h
    exact h.weaken

/-- A definition is added under a name that no definition has. -/
theorem MonotoneFresh.insert (name : String) (f : TypedFunction) :
    MonotoneFresh name
      (modify fun s : Checker => { s with functions := s.functions.insert name f } : Check PUnit) := by
  refine ⟨fun s hs => ⟨List.prefix_rfl, fun n g hg => ?_, nofun⟩⟩
  change (s.functions.insert name f).get? n = some g
  rw [Table.get?_insert, if_neg]
  · exact hg
  · rintro rfl
    rw [hs] at hg
    cases hg

/-- A step that begins by reading the session ends where the rest ends when it is given the
session. -/
theorem after_get {x : Checker → Check α} (s : Checker) :
    after (get >>= x) s = after (x s) s := rfl

/-- A definition is refused below the top level. At the top level its name is new, its body is
checked below the top level, and then it is added, so that no definition is ever replaced. -/
theorem define_monotone (h : Header) (span : Span) {body : Context → Check (List TypedStmt)}
    (hb : ∀ d, Monotone false (body (ctx.inDefinition d))) :
    Monotone ctx.topLevel (define ctx h span body) := by
  constructor
  intro s
  unfold define
  cases ht : ctx.topLevel with
  | false => exact Grows.refl s
  | true =>
    simp only [Bool.not_true, Bool.false_eq_true, if_false, after_get]
    split
    next => exact Grows.refl s
    next hc =>
      -- Every step up to the last one keeps the definitions as they are.
      have hfresh : s.functions.get? h.name = none := by simpa [Table.contains] using hc
      exact MonotoneFresh.grows_after (.bind (parameters_monotone _) fun inputs =>
        .bind (inDefinition_monotone _ _ (hb _)) fun checked =>
          .bind (reportUnassigned_monotone ..) fun _ => .insert _ _) s hfresh

/-! ### Blocks -/

/-- The body of a loop is not at the top level, so no definition stands in it. -/
theorem topLevel_inLoop (ctx : Context) : ctx.inLoop.topLevel = false := by
  simp [Context.topLevel, Context.inLoop]

/-- The body of a zone is not at the top level, so no definition stands in it. -/
theorem topLevel_inZone (ctx : Context) (scope : Scope) : (ctx.inZone scope).topLevel = false := by
  simp [Context.topLevel, Context.inZone]

/-- The body of a definition is not at the top level: definitions do not nest. -/
theorem topLevel_inDefinition (ctx : Context) (d : Enclosing) :
    (ctx.inDefinition d).topLevel = false := by
  simp [Context.topLevel, Context.inDefinition]

mutual

/-- Checking a statement takes back no error and no definition, and only a definition at the top level
adds one. -/
theorem stmt_adds : (st : Stmt) → ∀ ctx : Context,
    Monotone (st.definedName?.isSome && ctx.topLevel) (stmt ctx st)
  | .expr e _, _ => .bind (expr_monotone e) fun _ => .pure _
  | .assign targets e _, _ => assign_monotone targets e
  | .setField target field e s, _ => setField_monotone target field e s
  | .loop counter first last body _, ctx => by
    have hb := topLevel_inLoop ctx ▸ block_monotone body ctx.inLoop
    have hu := unroll_monotone counter hb (counterValues first last)
    exact .ite (.bind (.fail _ _) fun _ => hu) hu
  | .zone count body _, ctx => by
    have hb : ∀ scope, Monotone false (block (ctx.inZone scope) body) := fun scope =>
      topLevel_inZone ctx scope ▸ block_monotone body (ctx.inZone scope)
    have hz : Monotone false (inZone ctx fun inner => block inner body) := inZone_monotone hb
    refine .ite (.bind (.fail _ _) fun _ => ?_) ?_ <;>
    exact .bind (expr_monotone count) fun _ => .bind (valueType_monotone _) fun _ =>
      .ite (.bind (.fail _ _) fun _ => .bind hz fun _ => .pure _) (.bind hz fun _ => .pure _)
  | .define h body s, ctx => by
    have hb : ∀ d, Monotone false (block (ctx.inDefinition d) body) := fun d =>
      topLevel_inDefinition ctx d ▸ block_monotone body (ctx.inDefinition d)
    exact .bind (define_monotone h s hb) fun _ => .pure _

/-- Checking statements takes back no error and no definition. -/
theorem block_monotone : (ss : List Stmt) → ∀ ctx : Context, Monotone ctx.topLevel (block ctx ss)
  | [], _ => .pure _
  | st :: rest, ctx =>
    .bind (.recover (stmt_adds st ctx).of_and) fun _ => .bind (block_monotone rest ctx) fun _ => .pure _

end

/-- Checking a statement takes back no error and no definition. -/
theorem stmt_monotone (st : Stmt) (ctx : Context) : Monotone ctx.topLevel (stmt ctx st) :=
  (stmt_adds st ctx).of_and

/-- A library only grows the session, and at the top level it may add definitions: its definitions
are checked in order, and whatever else stands in it is noted as an error. -/
theorem library_monotone (ss : List Stmt) (ctx : Context) :
    Monotone ctx.topLevel (library ctx ss) := by
  induction ss with
  | nil => exact .pure _
  | cons st rest ih =>
    cases st with
    | define h body s => exact .bind (.recover (stmt_monotone _ ctx)) fun _ => ih
    | _ => exact .bind (.report _) fun _ => ih

end

end Check

end NodeFormula

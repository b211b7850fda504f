import NodeFormula.Proofs.Checker.Expression

/-!
# What calls resolve to

A call names a built-in function with its overloads, a definition, or both. Among some of these the
call resolves to the first that takes the arguments at the least total cost of conversion, and
fails only if none takes them (`Resolved`). A definition hides the overloads of its name, so the
call chooses among `visible` ones; that is the choice among all `candidates` exactly if the
definition takes the arguments at less cost than every overload that it hides (`call_resolved`).
-/

namespace NodeFormula

/-- What a call may resolve to: a node of the catalog or a definition. -/
inductive Callee where
  | node (overload : Overload)
  | function (definition : TypedFunction)

/-- Arguments can be passed to the first of some parameters, at a total cost of conversion. -/
inductive Passed : List TypedExpr → List SocketType → Nat → Prop where
  | nil (params : List SocketType) : Passed [] params 0
  | cons {a : TypedExpr} {args : List TypedExpr} {t p : SocketType} {params : List SocketType}
      {n total : Nat} : a.types.head? = some t → t.conversionCost p = some n →
      Passed args params total → Passed (a :: args) (p :: params) (n + total)

namespace Callee

/-- The types of the parameters. -/
def params : Callee → List SocketType
  | node o => o.inputs
  | function f => f.inputs.map (·.type)

/-- The parameters after the first `given` may be left out. A node has a value of its own for each
input, a definition needs a default. -/
def Omits (given : Nat) : Callee → Prop
  | node _ => True
  | function f => ∀ p ∈ f.inputs.drop given, p.default.isSome

/-- The callee takes the arguments, at a total cost of conversion. -/
structure Accepts (args : List TypedExpr) (c : Callee) (cost : Nat) : Prop where
  passed : Passed args c.params cost
  omits : c.Omits args.length

/-- The call of a callee. -/
def call (args : List TypedExpr) (span : Span) : Callee → TypedExpr
  | node o => Check.nodeCall o args span
  | function f => .call f (Check.convertArgs args (f.inputs.map (·.type)))
      ⟨f.outputs.map (·.type), f.outputs.map (·.name), .ofOutputs f.outputs.length, span⟩

/-- The first of the callees that take the arguments at the least cost. -/
def Chosen (args : List TypedExpr) (callees : List Callee) (c : Callee) : Prop :=
  ∃ before after cost, callees = before ++ c :: after ∧ c.Accepts args cost ∧
    (∀ d ∈ before, ∀ n, d.Accepts args n → cost < n) ∧
    ∀ d ∈ after, ∀ n, d.Accepts args n → cost ≤ n

/-- A call resolves among some callees: it is the call of the chosen one, and it fails only if none
takes the arguments. -/
def Resolved (args : List TypedExpr) (span : Span) (s : Checker) (callees : List Callee)
    (result : EStateM.Result TypeError Checker TypedExpr) : Prop :=
  (∃ c, Chosen args callees c ∧ result = .ok (c.call args span) s) ∨
    (∀ c ∈ callees, ∀ n, ¬ c.Accepts args n) ∧ ∃ e, result = .error e s

/-- All that a name may stand for: the overloads of the catalog, in order of declaration, and the
definition. -/
def candidates (tree : TreeKind) (functions : Table String TypedFunction) (name : String) :
    List Callee :=
  (tree.overloads name).map node ++ (functions.get? name).toList.map function

/-- What a call of a name chooses from: the definition, and without one the overloads. -/
def visible (tree : TreeKind) (functions : Table String TypedFunction) (name : String) :
    List Callee :=
  match functions.get? name with
  | some f => [function f]
  | none => (tree.overloads name).map node

end Callee

/-! ### The cost of arguments -/

section
variable {args : List TypedExpr} {types params : List SocketType} {n m : Nat}

/-- Arguments are passed at one cost only, by induction on the arguments. So the cost of an overload
is well defined. -/
theorem Passed.unique (h : Passed args params n) (h' : Passed args params m) : n = m := by
  induction h generalizing m with
  | nil => cases h'; rfl
  | cons ht hn _ ih =>
    cases h' with
    | cons ht' hn' hrest =>
      rw [ht] at ht'
      cases ht'
      rw [hn] at hn'
      cases hn'
      rw [ih hrest]

theorem Passed.length_le (h : Passed args params n) : args.length ≤ params.length := by
  induction h with
  | nil => exact Nat.zero_le _
  | cons _ _ _ ih => exact Nat.succ_le_succ ih

theorem Callee.Accepts.unique {c : Callee} (h : c.Accepts args n) (h' : c.Accepts args m) : n = m :=
  h.passed.unique h'.passed

/-- The cost of passing arguments is the cost of passing their types, as the choice of an overload
looks at nothing else of them. The induction is on the arguments along with their types. -/
theorem passed_iff_argumentsCost
    (htypes : List.Forall₂ (fun e t => e.types.head? = some t) args types) :
    Passed args params n ↔ Overload.argumentsCost types params = some n := by
  induction htypes generalizing params n with
  | nil =>
    refine ⟨fun h => ?_, fun h => ?_⟩
    · cases h; rfl
    · cases h; exact .nil params
  | @cons e t es ts het _ ih =>
    cases params with
    | nil =>
      constructor
      · intro h
        cases h
      · intro h
        cases h
    | cons p params =>
      simp only [Overload.argumentsCost, Option.bind_eq_bind, Option.bind_eq_some_iff]
      constructor
      · intro h
        cases h with
        | cons ht hn hrest =>
          rw [het] at ht
          cases ht
          exact ⟨_, hn, _, ih.1 hrest, rfl⟩
      · rintro ⟨k, hk, total, htotal, heq⟩
        cases heq
        exact .cons het hk (ih.2 htotal)

theorem Passed.exists_types (h : Passed args params n) :
    ∃ types, List.Forall₂ (fun e t => e.types.head? = some t) args types := by
  induction h with
  | nil => exact ⟨[], .nil⟩
  | cons ht _ _ ih =>
    obtain ⟨types, htypes⟩ := ih
    exact ⟨_ :: types, .cons ht htypes⟩

end

/-! ### The choice among overloads -/

namespace Overload

variable {types : List SocketType} {best : Option (Nat × Overload)} {os : List Overload}

/-- Looking for the cheapest overload finds none exactly if none was found before and none takes the
arguments. -/
theorem cheapest_eq_none (h : cheapest types best os = none) :
    best = none ∧ ∀ o ∈ os, o.cost types = none := by
  fun_induction cheapest types best os with
  | case1 => exact ⟨h, List.forall_mem_nil _⟩
  | case2 best x xs hx ih =>
    obtain ⟨hbest, hxs⟩ := ih h
    exact ⟨hbest, List.forall_mem_cons.2 ⟨hx, hxs⟩⟩
  | case3 x xs k hk ih => cases (ih h).1
  | case4 x xs k m b hk ih =>
    have hnone := (ih h).1
    split at hnone <;> cases hnone

/-- An overload comes first in a list among those of least cost. -/
def Leads (types : List SocketType) (os : List Overload) (n : Nat) (o : Overload) : Prop :=
  ∃ before after, os = before ++ o :: after ∧ o.cost types = some n ∧
    (∀ d ∈ before, ∀ m, d.cost types = some m → n < m) ∧
    ∀ d ∈ after, ∀ m, d.cost types = some m → n ≤ m

/-- An overload that leads still does with one in front of it that costs more. Costing the same would
not do, as the first of the cheapest is chosen. -/
theorem Leads.cons {x o : Overload} {n : Nat} (h : Leads types os n o)
    (hx : ∀ m, x.cost types = some m → n < m) : Leads types (x :: os) n o := by
  obtain ⟨before, after, rfl, hcost, hbefore, hafter⟩ := h
  exact ⟨x :: before, after, rfl, hcost, List.forall_mem_cons.2 ⟨hx, hbefore⟩, hafter⟩

theorem Leads.head {o : Overload} {n : Nat} (hcost : o.cost types = some n)
    (h : ∀ d ∈ os, ∀ m, d.cost types = some m → n ≤ m) : Leads types (o :: os) n o :=
  ⟨[], os, rfl, hcost, List.forall_mem_nil _, h⟩

/-- The overload that is found is the one held so far, if none in the list costs less, or the first
of those in the list that cost least, if they cost less than the one held. -/
theorem cheapest_eq_some {n : Nat} {o : Overload} (h : cheapest types best os = some (n, o)) :
    (best = some (n, o) ∧ ∀ d ∈ os, ∀ m, d.cost types = some m → n ≤ m) ∨
      Leads types os n o ∧ ∀ k b, best = some (k, b) → n < k := by
  fun_induction cheapest types best os with
  | case1 => exact .inl ⟨h, List.forall_mem_nil _⟩
  | case2 best x xs hx ih =>
    have hnone : ∀ m, x.cost types ≠ some m := fun m hm => by rw [hx] at hm; cases hm
    obtain ⟨hbest, hle⟩ | ⟨hleads, hlt⟩ := ih h
    · exact .inl ⟨hbest, List.forall_mem_cons.2 ⟨fun m hm => absurd hm (hnone m), hle⟩⟩
    · exact .inr ⟨hleads.cons fun m hm => absurd hm (hnone m), hlt⟩
  | case3 x xs k hk ih =>
    obtain ⟨hbest, hle⟩ | ⟨hleads, hlt⟩ := ih h
    · cases hbest
      exact .inr ⟨.head hk hle, fun _ _ hnone => by cases hnone⟩
    · refine .inr ⟨hleads.cons fun m hm => ?_, fun _ _ hnone => by cases hnone⟩
      rw [hk] at hm
      cases hm
      exact hlt k x rfl
  | case4 x xs k m b hk ih =>
    have hx : ∀ j, x.cost types = some j → j = k := fun j hj => by rw [hk] at hj; cases hj; rfl
    by_cases hkm : k < m
    · rw [if_pos hkm] at ih h
      obtain ⟨hbest, hle⟩ | ⟨hleads, hlt⟩ := ih h
      · cases hbest
        exact .inr ⟨.head hk hle, fun _ _ hbest => by cases hbest; exact hkm⟩
      · have hnk := hlt k x rfl
        exact .inr ⟨hleads.cons fun j hj => hx j hj ▸ hnk,
          fun _ _ hbest => by cases hbest; exact Nat.lt_trans hnk hkm⟩
    · rw [if_neg hkm] at ih h
      obtain ⟨hbest, hle⟩ | ⟨hleads, hlt⟩ := ih h
      · cases hbest
        exact .inl ⟨rfl, List.forall_mem_cons.2 ⟨fun j hj => hx j hj ▸ Nat.le_of_not_lt hkm, hle⟩⟩
      · have hnm := hlt m b rfl
        exact .inr ⟨hleads.cons fun j hj => hx j hj ▸ Nat.lt_of_lt_of_le hnm (Nat.le_of_not_lt hkm),
          fun _ _ hbest => by cases hbest; exact hnm⟩

/-- The overload that is selected is the first of those of least cost. -/
theorem leads_of_select {o : Overload} (h : select os types = some o) :
    ∃ n, Leads types os n o := by
  obtain ⟨⟨n, o'⟩, hcheapest, rfl⟩ := Option.map_eq_some_iff.1 h
  obtain ⟨hnone, -⟩ | ⟨hleads, -⟩ := cheapest_eq_some hcheapest
  · cases hnone
  · exact ⟨n, hleads⟩

theorem cost_of_select_eq_none (h : select os types = none) : ∀ o ∈ os, o.cost types = none :=
  (cheapest_eq_none (Option.map_eq_none_iff.1 h)).2

end Overload

namespace Check

/-! ### Steps that only read -/

theorem get_bind {α : Type} (f : Checker → Check α) (s : Checker) : (get >>= f) s = f s s := rfl

/-- A step that changes nothing in the checker. -/
def Reads {α : Type} (x : Check α) : Prop := ∀ s, (∃ a, x s = .ok a s) ∨ ∃ e, x s = .error e s

namespace Reads

variable {α β : Type}

theorem pure (a : α) : Reads (pure a : Check α) := fun _ => .inl ⟨a, rfl⟩

/-- Reading the state only reads. -/
theorem get : Reads (get : Check Checker) := fun s => .inl ⟨s, rfl⟩

/-- Failing only reads, as the state stays as it is. -/
theorem fail (problem : Problem) (span : Span) : Reads (fail problem span : Check α) :=
  fun _ => .inr ⟨_, rfl⟩

theorem require (o : Option α) (problem : Problem) (span : Span) :
    Reads (require o problem span) := by
  cases o with
  | none => exact fail problem span
  | some a => exact pure a

/-- Two steps in a row that only read leave the state as it was at the start. -/
theorem bind {x : Check α} {f : α → Check β} (hx : Reads x) (hf : ∀ a, Reads (f a)) :
    Reads (x >>= f) := by
  intro s
  change (∃ b, EStateM.bind x f s = .ok b s) ∨ ∃ e, EStateM.bind x f s = .error e s
  unfold EStateM.bind
  obtain ⟨a, ha⟩ | ⟨e, he⟩ := hx s
  · rw [ha]
    exact hf a s
  · rw [he]
    exact .inr ⟨e, rfl⟩

/-- A choice between two steps that only read. -/
theorem ite {c : Prop} [Decidable c] {x y : Check α} (hx : Reads x) (hy : Reads y) :
    Reads (if c then x else y) := by
  split
  · exact hx
  · exact hy

end Reads

theorem valueType_reads (e : TypedExpr) : Reads (valueType e) := .require _ _ _

theorem valueTypes_reads : (es : List TypedExpr) → Reads (valueTypes es)
  | [] => .pure _
  | e :: es => (valueType_reads e).bind fun _ => (valueTypes_reads es).bind fun _ => .pure _

theorem checkArgs_reads (function : String) : (args : List TypedExpr) →
    (params : List TypedParam) → Reads (checkArgs function args params)
  | [], _ => .pure _
  | _ :: _, [] => .pure _
  | a :: args, _ :: params => (valueType_reads a).bind fun _ =>
      .ite ((Reads.fail _ _).bind fun _ => checkArgs_reads function args params)
        (checkArgs_reads function args params)

theorem functionCall_reads (f : TypedFunction) (args : List TypedExpr) (span : Span) :
    Reads (functionCall f args span) := by
  refine .ite (.bind (.fail _ _) fun _ => ?_) ?_ <;>
  · split
    · exact .fail _ _
    · exact .bind (checkArgs_reads f.name args f.inputs) fun _ => .pure _

theorem call_reads (ctx : Context) (name : String) (args : List TypedExpr) (span : Span) :
    Reads (call ctx name args span) := by
  refine .bind .get fun s => ?_
  cases s.functions.get? name with
  | some f => exact functionCall_reads f args span
  | none =>
    refine .ite (.bind (.fail _ _) fun _ => ?_) ?_ <;>
    exact .bind (valueTypes_reads args) fun _ => .bind (.require _ _ _) fun _ => .pure _

/-! ### Calls that succeed -/

section
variable {ctx : Context} {s s' : Checker} {args : List TypedExpr} {span : Span} {e : TypedExpr}

/-- The arguments pass the check exactly if they can be passed at some cost. The check does not
compute the cost, as there is nothing to compare it with. -/
theorem checkArgs_ok_iff {function : String} {params : List TypedParam}
    (hl : args.length ≤ params.length) :
    checkArgs function args params s = .ok () s' ↔
      (∃ n, Passed args (params.map (·.type)) n) ∧ s = s' := by
  induction args generalizing params with
  | nil =>
    rw [checkArgs, pure_ok]
    exact ⟨fun h => ⟨⟨0, .nil _⟩, h.2⟩, fun h => ⟨rfl, h.2⟩⟩
  | cons a args ih =>
    cases params with
    | nil => exact absurd hl (by simp)
    | cons p params =>
      have ih := ih (Nat.le_of_succ_le_succ hl)
      simp only [checkArgs, bind_ok, valueType_ok, guard_ok]
      constructor
      · rintro ⟨t, _, ⟨ht, rfl⟩, hc, h⟩
        obtain ⟨⟨total, htotal⟩, rfl⟩ := ih.1 h
        have hc : t.convertsTo p.type = true := by simpa using hc
        obtain ⟨n, hn⟩ := Option.isSome_iff_exists.1 hc
        exact ⟨⟨n + total, .cons ht hn htotal⟩, rfl⟩
      · rintro ⟨⟨_, h⟩, rfl⟩
        cases h with
        | @cons _ _ t _ _ n total ht hn htotal =>
          have hc : t.convertsTo p.type = true := by rw [SocketType.convertsTo, hn]; rfl
          exact ⟨t, s, ⟨ht, rfl⟩, by simp [hc], ih.2 ⟨⟨total, htotal⟩, rfl⟩⟩

/-- A call of a definition succeeds exactly if the definition takes the arguments, with the rest left
to defaults, and gives the call of it. -/
theorem functionCall_ok_iff {f : TypedFunction} :
    functionCall f args span s = .ok e s' ↔
      (∃ n, (Callee.function f).Accepts args n) ∧ (Callee.function f).call args span = e ∧
        s = s' := by
  simp only [functionCall, guard_ok]
  cases hd : (f.inputs.drop args.length).find? (·.default.isNone) with
  | some p =>
    simp only [fail_ok, and_false, false_iff]
    rintro ⟨⟨n, hn⟩, -⟩
    have hnone : p.default.isNone = true := by simpa using List.find?_some hd
    have hsome : p.default.isSome = true := hn.omits p (List.mem_of_find?_eq_some hd)
    rw [Option.isNone_iff_eq_none.1 hnone] at hsome
    cases hsome
  | none =>
    simp only [bind_ok, pure_ok]
    constructor
    · rintro ⟨hl, _, _, hargs, rfl, rfl⟩
      obtain ⟨⟨n, hn⟩, rfl⟩ := (checkArgs_ok_iff (by omega)).1 hargs
      refine ⟨⟨n, hn, fun p hp => ?_⟩, rfl, rfl⟩
      simpa [Option.isSome_iff_ne_none] using List.find?_eq_none.1 hd p hp
    · rintro ⟨⟨n, hn⟩, rfl, rfl⟩
      have hl : args.length ≤ f.inputs.length := by simpa [Callee.params] using hn.passed.length_le
      exact ⟨by omega, (), s, (checkArgs_ok_iff hl).2 ⟨⟨n, hn.passed⟩, rfl⟩, rfl, rfl⟩

theorem valueTypes_of_forall₂ {types : List SocketType}
    (h : List.Forall₂ (fun e t => e.types.head? = some t) args types) :
    valueTypes args s = .ok types s := by
  induction h with
  | nil => rfl
  | cons ht _ ih =>
    rw [valueTypes, bind_ok]
    exact ⟨_, s, valueType_ok.2 ⟨ht, rfl⟩, bind_ok.2 ⟨_, s, ih, rfl⟩⟩

/-- Without a definition of its name, a call that succeeds is that of the selected overload. -/
theorem call_ok_iff {name : String} (hnone : s.functions.get? name = none) :
    call ctx name args span s = .ok e s' ↔
      (∃ types o, List.Forall₂ (fun e t => e.types.head? = some t) args types ∧
        Overload.select (ctx.tree.overloads name) types = some o ∧
        (Callee.node o).call args span = e) ∧ s = s' := by
  simp only [call, bind_ok, get_ok]
  constructor
  · rintro ⟨_, _, ⟨rfl, rfl⟩, h⟩
    simp only [hnone, guard_ok, bind_ok, require_ok, pure_ok] at h
    obtain ⟨-, types, _, htypes, o, _, ⟨ho, rfl⟩, rfl, rfl⟩ := h
    obtain ⟨hheads, rfl⟩ := valueTypes_ok htypes
    exact ⟨⟨types, o, hheads, ho, rfl⟩, rfl⟩
  · rintro ⟨⟨types, o, hheads, ho, rfl⟩, rfl⟩
    refine ⟨s, s, ⟨rfl, rfl⟩, ?_⟩
    simp only [hnone, guard_ok, bind_ok, require_ok, pure_ok]
    have hmem := (Overload.select_some ho).1
    refine ⟨?_, types, s, valueTypes_of_forall₂ hheads, o, s, ⟨ho, rfl⟩, rfl, rfl⟩
    intro hempty
    rw [List.isEmpty_iff.1 hempty] at hmem
    cases hmem

end

end Check

namespace Callee

variable {ctx : Context} {s : Checker} {args : List TypedExpr} {span : Span} {name : String}

theorem accepts_node_iff {types : List SocketType} {o : Overload} {n : Nat}
    (htypes : List.Forall₂ (fun e t => e.types.head? = some t) args types) :
    (node o).Accepts args n ↔ o.cost types = some n :=
  ⟨fun h => (passed_iff_argumentsCost htypes).1 h.passed,
    fun h => ⟨(passed_iff_argumentsCost htypes).2 h, trivial⟩⟩

/-- The first overload of least cost is chosen among the overloads. What leads for the types of the
arguments leads for the arguments. -/
theorem chosen_of_leads {types : List SocketType} {os : List Overload} {o : Overload} {n : Nat}
    (htypes : List.Forall₂ (fun e t => e.types.head? = some t) args types)
    (h : Overload.Leads types os n o) : Chosen args (os.map node) (node o) := by
  obtain ⟨before, after, rfl, hcost, hbefore, hafter⟩ := h
  refine ⟨before.map node, after.map node, n, by simp, (accepts_node_iff htypes).2 hcost, ?_, ?_⟩
  · intro d hd m hm
    obtain ⟨x, hx, rfl⟩ := List.mem_map.1 hd
    exact hbefore x hx m ((accepts_node_iff htypes).1 hm)
  · intro d hd m hm
    obtain ⟨x, hx, rfl⟩ := List.mem_map.1 hd
    exact hafter x hx m ((accepts_node_iff htypes).1 hm)

/-- Among one callee this one is chosen exactly if it takes the arguments. -/
theorem chosen_singleton_iff {c d : Callee} :
    Chosen args [c] d ↔ d = c ∧ ∃ n, c.Accepts args n := by
  constructor
  · rintro ⟨before, after, n, heq, hn, -⟩
    obtain ⟨rfl, rfl, rfl⟩ : before = [] ∧ d = c ∧ after = [] := by
      cases before with
      | nil => simpa [eq_comm] using heq
      | cons x before => simp at heq
    exact ⟨rfl, n, hn⟩
  · rintro ⟨rfl, n, hn⟩
    exact ⟨[], [], n, rfl, hn, List.forall_mem_nil _, List.forall_mem_nil _⟩

/-- A call among one callee is its call or fails, as the callee takes the arguments or does not. -/
theorem resolved_singleton_iff {c : Callee}
    {result : EStateM.Result TypeError Checker TypedExpr} :
    Resolved args span s [c] result ↔
      ((∃ n, c.Accepts args n) ∧ result = .ok (c.call args span) s) ∨
        (∀ n, ¬ c.Accepts args n) ∧ ∃ e, result = .error e s := by
  unfold Resolved
  simp only [chosen_singleton_iff, List.forall_mem_singleton, and_assoc, exists_eq_left]

theorem resolved_definition {f : TypedFunction} :
    Resolved args span s [function f] (Check.functionCall f args span s) := by
  rw [resolved_singleton_iff]
  obtain ⟨e, he⟩ | ⟨e, he⟩ := Check.functionCall_reads f args span s
  · obtain ⟨haccepts, rfl, -⟩ := Check.functionCall_ok_iff.1 he
    exact .inl ⟨haccepts, he⟩
  · refine .inr ⟨fun n hn => ?_, e, he⟩
    rw [Check.functionCall_ok_iff.2 ⟨⟨n, hn⟩, rfl, rfl⟩] at he
    cases he

/-- Without a definition of the name a call is resolved among the overloads, and fails for want of a
function if there are none. -/
theorem resolved_overloads (hnone : s.functions.get? name = none) :
    Resolved args span s ((ctx.tree.overloads name).map node)
      (Check.call ctx name args span s) := by
  obtain ⟨e, he⟩ | ⟨e, he⟩ := Check.call_reads ctx name args span s
  · obtain ⟨⟨types, o, htypes, ho, rfl⟩, -⟩ := (Check.call_ok_iff hnone).1 he
    obtain ⟨n, hleads⟩ := Overload.leads_of_select ho
    exact .inl ⟨node o, chosen_of_leads htypes hleads, he⟩
  · refine .inr ⟨fun c hc n hn => ?_, e, he⟩
    obtain ⟨o, ho, rfl⟩ := List.mem_map.1 hc
    obtain ⟨types, htypes⟩ := hn.passed.exists_types
    cases hselect : Overload.select (ctx.tree.overloads name) types with
    | none =>
      have hcost := (accepts_node_iff htypes).1 hn
      rw [Overload.cost_of_select_eq_none hselect o ho] at hcost
      cases hcost
    | some chosen =>
      rw [(Check.call_ok_iff hnone).2 ⟨⟨types, chosen, htypes, hselect, rfl⟩, rfl⟩] at he
      cases he

theorem call_of_definition {f : TypedFunction} (hf : s.functions.get? name = some f) :
    Check.call ctx name args span s = Check.functionCall f args span s := by
  simp only [Check.call, Check.get_bind, hf]

/-- A call is resolved among what is visible: the definition if there is one, and otherwise the
overloads. -/
theorem resolved_visible (ctx : Context) (name : String) (args : List TypedExpr) (span : Span)
    (s : Checker) : Resolved args span s (visible ctx.tree s.functions name)
      (Check.call ctx name args span s) := by
  unfold visible
  cases hf : s.functions.get? name with
  | none => exact resolved_overloads hf
  | some f =>
    rw [call_of_definition hf]
    exact resolved_definition

/-! ### Definitions that hide overloads -/

/-- A definition is chosen among itself and overloads declared before it if it costs less than each
overload that takes the arguments. -/
theorem chosen_definition_iff {os : List Overload} {f : TypedFunction} :
    Chosen args (os.map node ++ [function f]) (function f) ↔
      ∃ m, (function f).Accepts args m ∧ ∀ o ∈ os, ∀ n, (node o).Accepts args n → m < n := by
  constructor
  · rintro ⟨before, after, m, heq, hm, hbefore, -⟩
    have hall : before = os.map node := by
      -- the definition stands last and nowhere else
      obtain ⟨mid, rfl, htail⟩ | ⟨mid, hmid, htail⟩ := List.append_eq_append_iff.1 heq
      · cases mid with
        | nil => exact List.append_nil _
        | cons x mid =>
          obtain ⟨rfl, hmid⟩ := List.cons.inj htail
          simp at hmid
      · cases mid with
        | nil => rw [hmid, List.append_nil]
        | cons x mid =>
          obtain ⟨rfl, -⟩ := List.cons.inj htail
          have hmem : function f ∈ os.map node := by rw [hmid]; simp
          obtain ⟨o, -, ho⟩ := List.mem_map.1 hmem
          cases ho
    refine ⟨m, hm, fun o ho n hn => hbefore _ ?_ n hn⟩
    rw [hall]
    exact List.mem_map_of_mem ho
  · rintro ⟨m, hm, hlt⟩
    refine ⟨os.map node, [], m, rfl, hm, fun d hd n hn => ?_, List.forall_mem_nil _⟩
    obtain ⟨o, ho, rfl⟩ := List.mem_map.1 hd
    exact hlt o ho n hn

/-- The outcome of a call that sees the definition alone is also right among the overloads declared
before it if each that takes the arguments costs more. -/
theorem resolved_hiding_iff {os : List Overload} {f : TypedFunction}
    {result : EStateM.Result TypeError Checker TypedExpr}
    (h : Resolved args span s [function f] result) :
    Resolved args span s (os.map node ++ [function f]) result ↔
      ∀ o ∈ os, ∀ n, (node o).Accepts args n → ∃ m, m < n ∧ (function f).Accepts args m := by
  obtain ⟨⟨m, hm⟩, rfl⟩ | ⟨hnone, e, rfl⟩ := resolved_singleton_iff.1 h
  · constructor
    · rintro (⟨c, hc, heq⟩ | ⟨-, e, heq⟩) o ho n hn
      · have hcall : c = function f := by
          cases c with
          | node o => cases heq
          | function g => cases heq; rfl
        subst hcall
        obtain ⟨k, hk, hlt⟩ := chosen_definition_iff.1 hc
        exact ⟨k, hlt o ho n hn, hk⟩
      · cases heq
    · intro hless
      refine .inl ⟨function f, chosen_definition_iff.2 ⟨m, hm, fun o ho n hn => ?_⟩, rfl⟩
      obtain ⟨k, hlt, hk⟩ := hless o ho n hn
      rwa [hm.unique hk]
  · constructor
    · rintro (⟨c, -, heq⟩ | ⟨hall, -⟩) o ho n hn
      · cases heq
      · exact absurd hn (hall _ (List.mem_append_left _ (List.mem_map_of_mem ho)) n)
    · intro hless
      refine .inr ⟨fun c hc n hn => ?_, e, rfl⟩
      obtain hc | hc := List.mem_append.1 hc
      · obtain ⟨o, ho, rfl⟩ := List.mem_map.1 hc
        obtain ⟨k, -, hk⟩ := hless o ho n hn
        exact hnone k hk
      · obtain rfl := List.mem_singleton.1 hc
        exact hnone n hn

/-- A call resolves among what it sees: the definition of its name, or without one the overloads.
That is the choice among all candidates exactly if every overload that a definition hides and that
takes the arguments would cost more than the definition. -/
theorem call_resolved (ctx : Context) (name : String) (args : List TypedExpr) (span : Span)
    (s : Checker) :
    Resolved args span s (visible ctx.tree s.functions name) (Check.call ctx name args span s) ∧
    (Resolved args span s (candidates ctx.tree s.functions name)
        (Check.call ctx name args span s) ↔
      ∀ f, s.functions.get? name = some f → ∀ o ∈ ctx.tree.overloads name, ∀ n,
        (node o).Accepts args n → ∃ m, m < n ∧ (function f).Accepts args m) := by
  have hvisible := resolved_visible ctx name args span s
  refine ⟨hvisible, ?_⟩
  cases hf : s.functions.get? name with
  | none =>
    have hall : candidates ctx.tree s.functions name = visible ctx.tree s.functions name := by
      simp [candidates, visible, hf]
    rw [hall]
    refine ⟨fun _ f h => ?_, fun _ => hvisible⟩
    cases h
  | some f =>
    have hall : candidates ctx.tree s.functions name =
        (ctx.tree.overloads name).map node ++ [function f] := by
      simp [candidates, hf]
    rw [call_of_definition hf, hall, resolved_hiding_iff resolved_definition]
    refine ⟨fun h g hg => ?_, fun h => h f rfl⟩
    cases hg
    exact h

/-- A definition of a sine with two parameters and no defaults. -/
def twoSines : TypedFunction where
  name := "sin"
  kind := .function
  inputs := [⟨"a", .vec3, none⟩, ⟨"b", .vec3, none⟩]
  outputs := [⟨"r", .vec3, none⟩]
  body := []

/-- A checker that has `twoSines`. -/
def sineChecker : Checker := { functions := (∅ : Table String TypedFunction).insert "sin" twoSines }

/-- A variable of type float. -/
def phase : TypedExpr := .var "t" false (.value .float ⟨0, 0⟩)

/-- A call with one argument fails for want of a second, though the sine that the definition hides
takes the argument as it is. -/
theorem call_twoSines :
    Check.call { tree := .shader } "sin" [phase] ⟨0, 0⟩ sineChecker =
      .error ⟨.missingArgument "b" "sin", ⟨0, 0⟩⟩ sineChecker ∧
    ∃ c ∈ candidates .shader sineChecker.functions "sin", c.Accepts [phase] 0 := by
  constructor
  · have hf : sineChecker.functions.get? "sin" = some twoSines := by
      rw [sineChecker, Table.get?_insert, if_pos rfl]
    rw [call_of_definition hf]
    rfl
  · have hsine : ∃ o ∈ TreeKind.shader.overloads "sin", o.inputs = [.float] := by decide +kernel
    obtain ⟨o, ho, hinputs⟩ := hsine
    refine ⟨node o, List.mem_append_left _ (List.mem_map_of_mem ho), ?_, trivial⟩
    rw [params, hinputs]
    exact .cons (n := 0) rfl rfl (.nil [])

end Callee

end NodeFormula

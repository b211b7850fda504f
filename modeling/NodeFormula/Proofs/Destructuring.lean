import NodeFormula.Proofs.Balance.Steps
import NodeFormula.Proofs.Pipeline

/-!
# Assignments to several targets

An assignment with two targets or more binds its names to the components of a value. A name may stand
among the targets more than once, and the three orders in which targets are gone through then differ:

* the checker binds targets from the first to the last, so the scope has the type of the component at
  the last place of the name;
* the components of a constant are assigned one statement after the other, so the name is bound to the
  component at its last place too;
* the parts of any other value lie on the stack, where the last is the top, and targets are stored from
  the last to the first, so the name is bound to the component at its first place.

`Check.assign_binds` says all three of every assignment that is accepted. A name that stands among the
targets once is bound to the component that the scope has, and `a, a` is not (`repeatedTarget_links`).
-/

namespace NodeFormula

open Machine

/-! ### Places of names -/

/-- The name of a target. -/
def Target.name? : Target → Option String
  | .name n _ => some n
  | .ignore _ => none

/-- A name stands at a place among targets. -/
def NameAt (targets : List Target) (x : String) (k : Nat) : Prop :=
  targets[k]?.bind Target.name? = some x

instance (targets : List Target) (x : String) (k : Nat) : Decidable (NameAt targets x k) :=
  inferInstanceAs (Decidable (_ = _))

/-- The first place of a name among targets. -/
structure FirstAt (targets : List Target) (x : String) (k : Nat) : Prop where
  here : NameAt targets x k
  before : ∀ j < k, ¬ NameAt targets x j

/-- The last place of a name among targets. -/
structure LastAt (targets : List Target) (x : String) (k : Nat) : Prop where
  here : NameAt targets x k
  after : ∀ j, k < j → ¬ NameAt targets x j

section
variable {target : Target} {targets : List Target} {x : String} {k : Nat}

theorem NameAt.lt_length (h : NameAt targets x k) : k < targets.length := by
  obtain ⟨target, ht, -⟩ := Option.bind_eq_some_iff.1 h
  exact (List.getElem?_eq_some_iff.1 ht).1

theorem LastAt.of_cons (h : LastAt (target :: targets) x (k + 1)) : LastAt targets x k :=
  ⟨h.here, fun j hj => h.after (j + 1) (Nat.succ_lt_succ hj)⟩

/-- A name that has its last place at the head is not in the tail. -/
theorem LastAt.not_tail (h : LastAt (target :: targets) x 0) : ∀ j, ¬ NameAt targets x j :=
  fun j => h.after (j + 1) (Nat.succ_pos j)

end

/-! ### What targets stand for -/

namespace Context

variable {ctx : Context} {x y : String}

/-- The names of the outputs of the definition around a statement. -/
def outputNames (ctx : Context) : List String :=
  (ctx.enclosing.map fun d => d.outputs.map (·.name)).getD []

/-- What a name stands for where it is assigned: an output of the definition around, or a variable. -/
def place (ctx : Context) (x : String) : TypedTarget :=
  match ctx.output? x with
  | some (_, i, _) => .output i
  | none => .var x

/-- What a target stands for. -/
def placeTarget (ctx : Context) (target : Target) : TypedTarget :=
  match target.name? with
  | some x => ctx.place x
  | none => .ignore

theorem place_ne_ignore (ctx : Context) (x : String) : ctx.place x ≠ .ignore := by
  unfold place
  split <;> exact TypedTarget.noConfusion

/-- An output has the name by which it is assigned. It was found by looking for this name among the
outputs of the definition. -/
theorem outputNames_of_place {i : Nat} (h : ctx.place x = .output i) :
    ctx.outputNames[i]? = some x := by
  unfold place at h
  split at h
  next d j type hout =>
    cases h
    simp only [output?, Option.bind_eq_bind, Option.bind_eq_some_iff] at hout
    obtain ⟨d', hd, j, hj, p, hp, heq⟩ := hout
    cases heq
    obtain ⟨hlt, hname, -⟩ := List.findIdx?_eq_some_iff_getElem.1 hj
    have hx : d.outputs[i].name = x := by simpa using hname
    simp [outputNames, hd, hx, hlt]
  next => cases h

theorem eq_of_place_var (h : ctx.place x = .var y) : x = y := by
  unfold place at h
  split at h
  next => cases h
  next =>
    cases h
    rfl

/-- Different names stand for different variables or outputs, as the outputs of a definition are
found by their names. -/
theorem place_injective (ctx : Context) : Function.Injective ctx.place := by
  intro x y h
  cases hx : ctx.place x with
  | output i =>
    have hxi := outputNames_of_place hx
    rw [outputNames_of_place (h.symm.trans hx)] at hxi
    exact (Option.some.inj hxi).symm
  | var z =>
    rw [eq_of_place_var hx, eq_of_place_var (h.symm.trans hx)]
  | ignore => exact absurd hx (ctx.place_ne_ignore x)

theorem placeTarget_eq_place {target : Target} :
    ctx.placeTarget target = ctx.place x ↔ target.name? = some x := by
  cases target with
  | ignore =>
    refine ⟨fun h => absurd h.symm (ctx.place_ne_ignore x), fun h => ?_⟩
    cases h
  | name n span =>
    refine ⟨fun h => congrArg some (ctx.place_injective h), fun h => ?_⟩
    cases h
    rfl

theorem placeTarget_eq_output {target : Target} {i : Nat} (h : ctx.placeTarget target = .output i) :
    i < ctx.outputNames.length := by
  cases target with
  | ignore => cases h
  | name n span => exact (List.getElem?_eq_some_iff.1 (outputNames_of_place h)).1

/-- The name at a place among targets is what stands at this place among what they stand for. -/
theorem getElem?_map_placeTarget {targets : List Target} {k : Nat} :
    (targets.map ctx.placeTarget)[k]? = some (ctx.place x) ↔ NameAt targets x k := by
  rw [NameAt, List.getElem?_map, Option.map_eq_some_iff, Option.bind_eq_some_iff]
  simp only [placeTarget_eq_place]

end Context

/-! ### The scope after an assignment -/

namespace Check

variable {ctx : Context} {s s' s₁ : Checker} {target : Target} {targets : List Target}
  {type : SocketType} {types : List SocketType}

/-- The scope after targets are bound to values of the given types: each name has the type at its last
place. -/
def Binds (ctx : Context) (targets : List Target) (types : List SocketType) (s s' : Checker) : Prop :=
  ∀ x, ctx.output? x = none →
    (∀ k, LastAt targets x k → ∃ type, types[k]? = some type ∧
      s'.scope.get? x = some (.value type)) ∧
    ((∀ k, ¬ NameAt targets x k) → s'.scope.get? x = s.scope.get? x)

/-- Checking a target gives what it stands for, and binds its name and no other. Names of outputs are
left out, since these are not in scope. -/
theorem assignTarget_places {b : Binding} {t : TypedTarget} (h : assignTarget ctx target b s = .ok t s') :
    t = ctx.placeTarget target ∧ ∀ x, ctx.output? x = none →
      s'.scope.get? x = if target.name? = some x then some b else s.scope.get? x := by
  cases target with
  | ignore =>
    obtain ⟨rfl, rfl⟩ := pure_ok.1 h
    exact ⟨rfl, fun _ _ => rfl⟩
  | name n span =>
    unfold assignTarget at h
    simp only at h
    cases ho : ctx.output? n with
    | some out =>
      obtain ⟨d, i, expected⟩ := out
      simp only [ho, guard_ok, bind_ok, require_ok, modify_ok, pure_ok] at h
      obtain ⟨-, found, _, ⟨-, rfl⟩, -, _, _, rfl, rfl, rfl⟩ := h
      refine ⟨by simp [Context.placeTarget, Context.place, Target.name?, ho], fun x hx => ?_⟩
      rw [if_neg]
      intro heq
      cases heq
      rw [ho] at hx
      cases hx
    | none =>
      cases hz : zoneProblem? ctx n b with
      | some problem =>
        simp only [ho, hz] at h
        exact (fail_ok.1 h).elim
      | none =>
        simp only [ho, hz, Check.bind, bind_ok, modify_ok, pure_ok] at h
        obtain ⟨_, _, rfl, rfl, rfl⟩ := h
        refine ⟨by simp [Context.placeTarget, Context.place, Target.name?, ho], fun x _ => ?_⟩
        simp [Table.get?_insert, Target.name?, eq_comm]

theorem Binds.nil : Binds ctx [] types s s := by
  refine fun x _ => ⟨fun k hk => ?_, fun _ => rfl⟩
  cases hk.here

/-- The first target is bound and then the others, so a name that stands among the others has the
type that it gets there. -/
theorem Binds.cons {t : TypedTarget} (hfirst : assignTarget ctx target (.value type) s = .ok t s₁)
    (hrest : Binds ctx targets types s₁ s') :
    Binds ctx (target :: targets) (type :: types) s s' := by
  intro x hx
  have hget := (assignTarget_places hfirst).2 x hx
  obtain ⟨hlast, hnone⟩ := hrest x hx
  refine ⟨fun k hk => ?_, fun hno => ?_⟩
  · cases k with
    | zero =>
      have hname : target.name? = some x := hk.here
      refine ⟨type, rfl, ?_⟩
      rw [hnone hk.not_tail, hget, if_pos hname]
    | succ k => exact hlast k hk.of_cons
  · have hname : ¬ target.name? = some x := hno 0
    rw [hnone fun k => hno (k + 1), hget, if_neg hname]

/-- Each target of an unpacked value is bound to the part at its place, from the first target to the
last. -/
theorem assignParts_binds {bound : List TypedTarget} (hle : targets.length ≤ types.length)
    (h : assignParts ctx targets types s = .ok bound s') :
    bound = targets.map ctx.placeTarget ∧ Binds ctx targets types s s' := by
  induction targets generalizing types bound s with
  | nil =>
    obtain ⟨rfl, rfl⟩ := pure_ok.1 h
    exact ⟨rfl, .nil⟩
  | cons target targets ih =>
    cases types with
    | nil => cases hle
    | cons type types =>
      simp only [assignParts, bind_ok, pure_ok] at h
      obtain ⟨t, s₁, hfirst, more, s₂, hmore, rfl, rfl⟩ := h
      obtain ⟨rfl, hbinds⟩ := ih (Nat.le_of_succ_le_succ hle) hmore
      exact ⟨by rw [(assignTarget_places hfirst).1, List.map_cons], .cons hfirst hbinds⟩

/-- The statement that assigns a component of a constant. -/
def componentStmt (ctx : Context) (span : Span) (target : Target) (c : Float) : TypedStmt :=
  .assign [ctx.placeTarget target] (.ofConstant (.float c) span)

/-- The components of a constant give one statement for each target, and each target is bound to a
float. There are at least as many components as targets. -/
theorem assignComponents_binds {v : Constant} {span : Span} {index : Nat} {stmts : List TypedStmt}
    (h : assignComponents ctx type v span index targets s = .ok stmts s') :
    targets.length ≤ (v.components.drop index).length ∧
      stmts = List.zipWith (componentStmt ctx span) targets (v.components.drop index) ∧
      Binds ctx targets ((v.components.drop index).map fun _ => .float) s s' := by
  induction targets generalizing index stmts s with
  | nil =>
    obtain ⟨rfl, rfl⟩ := pure_ok.1 h
    exact ⟨Nat.zero_le _, rfl, .nil⟩
  | cons target targets ih =>
    simp only [assignComponents, bind_ok, require_ok, pure_ok] at h
    obtain ⟨x, _, ⟨hx, rfl⟩, t, s₁, hfirst, _, s₂, hc, more, s₃, hmore, rfl, rfl⟩ := h
    obtain ⟨rfl, -⟩ := checkConstant_ok hc
    obtain ⟨c, hcomponent, rfl⟩ := Option.map_eq_some_iff.1 hx
    obtain ⟨hle, rfl, hbinds⟩ := ih hmore
    obtain ⟨hlt, hget⟩ := List.getElem?_eq_some_iff.1 hcomponent
    have hdrop : v.components.drop index = c :: v.components.drop (index + 1) := by
      rw [← hget]
      exact List.drop_eq_getElem_cons hlt
    rw [hdrop]
    refine ⟨Nat.succ_le_succ hle, ?_, .cons hfirst hbinds⟩
    rw [List.zipWith_cons_cons, componentStmt, (assignTarget_places hfirst).1]

end Check

/-! ### What a target holds -/

namespace Machine

variable {m m' : Machine} {t t' : TypedTarget} {i : Item} {targets : List TypedTarget}
  {items rest : List Item}

/-- The item that a target holds. -/
def held (m : Machine) : TypedTarget → Option Item
  | .var x => m.env.get? x
  | .output k => m.outputs[k]?
  | .ignore => none

theorem held_stack (m : Machine) (stack : List Item) (t : TypedTarget) :
    ({ m with stack } : Machine).held t = m.held t := by
  cases t <;> rfl

/-- The running definition has the output that a target is. -/
def Offers (m : Machine) (t : TypedTarget) : Prop := ∀ k, t = .output k → k < m.outputs.length

theorem length_outputs_storeItem (m : Machine) (i : Item) (t : TypedTarget) :
    (m.storeItem i t).outputs.length = m.outputs.length := by
  cases t with
  | var | ignore => rfl
  | output => exact List.length_set

theorem length_outputs_storeItems (m : Machine) (pairs : List (TypedTarget × Item)) :
    (m.storeItems pairs).outputs.length = m.outputs.length := by
  induction pairs with
  | nil => rfl
  | cons p pairs ih => rw [storeItems, length_outputs_storeItem, ih]

theorem tree_storeItems (m : Machine) (pairs : List (TypedTarget × Item)) :
    (m.storeItems pairs).tree = m.tree := by
  induction pairs with
  | nil => rfl
  | cons p pairs ih =>
    rw [storeItems, ← ih]
    cases p.1 <;> rfl

/-- A target holds the item that was stored to it, and another one what it held before. -/
theorem held_storeItem (ht' : m.Offers t') (ht : t ≠ .ignore) :
    (m.storeItem i t').held t = if t' = t then some i else m.held t := by
  cases t' with
  | var x =>
    cases t with
    | var y => simp [storeItem, held, Table.get?_insert, eq_comm]
    | output | ignore => rfl
  | output k =>
    cases t with
    | output j =>
      have hlt : k < m.outputs.length := ht' k rfl
      simp [storeItem, held, List.getElem?_set, hlt]
    | var | ignore => rfl
  | ignore => rw [if_neg (Ne.symm ht)]; rfl

/-- A target holds the item at its first place, since targets take their items from the last to the
first and each store replaces what was there. The induction is on the targets. -/
theorem held_storeItems (items : List Item) (hin : ∀ t ∈ targets, m.Offers t) (ht : t ≠ .ignore) {k : Nat}
    (hk : targets[k]? = some t) (hfirst : ∀ j < k, targets[j]? ≠ some t)
    (hle : targets.length ≤ items.length) :
    (m.storeItems (targets.zip items)).held t = items[k]? := by
  induction targets generalizing items k with
  | nil => cases hk
  | cons target targets ih =>
    rcases items with _ | ⟨i, items⟩
    · cases hle
    have hoffers : (m.storeItems (targets.zip items)).Offers target := by
      intro j hj
      rw [length_outputs_storeItems]
      exact hin target (.head _) j hj
    rw [List.zip_cons_cons, storeItems, held_storeItem hoffers ht]
    cases k with
    | zero =>
      cases hk
      exact if_pos rfl
    | succ k =>
      rw [if_neg fun heq => hfirst 0 (Nat.succ_pos k) (congrArg some heq)]
      exact ih items (fun t ht => hin t (.tail _ ht)) hk (fun j hj => hfirst (j + 1) (Nat.succ_lt_succ hj))
        (Nat.le_of_succ_le_succ hle)

/-! ### Storing the parts of a value -/

/-- Storing to a target succeeds if there is an item on the stack and the target is offered. -/
theorem store_runs (hs : m.stack = i :: rest) (ht : m.Offers t) :
    runOp (Lower.store t) m = .ok (({ m with stack := rest } : Machine).storeItem i t) := by
  have hpop : m.pop = .ok (i, { m with stack := rest }) := by rw [pop, hs]
  cases t with
  | var x => exact bindVar_runs hs
  | output k =>
    change m.setFunctionOut k = _
    rw [setFunctionOut, bind_of_ok hpop]
    exact if_pos (ht k rfl)
  | ignore =>
    change (m.pop >>= _) = _
    rw [bind_of_ok hpop]
    rfl

/-- Storing to several targets succeeds if each is offered and there are as many items on the
stack. -/
theorem stores_run (targets : List TypedTarget) (hin : ∀ t ∈ targets, m.Offers t) (hlen : targets.length ≤ m.stack.length) :
    ∃ m', runOps (targets.map Lower.store) m = .ok m' := by
  induction targets generalizing m with
  | nil => exact ⟨m, rfl⟩
  | cons target targets ih =>
    cases hs : m.stack with
    | nil =>
      rw [hs] at hlen
      cases hlen
    | cons i rest =>
      rw [hs] at hlen
      have hfirst := store_runs hs (hin target (.head _))
      obtain ⟨m', hrest⟩ := ih (m := ({ m with stack := rest } : Machine).storeItem i target)
        (fun t ht k hk => by
          rw [length_outputs_storeItem]
          exact hin t (.tail _ ht) k hk)
        (by rw [stack_storeItem]; exact Nat.le_of_succ_le_succ hlen)
      exact ⟨m', run_bind_ok.2 ⟨_, hfirst, hrest⟩⟩

/-- The ops that unpack a bundle run, and store its first parts in the targets. -/
theorem unpackOps_runs (hin : ∀ t ∈ targets, m.Offers t) (hle : targets.length ≤ items.length)
    (hs : m.stack = .bundle items :: rest) :
    runOps (unpackOps targets items.length) m =
      .ok (({ m with stack := rest } : Machine).storeItems (targets.zip items)) := by
  have hsplit : runOp .splitStruct m = .ok { m with stack := items.reverse ++ rest } := by
    rw [runOp, splitBundle, pop, hs]
    rfl
  let front := (items.drop targets.length).reverse
  have hfront : items.length - targets.length = front.length := by simp [front]
  have hcut : items.reverse ++ rest = front ++ ((items.take targets.length).reverse ++ rest) := by
    rw [← List.append_assoc, ← List.reverse_append, List.take_append_drop]
  have hpops := pops_run (m := { m with stack := items.reverse ++ rest }) front _ hcut
  obtain ⟨m', hstores⟩ := stores_run targets.reverse
    (m := { m with stack := (items.take targets.length).reverse ++ rest })
    (fun t ht => hin t (List.mem_reverse.1 ht)) (by simp; omega)
  have hrun : runOps (unpackOps targets items.length) m = .ok m' := by
    rw [unpackOps, hfront, runOps_append]
    exact run_bind_ok.2 ⟨_, run_bind_ok.2 ⟨_, hsplit, hpops⟩, hstores⟩
  rw [hrun, unpackOps_ok hle hs hrun]

end Machine

/-- The tree after a node that splits an item is added. -/
def NodeTree.splitting (t : NodeTree) (split : Overload) (i : Item) : NodeTree :=
  (t.push {
    id := t.nodes.size
    key := split.node.key
    props := Table.insertAll ∅ split.node.props }).feedAll t.nodes.size (split.node.inputs.zip [i])

/-- The parts of the value that lies on the stack as an item, and the tree with what is needed to have
them: a bundle has its parts, and any other item is split by a node. -/
inductive Unpacked (tree : TreeKind) (e : TypedExpr) (t : NodeTree) :
    Item → List Item → NodeTree → Prop where
  | bundle {items : List Item} : e.shape = .bundle → Unpacked tree e t (.bundle items) items t
  | single {type : SocketType} {split : Overload} {i : Item} : e.shape = .single →
      e.types.head? = some type → tree.separate type = some split →
      Unpacked tree e t i (nodeItems t.nodes.size split.node.outputs split.outputTypes)
        (t.splitting split i)

section
variable {m m' : Machine} {i : Item} {rest : List Item}

/-- Splitting a value adds one node, feeds the value to its only input, and pushes the bundle of the
node's outputs. -/
theorem split_run {tree : TreeKind} {type : SocketType} {split : Overload}
    (hsplit : tree.separate type = some split) (hi : i.Plain) (hs : m.stack = i :: rest) :
    runOp split.op m = .ok { m with
      stack := .bundle (nodeItems m.tree.nodes.size split.node.outputs split.outputTypes) :: rest
      tree := m.tree.splitting split i
      newest := some m.tree.nodes.size } := by
  obtain ⟨⟨hin, htwo, hout⟩, -⟩ := separate_join hsplit
  have htypes : split.outputTypes.length = split.node.outputs.length := by
    rw [Overload.outputTypes, List.length_map, hout]
  obtain ⟨m', -, hcall, -⟩ := callBuiltin_runs m split.node split.outputTypes [i] hs hin.symm
    (fun j hj => List.mem_singleton.1 hj ▸ hi) htypes
  refine Eq.trans hcall (congrArg Except.ok ?_)
  obtain ⟨args, rest', hs', hlen, -, rfl⟩ := callBuiltin_ok hcall
  -- The node has one input, so it takes the value and nothing else.
  obtain ⟨rfl, rfl⟩ : args = [i] ∧ rest' = rest := by
    rw [hin] at hlen
    obtain ⟨j, rfl⟩ := List.length_eq_one_iff.1 hlen
    rw [hs] at hs'
    cases hs'
    exact ⟨rfl, rfl⟩
  have hitems : 2 ≤ (nodeItems m.tree.nodes.size split.node.outputs split.outputTypes).length := by
    simp only [nodeItems, List.length_zipWith]
    omega
  generalize nodeItems m.tree.nodes.size split.node.outputs split.outputTypes = items at hitems
  rcases items with _ | ⟨a, _ | ⟨b, items⟩⟩
  · simp at hitems
  · simp at hitems
  · rfl

/-- The ops that store a value in several targets run, and the targets take its parts. A bundle is
taken apart as it is, and a vector or colour by the node that separates its components. -/
theorem storeAll_unpacks {tree : TreeKind} {e : TypedExpr} {types : List SocketType}
    {targets : List TypedTarget} (hu : Unpacks tree e types) (hmany : 2 ≤ targets.length)
    (hle : targets.length ≤ types.length) : ∃ storing, Lower.storeAll tree e targets = .ok storing ∧
      ∀ m i rest, m.stack = i :: rest → i.Shaped e.varType → (∀ t ∈ targets, m.Offers t) →
        ∃ (start : Machine) (parts : List Item), runOps storing m = .ok (start.storeItems (targets.zip parts)) ∧
          Unpacked tree e m.tree i parts start.tree ∧ parts.length = types.length ∧
          start.outputs = m.outputs := by
  obtain ⟨a, b, others, rfl⟩ : ∃ a b others, targets = a :: b :: others := by
    rcases targets with _ | ⟨a, _ | ⟨b, others⟩⟩
    · cases hmany
    · simp at hmany
    · exact ⟨a, b, others, rfl⟩
  cases hu with
  | bundle hshape =>
    refine ⟨unpackOps (a :: b :: others) e.types.length, ?_, fun m i rest hs hi hin => ?_⟩
    · simp only [Lower.storeAll, hshape]
      rfl
    cases hi with
    | single h =>
      have h : e.shape = .single := h
      rw [hshape] at h
      cases h
    | @bundle items _ _ hlen _ =>
      have hlen : items.length = e.types.length := hlen
      refine ⟨{ m with stack := rest }, items, ?_, .bundle hshape, hlen, rfl⟩
      rw [← hlen]
      exact unpackOps_runs hin (hlen ▸ hle) hs
  | @single type split hshape hh hsplit =>
    refine ⟨split.op :: unpackOps (a :: b :: others) split.outputs.length, ?_,
      fun m i rest hs hi hin => ?_⟩
    · simp only [Lower.storeAll, hshape, hh, hsplit]
      rfl
    cases hi with
    | bundle h =>
      have h : e.shape = .bundle := h
      rw [hshape] at h
      cases h
    | single _ hi =>
      obtain ⟨⟨-, -, hout⟩, -⟩ := separate_join hsplit
      let parts := nodeItems m.tree.nodes.size split.node.outputs split.outputTypes
      have hparts : parts.length = split.outputTypes.length := by
        simp [parts, nodeItems, Overload.outputTypes, hout]
      have hcount : split.outputs.length = parts.length := by simp [hparts, Overload.outputTypes]
      refine ⟨{ m with
        stack := rest
        tree := m.tree.splitting split i
        newest := some m.tree.nodes.size }, parts, ?_, .single hshape hh hsplit, hparts, rfl⟩
      refine run_bind_ok.2 ⟨_, split_run hsplit hi hs, ?_⟩
      rw [hcount]
      exact unpackOps_runs hin (hparts ▸ hle) rfl

end

/-! ### Storing the components of a constant -/

namespace Machine

variable {m m' m₁ : Machine} {t : TypedTarget} {c : Float}

/-- A target holds the output of a node that shows a number. -/
def HoldsFloat (m : Machine) (t : TypedTarget) (c : Float) : Prop :=
  ∃ (id : NodeId) (node : Node), m.held t = some (.socket ⟨id, 0, .float⟩) ∧
    m.tree.nodes[id]? = some node ∧ node.key = "ShaderNodeValue" ∧
    node.outputs.get? 0 = some (.float c)

/-- A run that appends to the tree and leaves the number of outputs. -/
structure Extends (m m' : Machine) : Prop where
  appends : Appends none m m'
  outputs : m'.outputs.length = m.outputs.length

/-- A machine that extends another one extends what that one extends. -/
theorem Extends.trans (h₁ : m.Extends m₁) (h₂ : m₁.Extends m') : m.Extends m' :=
  ⟨h₁.appends.trans h₂.appends, h₂.outputs.trans h₁.outputs⟩

theorem extends_stack (m : Machine) (stack : List Item) : m.Extends { m with stack } :=
  ⟨.of_eq rfl rfl, rfl⟩

theorem HoldsFloat.mono (h : m.HoldsFloat t c) (hheld : m'.held t = m.held t)
    (hextends : m.Extends m') : m'.HoldsFloat t c := by
  obtain ⟨id, node, hid, hnode, hrest⟩ := h
  exact ⟨id, node, hheld.trans hid, hextends.appends.getElem? hnode, hrest⟩

/-- The node that shows a number, as it is added to a tree. -/
def valueNode (id : NodeId) (name : String) (c : Float) : Node where
  id := id
  key := "ShaderNodeValue"
  label := some name
  outputs := Table.insert ∅ 0 (.float c)

theorem modifyNewest_push {t : NodeTree} {n : Node} (htree : m.tree = t.push n)
    (hnew : m.newest = some t.nodes.size) (f : Node → Node) :
    m.modifyNewest f = .ok { m with tree := t.push (f n) } := by
  rw [modifyNewest_runs hnew (by simp [htree]), htree, NodeTree.modifyNode_push]

/-- The input for a float adds one node that has the float as its output value, and pushes its
socket. -/
theorem valueInput_run (m : Machine) (name : String) (c : Float) :
    runOps (TreeKind.valueInput name c) m = .ok { m with
      stack := .socket ⟨m.tree.nodes.size, 0, .float⟩ :: m.stack
      tree := m.tree.push (valueNode m.tree.nodes.size name c)
      newest := some m.tree.nodes.size } := by
  obtain ⟨m₁, id, hcall, -, -, -, -⟩ := callBuiltin_runs m ⟨"ShaderNodeValue", [], [0], []⟩ [.float] []
    rfl rfl (List.forall_mem_nil _) rfl
  have hadded : m₁ = { m with
      stack := .socket ⟨m.tree.nodes.size, 0, .float⟩ :: m.stack
      tree := m.tree.push { id := m.tree.nodes.size, key := "ShaderNodeValue" }
      newest := some m.tree.nodes.size } := by
    obtain ⟨args, rest, hs, hlen, -, rfl⟩ := callBuiltin_ok hcall
    cases List.length_eq_zero_iff.1 hlen
    cases m
    cases hs
    rfl
  subst hadded
  let shown : Node := valueNode m.tree.nodes.size name c
  have hset := modifyNewest_push (m := { m with
      stack := .socket ⟨m.tree.nodes.size, 0, .float⟩ :: m.stack
      tree := m.tree.push { id := m.tree.nodes.size, key := "ShaderNodeValue" }
      newest := some m.tree.nodes.size }) rfl rfl
    fun n => { n with outputs := n.outputs.insert 0 (.float c) }
  have hname := modifyNewest_push (m := { m with
      stack := .socket ⟨m.tree.nodes.size, 0, .float⟩ :: m.stack
      tree := m.tree.push { shown with label := none }
      newest := some m.tree.nodes.size }) rfl rfl fun n => { n with label := some name }
  exact run_bind_ok.2 ⟨_, hcall, run_bind_ok.2 ⟨_, hset, run_bind_ok.2 ⟨_, hname, rfl⟩⟩⟩

theorem constantInput_float (tree : TreeKind) (name : String) (c : Float) :
    tree.constantInput name (.float c) = .ok (TreeKind.valueInput name c) := by
  cases tree <;> rfl

/-- A target takes the output of the node for a number. The node is new, no older one changes, and
all other targets hold what they held. -/
theorem storeFloat_run (ht : m.Offers t) (hne : t ≠ .ignore) (name : String) (c : Float) :
    ∃ m', runOps (TreeKind.valueInput name c ++ [Lower.store t]) m = .ok m' ∧ m.Extends m' ∧
      m'.HoldsFloat t c ∧ ∀ u, u ≠ t → m'.held u = m.held u := by
  let start : Machine := { m with
    tree := m.tree.push (valueNode m.tree.nodes.size name c)
    newest := some m.tree.nodes.size }
  let socket : Item := .socket ⟨m.tree.nodes.size, 0, .float⟩
  have hstart : start.Offers t := ht
  have hstore : runOp (Lower.store t) (start.push socket) = .ok (start.storeItem socket t) :=
    store_runs rfl ht
  have htree : (start.storeItem socket t).tree = start.tree := by cases t <;> rfl
  have hadded : Appends none m start := ⟨(NodeTree.Grows.refl m.tree).push _, List.prefix_rfl⟩
  have hstored : Appends none start (start.storeItem socket t) := by
    cases t <;> exact .of_eq rfl rfl
  refine ⟨start.storeItem socket t, ?_, ⟨hadded.trans hstored, ?_⟩, ?_, fun u hu => ?_⟩
  · rw [runOps_append, valueInput_run]
    exact run_bind_ok.2 ⟨_, rfl, run_bind_ok.2 ⟨_, hstore, rfl⟩⟩
  · exact length_outputs_storeItem start socket t
  · refine ⟨m.tree.nodes.size, valueNode m.tree.nodes.size name c, ?_, ?_, rfl, rfl⟩
    · rw [held_storeItem hstart hne, if_pos rfl]
    · rw [htree]
      exact Array.getElem?_push_size
  · cases u with
    | ignore => rfl
    | var | output =>
      rw [held_storeItem hstart TypedTarget.noConfusion, if_neg (Ne.symm hu)]
      rfl

end Machine

section
variable (ctx : Context) (span : Span)

/-- The ops that assign a number to a name: the node for the number, labelled with the name, and a
store to the variable or output that the name stands for. -/
theorem assignConstant_place (x : String) (c : Float) :
    Lower.assignConstant ctx.tree ctx.outputNames [ctx.place x] (.float c) =
      .ok (TreeKind.valueInput x c ++ [Lower.store (ctx.place x)]) := by
  have hinput := constantInput_float ctx.tree x c
  cases hplace : ctx.place x with
  | var y =>
    obtain rfl := Context.eq_of_place_var hplace
    rw [Lower.assignConstant, hinput]
    rfl
  | output k =>
    rw [Lower.assignConstant]
    simp only [Context.outputNames_of_place hplace, hinput]
    rfl
  | ignore => exact absurd hplace (ctx.place_ne_ignore x)

/-- The statement for a component of a constant runs, and the name holds the component behind it. For
the target that drops its value no node is added. -/
theorem componentStmt_runs (target : Target) (c : Float) (n : Nat) :
    ∃ ops, Lower.stmt ctx.tree ctx.outputNames (Check.componentStmt ctx span target c) n = .ok (ops, n) ∧
      ∀ m, m.outputs.length = ctx.outputNames.length → ∃ m', runOps ops m = .ok m' ∧ m.Extends m' ∧
        (∀ x, target.name? = some x → m'.HoldsFloat (ctx.place x) c) ∧
        ∀ x, target.name? ≠ some x → m'.held (ctx.place x) = m.held (ctx.place x) := by
  cases target with
  | ignore =>
    refine ⟨[.endOfStatement], rfl, fun m _ => ⟨{ m with stack := [] }, rfl, m.extends_stack [],
      fun x hx => ?_, fun x _ => m.held_stack [] _⟩⟩
    cases hx
  | name x span' =>
    refine ⟨TreeKind.valueInput x c ++ [Lower.store (ctx.place x)] ++ [.endOfStatement], ?_,
      fun m hm => ?_⟩
    · exact Lower.bind_ok (Lower.lift_ok (assignConstant_place ctx x c) n) rfl
    have hoffers : m.Offers (ctx.place x) := by
      intro k hk
      rw [hm]
      exact (List.getElem?_eq_some_iff.1 (Context.outputNames_of_place hk)).1
    obtain ⟨m₁, hrun, hextends, hholds, hothers⟩ :=
      storeFloat_run hoffers (ctx.place_ne_ignore x) x c
    have hend := m₁.extends_stack []
    refine ⟨{ m₁ with stack := [] }, ?_, hextends.trans hend, fun y hy => ?_, fun y hy => ?_⟩
    · rw [runOps_append, hrun]
      rfl
    · cases hy
      exact hholds.mono (m₁.held_stack [] _) hend
    · rw [held_stack, hothers]
      intro heq
      exact hy (congrArg some (ctx.place_injective heq).symm)

/-- The statements for the components of a constant run, and each name holds the component at its
last place. The induction is on the targets: what a later statement stores to a name replaces what an
earlier one did. -/
theorem componentStmts_run (targets : List Target) (cs : List Float) (hle : targets.length ≤ cs.length)
    (n : Nat) : ∃ ops, Lower.stmts ctx.tree ctx.outputNames
      (List.zipWith (Check.componentStmt ctx span) targets cs) n = .ok (ops, n) ∧
      ∀ m, m.outputs.length = ctx.outputNames.length → ∃ m', runOps ops m = .ok m' ∧ m.Extends m' ∧
        (∀ x k, LastAt targets x k → ∃ c, cs[k]? = some c ∧ m'.HoldsFloat (ctx.place x) c) ∧
        ∀ x, (∀ k, ¬ NameAt targets x k) → m'.held (ctx.place x) = m.held (ctx.place x) := by
  induction targets generalizing cs with
  | nil =>
    refine ⟨[], rfl, fun m _ => ⟨m, rfl, m.extends_stack m.stack, fun x k hk => ?_, fun _ _ => rfl⟩⟩
    cases hk.here
  | cons target targets ih =>
    rcases cs with _ | ⟨c, cs⟩
    · cases hle
    obtain ⟨first, hfirst, hruns⟩ := componentStmt_runs ctx span target c n
    obtain ⟨others, hothers, hrest⟩ := ih cs (Nat.le_of_succ_le_succ hle)
    refine ⟨first ++ others, ?_, fun m hm => ?_⟩
    · rw [List.zipWith_cons_cons, Lower.stmts]
      exact Lower.bind_ok hfirst (Lower.bind_ok hothers rfl)
    obtain ⟨m₁, hrun₁, hextends₁, hheld₁, hsame₁⟩ := hruns m hm
    obtain ⟨m', hrun, hextends, hlast, hsame⟩ := hrest m₁ (hextends₁.outputs.trans hm)
    refine ⟨m', ?_, hextends₁.trans hextends, fun x k hk => ?_, fun x hno => ?_⟩
    · rw [runOps_append]
      exact run_bind_ok.2 ⟨m₁, hrun₁, hrun⟩
    · cases k with
      | zero => exact ⟨c, rfl, (hheld₁ x hk.here).mono (hsame x hk.not_tail) hextends⟩
      | succ k => exact hlast x k hk.of_cons
    · rw [hsame x fun k => hno (k + 1), hsame₁ x (hno 0)]

end

/-! ### Accepted assignments -/

/-- The types of the components of a value: numbers for a constant, and the types of its parts for any
other. -/
inductive ComponentTypes (tree : TreeKind) (e : TypedExpr) : List SocketType → Prop where
  | constant {v : Constant} : e.constant? = some v →
      ComponentTypes tree e (v.components.map fun _ => .float)
  | parts {types : List SocketType} : e.constant? = none → Unpacks tree e types →
      ComponentTypes tree e types

namespace Check

variable {ctx : Context} {s s' : Checker} {targets : List Target} {stmts : List TypedStmt}

/-- The statement that assigns the parts of a value runs where the value has been pushed, and each name
holds the part at its first place. -/
theorem assignParts_run {value : TypedExpr} {types : List SocketType} {n n' : Nat}
    {valueOps : List Op} (hv : value.constant? = none) (hu : Unpacks ctx.tree value types)
    (hmany : 2 ≤ targets.length) (hle : targets.length ≤ types.length)
    (hops : Lower.expr ctx.tree value n = .ok (valueOps, n')) :
    ∃ ops, Lower.stmts ctx.tree ctx.outputNames
        [.assign (targets.map ctx.placeTarget) value] n = .ok (ops, n') ∧
      ∀ m m₁ i rest, runOps valueOps m = .ok m₁ → m₁.stack = i :: rest → i.Shaped value.varType →
        m₁.outputs.length = ctx.outputNames.length →
        ∃ m' parts, runOps ops m = .ok m' ∧ Unpacked ctx.tree value m₁.tree i parts m'.tree ∧
          ∀ x k, FirstAt targets x k → ∃ part, parts[k]? = some part ∧
            m'.held (ctx.place x) = some part := by
  have hmany' : 2 ≤ (targets.map ctx.placeTarget).length := by rwa [List.length_map]
  have hle' : (targets.map ctx.placeTarget).length ≤ types.length := by rwa [List.length_map]
  obtain ⟨storing, hstoring, hstored⟩ := storeAll_unpacks hu hmany' hle'
  refine ⟨valueOps ++ storing ++ [.endOfStatement], ?_, fun m m₁ i rest hrun hs hi hlen => ?_⟩
  · have hstmt : Lower.stmt ctx.tree ctx.outputNames (.assign (targets.map ctx.placeTarget) value) n =
        .ok (valueOps ++ storing ++ [.endOfStatement], n') := by
      simp only [Lower.stmt, hv]
      exact Lower.bind_ok hops (Lower.bind_ok (Lower.lift_ok hstoring n') rfl)
    rw [Lower.stmts, Lower.bind_ok hstmt (Lower.bind_ok rfl rfl), List.append_nil]
  have hoffers : ∀ t ∈ targets.map ctx.placeTarget, m₁.Offers t := by
    rintro t ht k rfl
    obtain ⟨target, -, htarget⟩ := List.mem_map.1 ht
    rw [hlen]
    exact Context.placeTarget_eq_output htarget
  obtain ⟨start, parts, hstore, hunpacked, hparts, houtputs⟩ := hstored m₁ i rest hs hi hoffers
  let stored := start.storeItems ((targets.map ctx.placeTarget).zip parts)
  have hstoredRun : runOps (valueOps ++ storing) m = .ok stored := by
    rw [runOps_append, hrun]
    exact hstore
  refine ⟨{ stored with stack := [] }, parts, ?_, ?_, fun x k hk => ?_⟩
  · rw [runOps_append, hstoredRun]
    rfl
  · change Unpacked ctx.tree value m₁.tree i parts stored.tree
    rw [tree_storeItems]
    exact hunpacked
  · have hlt : k < parts.length := hparts ▸ Nat.lt_of_lt_of_le hk.here.lt_length hle
    have hstart : ∀ t ∈ targets.map ctx.placeTarget, start.Offers t := fun t ht j hj => by
      rw [houtputs]
      exact hoffers t ht j hj
    have hheld := held_storeItems parts hstart (ctx.place_ne_ignore x)
      (Context.getElem?_map_placeTarget.2 hk.here)
      (fun j hj heq => hk.before j hj (Context.getElem?_map_placeTarget.1 heq)) (hparts ▸ hle')
    refine ⟨parts[k], List.getElem?_eq_getElem hlt, ?_⟩
    rw [held_stack, hheld, List.getElem?_eq_getElem hlt]

/-- An accepted assignment with several targets, each of which takes a component of the value. In the
scope a name has the type of the component at its last place. Running the statements binds the name to
that component if the value is a constant, and otherwise to the component at its first place. -/
theorem assign_binds {e : Expr} (hmany : 2 ≤ targets.length)
    (h : assign ctx targets e s = .ok stmts s') : ∃ value s₁ types,
      expr ctx e s = .ok value s₁ ∧ ComponentTypes ctx.tree value types ∧
      (∀ x k, LastAt targets x k → ctx.output? x = none → ∃ type, types[k]? = some type ∧
        s'.scope.get? x = some (.value type)) ∧
      (∀ v, value.constant? = some v → ∀ n, ∃ ops,
        Lower.stmts ctx.tree ctx.outputNames stmts n = .ok (ops, n) ∧
        ∀ m, m.outputs.length = ctx.outputNames.length → ∃ m', runOps ops m = .ok m' ∧
          ∀ x k, LastAt targets x k → ∃ c, v.components[k]? = some c ∧
            m'.HoldsFloat (ctx.place x) c) ∧
      (value.constant? = none → ∀ n n' valueOps,
        Lower.expr ctx.tree value n = .ok (valueOps, n') → ∃ ops,
        Lower.stmts ctx.tree ctx.outputNames stmts n = .ok (ops, n') ∧
        ∀ m m₁ i rest, runOps valueOps m = .ok m₁ → m₁.stack = i :: rest → i.Shaped value.varType →
          m₁.outputs.length = ctx.outputNames.length →
          ∃ m' parts, runOps ops m = .ok m' ∧ Unpacked ctx.tree value m₁.tree i parts m'.tree ∧
            ∀ x k, FirstAt targets x k → ∃ part, parts[k]? = some part ∧
              m'.held (ctx.place x) = some part) := by
  simp only [assign, bind_ok, valueType_ok] at h
  obtain ⟨value, s₁, hvalue, type, _, ⟨hh, rfl⟩, h⟩ := h
  have h : assignMany ctx targets value type s₁ = .ok stmts s' := by
    rcases targets with _ | ⟨a, _ | ⟨b, others⟩⟩
    · cases hmany
    · simp at hmany
    · exact h
  simp only [assignMany, bind_ok, require_ok, guard_ok] at h
  obtain ⟨types, _, ⟨hparts, rfl⟩, hlen, h⟩ := h
  cases hv : value.constant? with
  | some v =>
    simp only [hv] at h
    obtain ⟨hle, rfl, hbinds⟩ := assignComponents_binds h
    refine ⟨value, s₁, _, hvalue, .constant hv, fun x k hk hx => (hbinds x hx).1 k hk,
      fun w hw n => ?_, fun hnone => ?_⟩
    · rw [hv] at hw
      cases hw
      obtain ⟨ops, hops, hruns⟩ := componentStmts_run ctx value.span targets
        (v.components.drop 0) hle n
      refine ⟨ops, hops, fun m hm => ?_⟩
      obtain ⟨m', hrun, -, hlast, -⟩ := hruns m hm
      exact ⟨m', hrun, hlast⟩
    · rw [hv] at hnone
      cases hnone
  | none =>
    simp only [hv, bind_ok, pure_ok] at h
    obtain ⟨bound, s₂, hbound, rfl, rfl⟩ := h
    have hle := Nat.le_of_not_lt hlen
    obtain ⟨rfl, hbinds⟩ := assignParts_binds hle hbound
    have hunpacks := partTypes?_some hh hparts
    refine ⟨value, s₁, types, hvalue, .parts hv hunpacks, fun x k hk hx => (hbinds x hx).1 k hk,
      fun w hw => ?_, fun _ n n' valueOps hops => ?_⟩
    · rw [hv] at hw
      cases hw
    · exact assignParts_run hv hunpacks hmany hle hops

/-- The targets `a, b, a`. -/
def mirroredTargets : List Target := [.name "a" ⟨0, 1⟩, .name "b" ⟨3, 4⟩, .name "a" ⟨6, 7⟩]

/-- The vector `\x7bx, y, z\x7d` of free variables. -/
def freeVector : Expr :=
  .vector [.name "x" ⟨11, 12⟩, .name "y" ⟨14, 15⟩, .name "z" ⟨17, 18⟩] ⟨10, 19⟩

/-- A machine that has run nothing. -/
def blankMachine : Machine where
  tree := { name := "Formula", kind := .geometry }

/-- The value and the state that a step of checking ends with. -/
def result? {α : Type} (x : Check α) (s : Checker) : Option (α × Checker) :=
  match x s with
  | .ok a s' => some (a, s')
  | .error _ _ => none

/-- A step of checking that has a result has succeeded with it. -/
theorem ok_of_result? {α : Type} {x : Check α} {s : Checker} {r : α × Checker}
    (h : result? x s = some r) : x s = .ok r.1 r.2 := by
  unfold result? at h
  cases hx : x s with
  | ok a s' =>
    rw [hx] at h
    cases h
    rfl
  | error e s' =>
    rw [hx] at h
    cases h

/-- The targets `a, b, a` of a vector of free variables. The scope has a float for `a`, and `a` is
bound to the first component and `b` to the second. -/
theorem assign_binds_mirrored : ∃ stmts s' value valueOps n' m₁ i ops m' parts,
    assign { tree := .geometry } mirroredTargets freeVector {} = .ok stmts s' ∧
    Lower.expr .geometry value 0 = .ok (valueOps, n') ∧ runOps valueOps blankMachine = .ok m₁ ∧
    m₁.stack = [i] ∧ i.Shaped value.varType ∧ s'.scope.get? "a" = some (.value .float) ∧
    Lower.stmts .geometry [] stmts 0 = .ok (ops, n') ∧ runOps ops blankMachine = .ok m' ∧
    Unpacked .geometry value m₁.tree i parts m'.tree ∧
    (∃ part, parts[0]? = some part ∧ m'.held (.var "a") = some part) ∧
    ∃ part, parts[1]? = some part ∧ m'.held (.var "b") = some part := by
  have hchecked : (result? (assign { tree := .geometry } mirroredTargets freeVector) {}).any
      (fun r => r.2.scope.get? "a" = some (.value .float)) = true := by decide +kernel
  have hvalued : (result? (expr { tree := .geometry } freeVector) {}).any (fun r =>
      r.1.constant?.isNone && r.1.shape = .single && (Lower.expr .geometry r.1 0).toOption.any fun l =>
        (runOps l.1 blankMachine).toOption.any fun m₁ =>
          m₁.outputs.isEmpty && m₁.stack.map Item.type? = [some .vec3]) = true := by decide +kernel
  obtain ⟨⟨stmts, s'⟩, hassign, hscope⟩ := (Option.any_eq_true ..).1 hchecked
  obtain ⟨value, s₁, types, hvalue, -, -, -, hrun⟩ := assign_binds (by decide) (ok_of_result? hassign)
  obtain ⟨r, hr, hvalued⟩ := (Option.any_eq_true ..).1 hvalued
  rw [ok_of_result? hr] at hvalue
  cases hvalue
  simp only [Bool.and_eq_true, decide_eq_true_eq, Option.isNone_iff_eq_none] at hvalued
  obtain ⟨⟨hnone, hshape⟩, hlowered⟩ := hvalued
  obtain ⟨⟨valueOps, n'⟩, hops, hran⟩ := (Option.any_eq_true ..).1 hlowered
  obtain ⟨m₁, hm₁, hend⟩ := (Option.any_eq_true ..).1 hran
  simp only [Bool.and_eq_true, decide_eq_true_eq, List.isEmpty_iff] at hend
  obtain ⟨houtputs, hstack⟩ := hend
  obtain ⟨i, rest, hs, htype, hrest⟩ := List.map_eq_cons_iff.1 hstack
  cases List.map_eq_nil_iff.1 hrest
  have hshaped : i.Shaped r.1.varType := .single hshape (Item.plain_of_type? htype)
  obtain ⟨ops, hstmts, hbound⟩ := hrun hnone 0 n' valueOps (Compilation.ok_of_toOption hops)
  obtain ⟨m', parts, hrun', hunpacked, hheld⟩ := hbound blankMachine m₁ i []
    (Compilation.ok_of_toOption hm₁) hs hshaped (congrArg List.length houtputs)
  have ha : FirstAt mirroredTargets "a" 0 := ⟨rfl, fun j hj => absurd hj (Nat.not_lt_zero j)⟩
  have hb : FirstAt mirroredTargets "b" 1 := by
    refine ⟨rfl, fun j hj => ?_⟩
    obtain rfl := Nat.lt_one_iff.1 hj
    decide
  exact ⟨stmts, s', r.1, valueOps, n', m₁, i, ops, m', parts, ok_of_result? hassign,
    Compilation.ok_of_toOption hops, Compilation.ok_of_toOption hm₁, hs, hshaped,
    of_decide_eq_true hscope, hstmts, hrun', hunpacked, hheld "a" 0 ha, hheld "b" 1 hb⟩

end Check

namespace Compilation

/-- A formula that assigns two components of a vector to one name. -/
def repeatedTarget : Source where
  name := "formula"
  text := "a, a = \x7bx, y, z\x7d; b = sin(a);"

/-- The name is bound to the component at its first place: the sine takes the first output of the node
that splits the vector, and not the second. -/
theorem repeatedTarget_links : ∃ stmts result,
    check repeatedTarget { tree := .geometry } = .ok stmts ∧
    compile repeatedTarget { tree := .geometry } = .ok result ∧
    result.graph.tree.nodes.toList.map (·.key) = ["NodeReroute", "NodeReroute", "NodeReroute",
      "ShaderNodeCombineXYZ", "ShaderNodeSeparateXYZ", "ShaderNodeMath"] ∧
    result.graph.tree.incoming 5 = [⟨4, 0, 5, 0⟩] := by
  obtain ⟨stmts, result, hcheck, hcompile, hyields⟩ := exists_of_yields repeatedTarget
    { tree := .geometry }
    (fun _ result => result.graph.tree.nodes.toList.map (·.key) = ["NodeReroute", "NodeReroute",
        "NodeReroute", "ShaderNodeCombineXYZ", "ShaderNodeSeparateXYZ", "ShaderNodeMath"] ∧
      result.graph.tree.incoming 5 = [⟨4, 0, 5, 0⟩]) (by decide +kernel)
  exact ⟨stmts, result, hcheck, hcompile, of_decide_eq_true hyields⟩

end Compilation

end NodeFormula

import Mathlib.Data.List.TakeWhile
import NodeFormula.Formula.Statement

/-!
# The shape of parsed formulas

What every formula that comes out of the parser satisfies: its names are names and no keywords, its
integers are not negative, its vectors have three or four items, its strings have no quote, and so on.
The conditions are checked by `Program.shaped`. A flag says whether numbers with a fraction or an
exponent may occur.

`Program.shaped_of_parse` follows the readers: each one yields a value of the right shape if the
readers it uses do.
-/

namespace NodeFormula

/-! ### Shapes -/

/-- Whether a text has letters, digits and underscores only and does not start with a digit. -/
def Token.isWord (s : String) : Bool :=
  match s.toList with
  | [] => false
  | x :: rest => nameStart x && rest.all nameChar

/-- Whether a text is a name: a word that is no keyword. -/
def Token.isName (s : String) : Bool := isWord s && !keywords.contains s

mutual

/-- Whether an expression has the shape of a parsed one. -/
def Expr.shaped (floats : Bool) : Expr → Bool
  | .int v _ => decide (0 ≤ v.toInt)
  | .float _ _ => floats
  | .bool _ _ => true
  | .str s _ => !s.toList.contains '"'
  | .name n _ => Token.isName n
  | .vector items _ => (items.length == 3 || items.length == 4) && Expr.allShaped floats items
  | .unary _ e _ => e.shaped floats
  | .binary _ l r _ => l.shaped floats && r.shaped floats
  | .call f args _ => Token.isName f && Expr.allShaped floats args
  | .member e n _ => e.shaped floats && Token.isName n

/-- Whether expressions have the shape of parsed ones. -/
def Expr.allShaped (floats : Bool) : List Expr → Bool
  | [] => true
  | e :: es => e.shaped floats && Expr.allShaped floats es

end

/-- Whether a target has the shape of a parsed one: the name `_` stands for no variable. -/
def Target.shaped : Target → Bool
  | .name n _ => Token.isName n && n != "_"
  | .ignore _ => true

/-- Whether a parameter has the shape of a parsed one. -/
def Param.shaped (floats : Bool) (p : Param) : Bool :=
  Token.isName p.name && p.default.all (·.shaped floats)

/-- Whether the head of a definition has the shape of a parsed one. -/
def Header.shaped (floats : Bool) (h : Header) : Bool :=
  Token.isName h.name && h.inputs.all (·.shaped floats) && h.outputs.all (·.shaped floats)

/-- Whether an integer can be written as a loop bound: all but the least can. -/
def Word.isBound (n : Int64) : Bool := decide (-Word.bound < n.toInt)

mutual

/-- Whether a statement has the shape of a parsed one. -/
def Stmt.shaped (floats : Bool) : Stmt → Bool
  | .expr e _ => e.shaped floats
  | .assign targets e _ => !targets.isEmpty && targets.all Target.shaped && e.shaped floats
  | .setField target field e _ => Token.isName target && Token.isName field && e.shaped floats
  | .loop counter first last body _ =>
    counter.all Token.isName && Word.isBound first && Word.isBound last &&
      Stmt.allShaped floats body
  | .zone count body _ => count.shaped floats && Stmt.allShaped floats body
  | .define h body _ => h.shaped floats && Stmt.allShaped floats body

/-- Whether statements have the shape of parsed ones. -/
def Stmt.allShaped (floats : Bool) : List Stmt → Bool
  | [] => true
  | s :: ss => s.shaped floats && Stmt.allShaped floats ss

end

/-- Whether a program has the shape of a parsed one. -/
def Program.shaped (floats : Bool) (p : Program) : Bool := Stmt.allShaped floats p.items

/-- Expressions are of the right shape if each of them is, so that a list can be handled item by
item. -/
theorem Expr.allShaped_iff {floats : Bool} {es : List Expr} :
    Expr.allShaped floats es = true ↔ ∀ e ∈ es, e.shaped floats = true := by
  induction es with
  | nil => simp [allShaped]
  | cons e es ih => simp [allShaped, ih]

/-! ### Steps -/

namespace Reading

variable {α β : Type} {c : Cursor}

/-- Two readings in a row succeed if the first does and the second does on its value. The readers are
taken apart with this. -/
theorem bind_ok {x : Reading α} {f : α → Reading β} {b : β} :
    (x >>= f) = .ok b ↔ ∃ a, x = .ok a ∧ f a = .ok b := by
  cases x with
  | error e => exact ⟨nofun, nofun⟩
  | ok a => exact ⟨fun h => ⟨a, rfl, h⟩, fun ⟨_, h, h'⟩ => by cases h; exact h'⟩

/-- A reading that only gives a value gives that one. -/
theorem pure_ok {a b : α} : (pure a : Reading α) = .ok b ↔ a = b :=
  ⟨fun h => by cases h; rfl, fun h => by rw [h]; rfl⟩

/-- A reading with a changed value succeeds if the reading does. -/
theorem map_ok {x : Reading α} {f : α → β} {b : β} :
    Except.map f x = .ok b ↔ ∃ a, x = .ok a ∧ f a = b := by
  cases x with
  | error e => exact ⟨nofun, nofun⟩
  | ok a =>
    constructor
    · rintro ⟨⟩
      exact ⟨a, rfl, rfl⟩
    · rintro ⟨_, ⟨⟩, rfl⟩
      rfl

@[simp] theorem commit_ok {r : Reading α} {a : α} : commit r = .ok a ↔ r = .ok a := by
  cases r <;> simp [commit]

@[simp] theorem expecting_ok {e : Expectation} {r : Reading (Step c α)} {s : Step c α} :
    expecting e r = .ok s ↔ r = .ok s := by
  cases r <;> simp [expecting]

@[simp] theorem choice_ok {r : Reading (Step c α)} {s : Step c α} :
    choice r = .ok s ↔ r = .ok s := by
  cases r <;> simp [choice]

/-- One of two readings has succeeded, the second only after a soft failure of the first. Which one
it was does not matter for shapes. -/
theorem orElse_ok {r : Reading (Step c α)} {other : Unit → Reading (Step c α)} {s : Step c α}
    (h : orElse r other = .ok s) : r = .ok s ∨ other () = .ok s := by
  cases r with
  | ok t => exact .inl h
  | error f =>
    simp only [orElse] at h
    split at h
    · cases h
    · exact .inr h

/-- An optional part is there, or has no value. If it has a value, then it was read as this value. -/
theorem optional_ok {r : Reading (Step c α)} {s : Reach c (Option α)} (h : optional r = .ok s)
    {a : α} (ha : s.value = some a) : ∃ t, r = .ok t ∧ t.value = a := by
  cases r with
  | ok t =>
    cases h
    exact ⟨t, rfl, by simpa [Step.reach, Step.map] using ha⟩
  | error f =>
    simp only [optional] at h
    split at h
    · cases h
    · cases h
      cases ha

end Reading

/-! ### Tokens -/

namespace Token

variable {c : Cursor}

/-- A token that was read after space was read at the cursor behind the space, with the same value
and the same end. -/
theorem lexeme_ok {α : Type} {read : (d : Cursor) → Reading (Step d α)} {s : Step c α}
    (h : lexeme read c = .ok s) :
    ∃ t, read (skipSpace c) = .ok t ∧ t.value = s.value ∧ t.next = s.next := by
  obtain ⟨t, ht, rfl⟩ := Reading.map_ok.1 h
  exact ⟨t, ht, rfl, rfl⟩

/-- What is read as a name is a name: it begins with a letter or an underscore, goes on with letters,
digits and underscores, and is no keyword. -/
theorem isName_of_name {s : Step c String} (h : name c = .ok s) : isName s.value = true := by
  unfold name at h
  split at h
  next => cases h
  next x rest hrest =>
    simp only at h
    split at h
    next hx =>
      cases h
      simp only [Bool.and_eq_true] at hx
      simp only [isName, isWord, String.toList_ofList, Bool.and_eq_true]
      exact ⟨⟨hx.1, List.all_eq_true.2 fun y hy => List.mem_takeWhile_imp hy⟩, hx.2⟩
    next => cases h

/-- What is read as a name after space is a name. -/
theorem isName_of_lexeme {s : Step c String} (h : lexeme name c = .ok s) :
    isName s.value = true := by
  obtain ⟨t, ht, hv, -⟩ := lexeme_ok h
  rw [← hv]
  exact isName_of_name ht

/-- A string that was read holds no quote, since the first quote ends it. -/
theorem quote_notMem_of_string {s : Step c String} (h : string c = .ok s) :
    '"' ∉ s.value.toList := by
  unfold string at h
  split at h
  next rest hrest =>
    split at h
    next => cases h
    next q after hd =>
      cases h
      rw [String.toList_ofList]
      intro hq
      simpa using List.mem_takeWhile_imp hq
  next => cases h

/-- An integer that was read is not negative: a sign is an operator in front of it, and too large a
number is refused. -/
theorem nonneg_of_number {s : Step c Number} (h : number c = .ok s) {n : Int64}
    (hn : s.value = .int n) : 0 ≤ n.toInt := by
  unfold number at h
  simp only at h
  split at h
  next => cases h
  next =>
    split at h
    next =>
      split at h
      next m hm =>
        cases h
        cases hn
        rw [Word.toInt_of_ofInt? hm]
        exact Int.natCast_nonneg _
      next => cases h
    next =>
      cases h
      cases hn

end Token

/-! ### Lists -/

/-- What is read has a property. -/
def Reading.Yields {α : Type} {c : Cursor} (P : α → Prop) (r : Reading (Step c α)) : Prop :=
  ∀ s, r = .ok s → P s.value

/-- An expression that is read has the right shape. -/
abbrev Reading.YieldsShaped {c : Cursor} (r : Reading (Step c Expr)) : Prop :=
  r.Yields fun e => e.shaped true = true

namespace Expression

open Token Reading

variable {base c : Cursor}

section
variable {α : Type} {P : α → Prop} {item : (d : Cursor) → base < d → Reading (Step d α)}

/-- Further items of a list satisfy what each item does, by induction on the rest of the source. -/
theorem forall_mem_moreItems (hitem : ∀ d h, (item d h).Yields P) {h : base ≤ c}
    {r : Reach c (List α)} (hr : moreItems item c h = .ok r) : ∀ a ∈ r.value, P a := by
  induction hn : c.rest.length using Nat.strong_induction_on generalizing c with
  | _ n ih =>
    rw [moreItems] at hr
    split at hr
    next => cases hr; exact List.forall_mem_nil _
    next comma _ =>
      split at hr
      next =>
        split at hr
        next => cases hr
        next => cases hr; exact List.forall_mem_nil _
      next first hfirst =>
        obtain ⟨more, hmore, hr⟩ := bind_ok.1 hr
        cases hr
        have hlt := hn ▸ Cursor.length_lt (comma.andThen first).later
        exact List.forall_mem_cons.2 ⟨hitem _ _ first hfirst, ih _ hlt hmore rfl⟩

/-- The items of a list satisfy what its item reader yields. -/
theorem yields_items (hitem : ∀ d h, (item d h).Yields P) (h : base < c) :
    (items item c h).Yields fun as => ∀ a ∈ as, P a := by
  intro s hs
  obtain ⟨first, hfirst, hs⟩ := bind_ok.1 hs
  obtain ⟨more, hmore, hs⟩ := bind_ok.1 hs
  cases hs
  exact List.forall_mem_cons.2 ⟨hitem _ _ first hfirst, forall_mem_moreItems hitem hmore⟩

/-- The items of a list that may be empty satisfy what its item reader yields. -/
theorem forall_mem_optionalItems (hitem : ∀ d h, (item d h).Yields P) {h : base < c}
    {r : Reach c (List α)} (hr : optionalItems item c h = .ok r) : ∀ a ∈ r.value, P a := by
  obtain ⟨list, hlist, hr⟩ := bind_ok.1 hr
  cases hr
  intro a ha
  simp only [Reach.map] at ha
  cases hv : list.value with
  | none => simp [hv] at ha
  | some as =>
    obtain ⟨t, ht, rfl⟩ := optional_ok hlist hv
    rw [hv] at ha
    exact yields_items hitem _ t ht a ha

end

/-! ### Expressions -/

/-- Numbers, strings, truth values and names come out in the right shape, each from what its token
reader says. -/
theorem atom_shaped (c : Cursor) : (atom c).YieldsShaped := by
  intro s h
  rcases orElse_ok h with h | h
  · obtain ⟨t, ht, rfl⟩ := map_ok.1 h
    simp only [Step.map]
    split
    next v hv => exact decide_eq_true (nonneg_of_number ht hv)
    next => rfl
  rcases orElse_ok h with h | h
  · obtain ⟨t, ht, rfl⟩ := map_ok.1 h
    simpa [Step.map, Expr.shaped] using quote_notMem_of_string ht
  rcases orElse_ok h with h | h
  · obtain ⟨t, -, rfl⟩ := map_ok.1 h
    rfl
  rcases orElse_ok h with h | h
  · obtain ⟨t, -, rfl⟩ := map_ok.1 h
    rfl
  · obtain ⟨t, ht, rfl⟩ := map_ok.1 h
    exact isName_of_name ht

/-- Where an expression stands has no influence on its shape. Parentheses move an expression and do
nothing else. -/
theorem shaped_withSpan (floats : Bool) (e : Expr) (span : Span) :
    (e.withSpan span).shaped floats = e.shaped floats := by
  cases e <;> rfl

/-- An operator between two expressions of the right shape gives one. -/
theorem shaped_join {floats : Bool} {l r : Expr} (op : BinaryOp) (hl : l.shaped floats = true)
    (hr : r.shaped floats = true) : (Expr.join op l r).shaped floats = true :=
  Bool.and_eq_true_iff.2 ⟨hl, hr⟩

section
variable {inner : After base} (hinner : ∀ d h, (inner d h).YieldsShaped)
include hinner

/-- A vector has three or four items, since any other number is refused, and the items come out in
the right shape. -/
theorem vector_shaped (h : base ≤ c) : (vector inner c h).YieldsShaped := by
  intro s hs
  obtain ⟨opened, -, hs⟩ := bind_ok.1 hs
  obtain ⟨list, hlist, hs⟩ := bind_ok.1 hs
  obtain ⟨closed, -, hs⟩ := bind_ok.1 hs
  split at hs
  next hlen =>
    cases hs
    have hitems := yields_items hinner _ list (commit_ok.1 hlist)
    simpa [Step.map, Expr.shaped, Expr.allShaped_iff] using ⟨hlen, hitems⟩
  next => cases hs

/-- An expression in parentheses is the one inside them, at another place. -/
theorem parenthesized_shaped (h : base ≤ c) : (parenthesized inner c h).YieldsShaped := by
  intro s hs
  obtain ⟨opened, -, hs⟩ := bind_ok.1 hs
  obtain ⟨body, hbody, hs⟩ := bind_ok.1 hs
  obtain ⟨closed, -, hs⟩ := bind_ok.1 hs
  cases hs
  exact (shaped_withSpan ..).trans (hinner _ _ body (commit_ok.1 hbody))

/-- A primary expression is an atom, a vector or an expression in parentheses, and each of them has
the right shape. -/
theorem primary_shaped (h : base ≤ c) : (primary inner c h).YieldsShaped := by
  intro s hs
  obtain ⟨t, ht, rfl⟩ := map_ok.1 hs
  rcases orElse_ok (choice_ok.1 (expecting_ok.1 ht)) with ht | ht
  · exact atom_shaped _ t ht
  rcases orElse_ok ht with ht | ht
  · exact vector_shaped hinner _ t ht
  · exact parenthesized_shaped hinner _ t ht

/-- A call or member access of an expression of the right shape has the right shape. Only a name is
called, and the arguments and the name of a member are read in the right shape too. -/
theorem suffix_shaped {e : Expr} (he : e.shaped true = true) {h : base ≤ c} {s : Step c Expr}
    (hs : suffix inner e c h = .ok (some s)) : s.value.shaped true = true := by
  unfold suffix at hs
  split at hs
  next opened _ =>
    split at hs
    next f span =>
      obtain ⟨args, hargs, hs⟩ := bind_ok.1 hs
      cases hs
      obtain ⟨list, hlist, hargs⟩ := bind_ok.1 hargs
      obtain ⟨closed, -, hargs⟩ := bind_ok.1 hargs
      cases hargs
      have hitems := forall_mem_optionalItems hinner hlist
      have hf : isName f = true := he
      simpa [Step.map, Step.andThen, Reach.andThen, Expr.shaped, Expr.allShaped_iff, hf] using hitems
    next => cases hs
  next =>
    split at hs
    next dot _ =>
      obtain ⟨field, hfield, hs⟩ := bind_ok.1 hs
      cases hs
      have hn := isName_of_lexeme (expecting_ok.1 (commit_ok.1 hfield))
      simpa [Step.map, Step.andThen, Expr.shaped, he] using hn
    next => cases hs

/-- Calls and members that follow an expression keep the shape, by induction on the rest of the
source: only a name is called, and what follows a point is a name. -/
theorem suffixes_shaped {e : Expr} (he : e.shaped true = true) {h : base ≤ c} {r : Reach c Expr}
    (hr : suffixes inner e c h = .ok r) : r.value.shaped true = true := by
  induction hn : c.rest.length using Nat.strong_induction_on generalizing e c with
  | _ n ih =>
    rw [suffixes] at hr
    obtain ⟨found, hfound, hr⟩ := bind_ok.1 hr
    cases found with
    | none => cases hr; exact he
    | some s =>
      obtain ⟨more, hmore, hr⟩ := bind_ok.1 hr
      cases hr
      have hlt : s.next.rest.length < n := hn ▸ Cursor.length_lt s.later
      exact ih _ hlt (c := s.next) (r := more) (suffix_shaped hinner he hfound) hmore rfl

/-- A primary expression with its calls and members has the right shape. -/
theorem postfixed_shaped (h : base ≤ c) : (postfixed inner c h).YieldsShaped := by
  intro s hs
  obtain ⟨first, hfirst, hs⟩ := bind_ok.1 hs
  obtain ⟨whole, hwhole, hs⟩ := bind_ok.1 hs
  cases hs
  exact suffixes_shaped hinner (primary_shaped hinner _ first hfirst) (r := whole) hwhole

/-- Negations and powers have the right shape, by induction on the rest of the source. -/
theorem unary_shaped (h : base ≤ c) : (unary inner c h).YieldsShaped := by
  induction hn : c.rest.length using Nat.strong_induction_on generalizing c with
  | _ n ih =>
    intro s hs
    rw [unary] at hs
    split at hs
    next minus _ =>
      obtain ⟨operand, hoperand, hs⟩ := bind_ok.1 hs
      cases hs
      exact ih _ (hn ▸ Cursor.length_lt minus.later) _ rfl operand (commit_ok.1 hoperand)
    next =>
      obtain ⟨first, hfirst, hs⟩ := bind_ok.1 hs
      have hshaped := postfixed_shaped hinner _ first hfirst
      split at hs
      next => cases hs; exact hshaped
      next stars _ =>
        obtain ⟨exponent, hexponent, hs⟩ := bind_ok.1 hs
        cases hs
        exact shaped_join .pow hshaped (ih _ (hn ▸ Cursor.length_lt (first.andThen stars).later) _ rfl
          exponent (commit_ok.1 hexponent))

end

section
variable {operator : OperatorReader} {operand : From base}
  (hoperand : ∀ d h, (operand d h).YieldsShaped)
include hoperand

/-- Further operands keep the shape of what stands to their left, by induction on the rest of the
source. -/
theorem moreOperands_shaped {left : Expr} (hleft : left.shaped true = true) {h : base ≤ c}
    {r : Reach c Expr} (hr : moreOperands operator operand left c h = .ok r) :
    r.value.shaped true = true := by
  induction hn : c.rest.length using Nat.strong_induction_on generalizing left c with
  | _ n ih =>
    rw [moreOperands] at hr
    split at hr
    next => cases hr; exact hleft
    next op _ =>
      obtain ⟨right, hright, hr⟩ := bind_ok.1 hr
      obtain ⟨more, hmore, hr⟩ := bind_ok.1 hr
      cases hr
      have hlt : (op.andThen right).next.rest.length < n :=
        hn ▸ Cursor.length_lt (op.andThen right).later
      have hr' := hoperand _ _ right (commit_ok.1 hright)
      exact ih _ hlt (r := more) (shaped_join op.value hleft hr') hmore rfl

/-- Operands of one level with operators between them have the right shape if the operands do. -/
theorem chain_shaped (h : base ≤ c) : (chain operator operand c h).YieldsShaped := by
  intro s hs
  obtain ⟨first, hfirst, hs⟩ := bind_ok.1 hs
  obtain ⟨whole, hwhole, hs⟩ := bind_ok.1 hs
  cases hs
  exact moreOperands_shaped hoperand (hoperand _ _ first hfirst) (r := whole) hwhole

end

section
variable {inner : After base} (hinner : ∀ d h, (inner d h).YieldsShaped)
include hinner

/-- Sums have the right shape, as chains of products. -/
theorem sum_shaped (h : base ≤ c) : (sum inner c h).YieldsShaped :=
  chain_shaped (fun _ h => chain_shaped (fun _ h => unary_shaped hinner h) h) h

/-- A comparison has the right shape, with its mark or without it. -/
theorem comparison_shaped (h : base ≤ c) : (comparison inner c h).YieldsShaped := by
  intro s hs
  obtain ⟨left, hleft, hs⟩ := bind_ok.1 hs
  have hl := sum_shaped hinner _ left hleft
  split at hs
  next => cases hs; exact hl
  next op _ =>
    obtain ⟨right, hright, hs⟩ := bind_ok.1 hs
    cases hs
    exact shaped_join op.value hl (sum_shaped hinner _ right (commit_ok.1 hright))

/-- Logical negations have the right shape, by induction on the rest of the source. -/
theorem negation_shaped (h : base ≤ c) : (negation inner c h).YieldsShaped := by
  induction hn : c.rest.length using Nat.strong_induction_on generalizing c with
  | _ n ih =>
    intro s hs
    rw [negation] at hs
    split at hs
    next word _ =>
      obtain ⟨operand, hoperand, hs⟩ := bind_ok.1 hs
      cases hs
      exact ih _ (hn ▸ Cursor.length_lt word.later) _ rfl operand (commit_ok.1 hoperand)
    next =>
      obtain ⟨t, ht, rfl⟩ := map_ok.1 hs
      exact comparison_shaped hinner _ t ht

end

/-- Every expression that is read has the right shape. -/
theorem expression_shaped (c : Cursor) : (expression c).YieldsShaped := by
  induction hn : c.rest.length using Nat.strong_induction_on generalizing c with
  | _ n ih =>
    rw [expression]
    have hinner : ∀ d (_ : c < d), (expression d).YieldsShaped := fun d h =>
      ih _ (hn ▸ Cursor.length_lt h) d rfl
    exact chain_shaped (fun _ h => chain_shaped (fun _ h => negation_shaped hinner h) h) _

end Expression

/-! ### Statements -/

namespace Statement

open Token Expression Reading

variable {base c : Cursor}

/-- A target is a name or ignores its value; a name that is an underscore is read as the latter. -/
theorem target_shaped (c : Cursor) : (target c).Yields fun t => t.shaped = true := by
  intro s hs
  obtain ⟨word, hword, hs⟩ := bind_ok.1 hs
  cases hs
  have hn := isName_of_lexeme hword
  simp only [Step.map]
  split
  next => rfl
  next hne => simp [Target.shaped, hn, hne]

/-- A statement that is read has the right shape at any place. -/
abbrev YieldsStmt (r : Reading (Step c (Span → Stmt))) : Prop :=
  r.Yields fun f => ∀ span, (f span).shaped true = true

/-- An assignment has at least one target, all in the right shape, and a value in the right shape. -/
theorem assignment_shaped (c : Cursor) : YieldsStmt (assignment c) := by
  intro s hs span
  obtain ⟨first, hfirst, hs⟩ := bind_ok.1 hs
  obtain ⟨more, hmore, hs⟩ := bind_ok.1 hs
  obtain ⟨mark, -, hs⟩ := bind_ok.1 hs
  obtain ⟨value, hvalue, hs⟩ := bind_ok.1 hs
  cases hs
  have hf := target_shaped _ first hfirst
  have hm := forall_mem_moreItems (fun d _ => target_shaped d) hmore
  have hv := expression_shaped _ value (commit_ok.1 hvalue)
  simpa [Step.map, Step.andThen, Stmt.shaped, hf, hv] using hm

/-- An assignment to a component names the variable and the component by names. -/
theorem fieldAssignment_shaped (c : Cursor) : YieldsStmt (fieldAssignment c) := by
  intro s hs span
  obtain ⟨object, hobject, hs⟩ := bind_ok.1 hs
  obtain ⟨dot, -, hs⟩ := bind_ok.1 hs
  obtain ⟨field, hfield, hs⟩ := bind_ok.1 hs
  obtain ⟨mark, -, hs⟩ := bind_ok.1 hs
  obtain ⟨value, hvalue, hs⟩ := bind_ok.1 hs
  cases hs
  have hv := expression_shaped _ value (commit_ok.1 hvalue)
  simp [Step.map, Step.andThen, Stmt.shaped, isName_of_lexeme hobject, isName_of_lexeme hfield, hv]

/-- A simple statement is of one of three forms, and all of them have the right shape. -/
theorem simple_shaped (c : Cursor) : YieldsStmt (simple c) := by
  intro s hs span
  obtain ⟨body, hbody, hs⟩ := bind_ok.1 hs
  obtain ⟨mark, -, hs⟩ := bind_ok.1 hs
  cases hs
  rcases orElse_ok (choice_ok.1 hbody) with hbody | hbody
  · exact assignment_shaped _ body hbody span
  rcases orElse_ok hbody with hbody | hbody
  · exact fieldAssignment_shaped _ body hbody span
  · obtain ⟨e, he, rfl⟩ := map_ok.1 hbody
    exact expression_shaped _ e he

/-- A parameter has a name and, if it has a default, an expression in the right shape. -/
theorem parameter_shaped (c : Cursor) : (parameter c).Yields fun p => p.shaped true = true := by
  intro s hs
  obtain ⟨t, ht, rfl⟩ := map_ok.1 hs
  obtain ⟨word, hword, ht⟩ := bind_ok.1 ht
  obtain ⟨colon, -, ht⟩ := bind_ok.1 ht
  obtain ⟨type, -, ht⟩ := bind_ok.1 ht
  obtain ⟨preset, hpreset, ht⟩ := bind_ok.1 ht
  cases ht
  have hn := isName_of_name (expecting_ok.1 hword)
  have hp : preset.value.all (·.shaped true) = true := by
    cases hv : preset.value with
    | none => rfl
    | some e =>
      obtain ⟨t, ht, rfl⟩ := optional_ok hpreset hv
      obtain ⟨mark, -, ht⟩ := bind_ok.1 ht
      obtain ⟨value, hvalue, ht⟩ := bind_ok.1 ht
      cases ht
      exact expression_shaped _ value (commit_ok.1 hvalue)
  simp [Step.since, Step.map, Step.extend, Param.shaped, hn, hp]

/-- The outputs of a definition are parameters in the right shape. -/
theorem outputs_shaped (c : Cursor) :
    (outputs c).Yields fun ps => ∀ p ∈ ps, p.shaped true = true := by
  intro s hs
  obtain ⟨arrow, -, hs⟩ := bind_ok.1 hs
  obtain ⟨list, hlist, hs⟩ := bind_ok.1 hs
  cases hs
  exact yields_items (fun d _ => parameter_shaped d) _ list (commit_ok.1 hlist)

/-- An integer that is not negative is in the range of bounds, whose one missing integer is the
least. -/
theorem isBound_of_nonneg {n : Int64} (h : 0 ≤ n.toInt) : Word.isBound n = true :=
  decide_eq_true (Int.lt_of_lt_of_le (by decide) h)

/-- Within the range of bounds negation does not wrap around. -/
theorem toInt_neg_of_isBound {n : Int64} (h : Word.isBound n = true) : (-n).toInt = -n.toInt := by
  have hlt := Int64.toInt_lt n
  have hgt : -0x8000000000000000 < n.toInt := of_decide_eq_true h
  rw [Int64.toInt_neg, Int.bmod_eq_of_le] <;> omega

/-- The negative of an integer that is not negative is in the range of bounds, so a sign never leads
out of it. -/
theorem isBound_neg_of_nonneg {n : Int64} (h : 0 ≤ n.toInt) : Word.isBound (-n) = true := by
  have hlt := Int64.toInt_lt n
  refine decide_eq_true ?_
  rw [toInt_neg_of_isBound (isBound_of_nonneg h), Word.bound]
  omega

/-- A bound of a loop is an integer literal with an optional sign, and so never the least integer. -/
theorem bound_shaped (c : Cursor) : (bound c).Yields fun n => Word.isBound n = true := by
  intro s hs
  obtain ⟨t, ht, rfl⟩ := map_ok.1 hs
  obtain ⟨minus, -, ht⟩ := bind_ok.1 ht
  obtain ⟨digits, hdigits, ht⟩ := bind_ok.1 ht
  split at ht
  next n hn =>
    cases ht
    have h := nonneg_of_number (expecting_ok.1 hdigits) hn
    simp only [Step.since, Reach.andThen, Step.map]
    split
    · exact isBound_neg_of_nonneg h
    · exact isBound_of_nonneg h
  next => cases ht

section
variable {inner : StmtAfter base} (hinner : ∀ d h, (inner d h).Yields fun st => st.shaped true = true)
include hinner

/-- The statements of a block have the right shape, by induction on the rest of the source. -/
theorem statements_shaped {h : base < c} {r : Reach c (List Stmt)}
    (hr : statements inner c h = .ok r) : Stmt.allShaped true r.value = true := by
  induction hn : c.rest.length using Nat.strong_induction_on generalizing c with
  | _ n ih =>
    rw [statements] at hr
    split at hr
    next =>
      split at hr
      next => cases hr
      next => cases hr; rfl
    next first hfirst =>
      obtain ⟨more, hmore, hr⟩ := bind_ok.1 hr
      cases hr
      have hlt := hn ▸ Cursor.length_lt first.later
      exact Bool.and_eq_true_iff.2 ⟨hinner _ _ first hfirst, ih _ hlt hmore rfl⟩

/-- A block has the right shape if the statements in it do. -/
theorem block_shaped (h : base ≤ c) :
    (block inner c h).Yields fun ss => Stmt.allShaped true ss = true := by
  intro s hs
  obtain ⟨opened, -, hs⟩ := bind_ok.1 hs
  obtain ⟨body, hbody, hs⟩ := bind_ok.1 hs
  obtain ⟨closed, -, hs⟩ := bind_ok.1 hs
  cases hs
  exact statements_shaped hinner (r := body) hbody

/-- A definition has a name, parameters and a body in the right shape, each from the reader that
reads it. Outputs may be left out. -/
theorem definition_shaped (h : base ≤ c) : YieldsStmt (definition inner c h) := by
  intro s hs span
  obtain ⟨kind, -, hs⟩ := bind_ok.1 hs
  obtain ⟨word, hword, hs⟩ := bind_ok.1 hs
  obtain ⟨opened, -, hs⟩ := bind_ok.1 hs
  obtain ⟨params, hparams, hs⟩ := bind_ok.1 hs
  obtain ⟨closed, -, hs⟩ := bind_ok.1 hs
  obtain ⟨results, hresults, hs⟩ := bind_ok.1 hs
  obtain ⟨body, hbody, hs⟩ := bind_ok.1 hs
  cases hs
  have hn := isName_of_lexeme (expecting_ok.1 (commit_ok.1 hword))
  have hi := forall_mem_optionalItems (fun d _ => parameter_shaped d) hparams
  have ho : ∀ p ∈ results.value.getD [], p.shaped true = true := by
    cases hv : results.value with
    | none => exact List.forall_mem_nil _
    | some ps =>
      obtain ⟨t, ht, rfl⟩ := optional_ok hresults hv
      exact outputs_shaped _ t ht
  have hb := block_shaped hinner _ body (commit_ok.1 hbody)
  simpa [Step.map, Step.andThen, Stmt.shaped, Header.shaped, hn, hb] using ⟨hi, ho⟩

/-- A loop has bounds in range, a name for its counter if it has one, and a body in the right
shape. -/
theorem loop_shaped (h : base ≤ c) : YieldsStmt (loop inner c h) := by
  intro s hs span
  obtain ⟨word, -, hs⟩ := bind_ok.1 hs
  obtain ⟨index, hindex, hs⟩ := bind_ok.1 hs
  obtain ⟨first, hfirst, hs⟩ := bind_ok.1 hs
  obtain ⟨arrow, -, hs⟩ := bind_ok.1 hs
  obtain ⟨last, hlast, hs⟩ := bind_ok.1 hs
  obtain ⟨body, hbody, hs⟩ := bind_ok.1 hs
  cases hs
  have hi : index.value.all isName = true := by
    cases hv : index.value with
    | none => rfl
    | some n =>
      obtain ⟨t, ht, rfl⟩ := optional_ok hindex hv
      obtain ⟨name, hname, ht⟩ := bind_ok.1 ht
      obtain ⟨mark, -, ht⟩ := bind_ok.1 ht
      cases ht
      exact isName_of_lexeme (s := name) hname
  have hf := bound_shaped _ first (commit_ok.1 hfirst)
  have hl := bound_shaped _ last (commit_ok.1 hlast)
  have hb := block_shaped hinner _ body (commit_ok.1 hbody)
  simp [Step.map, Step.andThen, Stmt.shaped, hi, hf, hl, hb]

/-- A repeat zone has a count and a body in the right shape. -/
theorem zone_shaped (h : base ≤ c) : YieldsStmt (zone inner c h) := by
  intro s hs span
  obtain ⟨word, -, hs⟩ := bind_ok.1 hs
  obtain ⟨count, hcount, hs⟩ := bind_ok.1 hs
  obtain ⟨body, hbody, hs⟩ := bind_ok.1 hs
  cases hs
  have hc := expression_shaped _ count (commit_ok.1 hcount)
  have hb := block_shaped hinner _ body (commit_ok.1 hbody)
  simp [Step.map, Step.andThen, Stmt.shaped, hc, hb]

/-- A statement is of one of four forms, all of which have the right shape. -/
theorem statementHere_shaped (h : base ≤ c) :
    (statementHere inner c h).Yields fun st => st.shaped true = true := by
  intro s hs
  obtain ⟨body, hbody, hs⟩ := bind_ok.1 hs
  cases hs
  rcases orElse_ok (choice_ok.1 hbody) with hbody | hbody
  · exact definition_shaped hinner _ body hbody _
  rcases orElse_ok hbody with hbody | hbody
  · exact loop_shaped hinner _ body hbody _
  rcases orElse_ok hbody with hbody | hbody
  · exact zone_shaped hinner _ body hbody _
  · exact simple_shaped _ body hbody _

end

/-- Statements have the right shape, by induction on the rest of the source, since the statements of
a body are read behind the start of the outer one. -/
theorem statement_shaped (c : Cursor) : (statement c).Yields fun st => st.shaped true = true := by
  induction hn : c.rest.length using Nat.strong_induction_on generalizing c with
  | _ n ih =>
    intro s hs
    rw [statement] at hs
    have hinner : ∀ d (_ : c < d), (statement d).Yields fun st => st.shaped true = true :=
      fun d h => ih _ (hn ▸ Cursor.length_lt h) d rfl
    obtain ⟨t, ht, rfl⟩ := map_ok.1 hs
    exact statementHere_shaped hinner _ t ht

/-- All statements of a source have the right shape, by induction on what is left of it. -/
theorem allStatements_shaped {r : Reach c (List Stmt)} (hr : allStatements c = .ok r) :
    Stmt.allShaped true r.value = true := by
  induction hn : c.rest.length using Nat.strong_induction_on generalizing c with
  | _ n ih =>
    rw [allStatements] at hr
    split at hr
    next =>
      split at hr
      next => cases hr
      next => cases hr; rfl
    next first hfirst =>
      obtain ⟨more, hmore, hr⟩ := bind_ok.1 hr
      cases hr
      have hlt := hn ▸ Cursor.length_lt first.later
      exact Bool.and_eq_true_iff.2 ⟨statement_shaped _ first hfirst, ih _ hlt hmore rfl⟩

end Statement

/-- Every parsed program has the right shape, whatever the source: names are no keywords, strings
have no quotes, vectors have three or four items, and bounds of loops are in range. -/
theorem Program.shaped_of_parse {source : String} {p : Program}
    (h : Program.parse source = .ok p) : p.shaped true = true := by
  unfold Program.parse at h
  cases hp : Statement.program (Cursor.ofString source) with
  | error f =>
    rw [hp] at h
    cases h
  | ok q =>
    rw [hp] at h
    cases h
    obtain ⟨body, hbody, hp⟩ := Reading.bind_ok.1 hp
    split at hp
    next =>
      cases hp
      exact Statement.allStatements_shaped hbody
    next => cases hp

end NodeFormula

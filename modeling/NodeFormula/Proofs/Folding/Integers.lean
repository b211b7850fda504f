import Mathlib.Algebra.Order.Ring.Int
import NodeFormula.Constant.Fold

/-!
# Exact folding of integers

An integer operator on two constants is computed on unbounded integers, and `Word.ofInt?` then
refuses what is out of range. The remainder is always in range and is refused once only, where its
quotient is not (`Word.rem?_eq`). A power is not computed where its base or its exponent already
decides it, and is still the power (`Word.pow?_eq`). So a folded integer is never wrapped or rounded
(`fold_ints_exact`).
-/

namespace NodeFormula

namespace Word

variable {a b w : Int64} {n : Int}

theorem ofInt?_eq_none_iff : ofInt? n = none ↔ n < -bound ∨ bound ≤ n := by
  unfold ofInt?
  split <;> simp <;> omega

/-! ### Remainders -/

/-- A remainder is in range, since it is closer to zero than the dividend or equal to it. -/
theorem tmod_inRange (a b : Int64) (hb : b.toInt ≠ 0) :
    -bound ≤ a.toInt.tmod b.toInt ∧ a.toInt.tmod b.toInt < bound := by
  have habs : (a.toInt.tmod b.toInt).natAbs < b.toInt.natAbs := by
    rw [Int.natAbs_tmod]
    exact Nat.mod_lt _ (Int.natAbs_pos.2 hb)
  have hle := Int64.le_toInt b
  have hlt := Int64.toInt_lt b
  unfold bound
  omega

/-- The remainder is in range, so it has a value unless the division itself has none. -/
theorem rem?_eq (a b : Int64) :
    if b = 0 ∨ (a = Int64.minValue ∧ b = -1) then rem? a b = none
    else ∃ w, rem? a b = some w ∧ w.toInt = a.toInt.tmod b.toInt := by
  have hzero : b.toInt = 0 ↔ b = 0 := Int64.toInt_inj (y := 0)
  have hmin : a.toInt = -bound ↔ a = Int64.minValue := Int64.toInt_inj (y := Int64.minValue)
  have hone : b.toInt = -1 ↔ b = -1 := Int64.toInt_inj (y := -1)
  unfold rem?
  simp only [hzero, hmin, hone]
  split
  next => rfl
  next h =>
    cases hw : ofInt? (a.toInt.tmod b.toInt) with
    | some w => exact ⟨w, rfl, toInt_of_ofInt? hw⟩
    | none =>
      have hrange := tmod_inRange a b fun hb => h (.inl (hzero.1 hb))
      have hout := ofInt?_eq_none_iff.1 hw
      omega

/-! ### Powers -/

/-- Only the parity of an exponent matters to a base of magnitude at most one. -/
theorem pow_parity {n : Int} (hn : n.natAbs ≤ 1) (b : Nat) :
    n ^ (if b = 0 then 0 else 2 - b % 2) = n ^ b := by
  obtain rfl | rfl | rfl : n = 0 ∨ n = 1 ∨ n = -1 := by omega
  · by_cases hb : b = 0
    · simp [hb]
    · rw [if_neg hb, zero_pow hb, zero_pow (by omega)]
  · simp
  · by_cases hb : b = 0
    · simp [hb]
    · rw [if_neg hb]
      obtain h | h := Nat.even_or_odd b
      · rw [h.neg_one_pow, Nat.even_iff.1 h]
        rfl
      · rw [h.neg_one_pow, Nat.odd_iff.1 h]
        rfl

/-- A base of magnitude two or more has left the range of words by its 64th power. -/
theorem pow_outOfRange {n : Int} (hn : 2 ≤ n.natAbs) {b : Nat} (hb : 64 ≤ b) :
    n ^ b < -bound ∨ bound ≤ n ^ b := by
  have habs : 2 ^ 64 ≤ (n ^ b).natAbs := by
    rw [Int.natAbs_pow]
    calc 2 ^ 64 ≤ 2 ^ b := Nat.pow_le_pow_right (by decide) hb
      _ ≤ n.natAbs ^ b := Nat.pow_le_pow_left hn b
  unfold bound
  omega

theorem pow?_eq (a : Int64) (b : Nat) : pow? a b = ofInt? (a.toInt ^ b) := by
  unfold pow?
  split
  next h => exact congrArg ofInt? (pow_parity h b)
  next h =>
    split
    · rfl
    next hb => exact (ofInt?_eq_none_iff.2 (pow_outOfRange (by omega) (by omega))).symm

end Word

/-- The integer that an operator gives on two integers of any size. Quotients, powers with a
negative exponent and truth values are no integers. -/
def BinaryOp.integer? : BinaryOp → Int → Int → Option Int
  | .add, a, b => some (a + b)
  | .sub, a, b => some (a - b)
  | .mul, a, b => some (a * b)
  | .mod, a, b => if b = 0 then none else some (a.tmod b)
  | .pow, a, b => if b < 0 then none else some (a ^ b.toNat)
  | _, _, _ => none

namespace Constant

variable {op : BinaryOp} {a b w : Int64}

/-- Two integer constants are folded as integers. -/
theorem fold_ints (op : BinaryOp) (a b : Int64) : fold op (int a) (int b) = foldInts op a b := by
  cases op <;> rfl

theorem finite?_ne_int (x : Float) : finite? x ≠ some (int w) := by
  unfold finite?
  split <;> simp

theorem foldFloats_ne_int (op : BinaryOp) (x y : Float) : foldFloats op x y ≠ some (int w) := by
  cases op with
  | add | sub | mul | pow => exact finite?_ne_int _
  | div | mod =>
    simp only [foldFloats]
    split
    · rintro ⟨⟩
    · exact finite?_ne_int _
  | lt | le | gt | ge | eq | ne => simp [foldFloats]
  | and | or => rintro ⟨⟩

/-- The constant is the word equal to `n` if there is one, and there is no constant otherwise. -/
def Exact (n : Int) (c : Option Constant) : Prop :=
  if Int64.minValue.toInt ≤ n ∧ n ≤ Int64.maxValue.toInt then ∃ w, c = some (int w) ∧ w.toInt = n
  else c = none

/-- An integer that is a word is folded to it, and no other is folded to a word. -/
theorem exact_ofInt? (n : Int) : Exact n ((Word.ofInt? n).map int) := by
  have hmin : Int64.minValue.toInt = -Word.bound := by decide
  have hmax : Int64.maxValue.toInt = Word.bound - 1 := by decide
  unfold Exact
  rw [hmin, hmax]
  cases hn : Word.ofInt? n with
  | some w =>
    have hw := Word.toInt_of_ofInt? hn
    have hle := Int64.le_toInt w
    have hlt := Int64.toInt_lt w
    rw [if_pos (by unfold Word.bound; omega)]
    exact ⟨w, rfl, hw⟩
  | none =>
    have hout := Word.ofInt?_eq_none_iff.1 hn
    rw [if_neg (by omega)]
    rfl

/-- A remainder is refused by zero, and for the least word by minus one, where the quotient is out of
range. Otherwise it has the sign of the dividend. -/
theorem fold_mod (a b : Int64) :
    if b = 0 ∨ (a = Int64.minValue ∧ b = -1) then fold .mod (int a) (int b) = none
    else ∃ w, fold .mod (int a) (int b) = some (int w) ∧ w.toInt = a.toInt.tmod b.toInt := by
  have h := Word.rem?_eq a b
  have hfold : fold .mod (int a) (int b) = (Word.rem? a b).map int := rfl
  split at h
  next hnone => rw [if_pos hnone, hfold, h]; rfl
  next hsome =>
    obtain ⟨w, hw, heq⟩ := h
    rw [if_neg hsome, hfold, hw]
    exact ⟨w, rfl, heq⟩

theorem fold_pow (a : Int64) (hpos : 0 ≤ b.toInt) (hlt : b.toInt < 0x100000000) :
    fold .pow (int a) (int b) = (Word.ofInt? (a.toInt ^ b.toInt.toNat)).map int := by
  rw [fold_ints]
  simp only [foldInts]
  rw [if_neg (by omega), if_pos hlt, Word.pow?_eq]

/-- An integer that folding gives is the integer that the operator gives, by cases on the operator.
Division, comparisons and the operators on truth values are folded as doubles and give no integer
constant. -/
theorem integer?_of_fold (h : fold op (int a) (int b) = some (int w)) :
    op.integer? a.toInt b.toInt = some w.toInt := by
  rw [fold_ints] at h
  have hword {o : Option Int64} (h : o.map int = some (int w)) : o = some w := by
    obtain ⟨v, hv, heq⟩ := Option.map_eq_some_iff.1 h
    cases heq
    exact hv
  cases op with
  | add | sub | mul => exact congrArg some (Word.toInt_of_ofInt? (hword h)).symm
  | mod =>
    have hmod := Word.rem?_eq a b
    rw [hword h] at hmod
    split at hmod
    · cases hmod
    next hb =>
      obtain ⟨v, hv, heq⟩ := hmod
      cases hv
      have hne : b.toInt ≠ 0 := fun hzero => hb (.inl (Int64.toInt_inj.1 hzero))
      simp only [BinaryOp.integer?, if_neg hne, heq]
  | pow =>
    simp only [foldInts] at h
    split at h
    · exact absurd h (finite?_ne_int _)
    next hneg =>
      split at h
      · have hw := hword h
        rw [Word.pow?_eq] at hw
        simp only [BinaryOp.integer?, if_neg hneg, Word.toInt_of_ofInt? hw]
      · cases h
  | div | lt | le | gt | ge | eq | ne | and | or =>
    simp only [foldInts] at h
    exact absurd h (foldFloats_ne_int _ _ _)

/-- Folding two integers gives the exact sum, difference, product, remainder toward zero and power
as a word where that is one, and no value otherwise; and with any operator, an integer that comes
out is the exact one. -/
theorem fold_ints_exact (a b : Int64) :
    Exact (a.toInt + b.toInt) (fold .add (int a) (int b)) ∧
    Exact (a.toInt - b.toInt) (fold .sub (int a) (int b)) ∧
    Exact (a.toInt * b.toInt) (fold .mul (int a) (int b)) ∧
    (if b = 0 ∨ (a = Int64.minValue ∧ b = -1) then fold .mod (int a) (int b) = none
      else ∃ w, fold .mod (int a) (int b) = some (int w) ∧ w.toInt = a.toInt.tmod b.toInt) ∧
    (0 ≤ b.toInt → b.toInt ≤ 0xFFFFFFFF →
      Exact (a.toInt ^ b.toInt.toNat) (fold .pow (int a) (int b))) ∧
    ∀ (op : BinaryOp) (w : Int64), fold op (int a) (int b) = some (int w) →
      op.integer? a.toInt b.toInt = some w.toInt := by
  refine ⟨exact_ofInt? _, exact_ofInt? _, exact_ofInt? _, fold_mod a b, fun hpos hle => ?_,
    fun op w h => integer?_of_fold h⟩
  rw [fold_pow a hpos (by omega)]
  exact exact_ofInt? _

/-- The least word is a power of `-2` and is folded to exactly, and one more factor leaves the range
and gives no constant. -/
theorem fold_ints_exact_leastWord :
    Exact ((-2 : Int64).toInt ^ (63 : Int64).toInt.toNat) (fold .pow (int (-2)) (int 63)) ∧
      Exact ((-2 : Int64).toInt ^ (64 : Int64).toInt.toNat) (fold .pow (int (-2)) (int 64)) :=
  ⟨(fold_ints_exact (-2) 63).2.2.2.2.1 (by decide) (by decide),
    (fold_ints_exact (-2) 64).2.2.2.2.1 (by decide) (by decide)⟩

end Constant

end NodeFormula

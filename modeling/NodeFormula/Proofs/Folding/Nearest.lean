import Mathlib

/-!
# The double nearest to an integer

A double keeps 53 binary digits. What it keeps of an integer is written here with integers alone:
`nearest n` is `n` rounded to a multiple of the weight of the last digit kept, a half going to the
even digit. It keeps the order of integers (`nearest_mono`), though not strictly, and up to 53
digits it changes nothing (`nearest_of_natAbs_le`).

Rounding of doubles shifts a mantissa to the right and keeps two residual bits. These bits say what
the remainder of a division says (`Residue`), so a mantissa is rounded as `nearest` says
(`roundWithAccuracy_exact`).
-/

namespace NodeFormula.Double

open Float.Model Float.Model.UnpackedFloat

/-- `n / d` rounded to the nearest integer, a half to the even one. -/
def halfEven (n d : Nat) : Nat :=
  if 2 * (n % d) < d then n / d
  else if d < 2 * (n % d) then n / d + 1
  else n / d + n / d % 2

theorem div_le_halfEven (n d : Nat) : n / d ≤ halfEven n d := by
  unfold halfEven
  split_ifs <;> omega

theorem halfEven_le (n d : Nat) : halfEven n d ≤ n / d + 1 := by
  unfold halfEven
  split_ifs <;> omega

/-- Rounding keeps the order. Where the quotients are equal, the remainders decide. -/
theorem halfEven_mono {m n : Nat} (h : m ≤ n) (d : Nat) : halfEven m d ≤ halfEven n d := by
  obtain hlt | heq := (Nat.div_le_div_right h : m / d ≤ n / d).lt_or_eq
  · exact (halfEven_le m d).trans (hlt.trans_le (div_le_halfEven n d))
  · -- with equal quotients the remainders are in the order of the numbers
    have hmod : m % d ≤ n % d := by
      have hm := Nat.div_add_mod m d
      have hn := Nat.div_add_mod n d
      rw [heq] at hm
      omega
    unfold halfEven
    rw [heq]
    split_ifs <;> omega

/-- What rounding adds or takes away is at most a half of the divisor, said without fractions. -/
theorem halfEven_error (n : Nat) {d : Nat} (hd : 0 < d) :
    2 * n ≤ 2 * (halfEven n d * d) + d ∧ 2 * (halfEven n d * d) ≤ 2 * n + d := by
  have hn := Nat.div_add_mod' n d
  have hmod := Nat.mod_lt n hd
  have hcarry : halfEven n d = n / d ∧ 2 * (n % d) ≤ d ∨
      halfEven n d = n / d + 1 ∧ d ≤ 2 * (n % d) := by
    unfold halfEven
    split_ifs <;> omega
  obtain ⟨heq, hle⟩ | ⟨heq, hle⟩ := hcarry
  · rw [heq]
    omega
  · rw [heq, Nat.add_one_mul (n / d)]
    omega

theorem halfEven_mul_right (n d : Nat) {c : Nat} (hc : 0 < c) :
    halfEven (n * c) (d * c) = halfEven n d := by
  unfold halfEven
  rw [Nat.mul_div_mul_right _ _ hc, Nat.mul_mod_mul_right, ← Nat.mul_assoc]
  simp only [Nat.mul_lt_mul_right hc]

@[simp] theorem halfEven_one (n : Nat) : halfEven n 1 = n := by
  simp [halfEven, Nat.mod_one]

/-- The weight of the last of the 53 binary digits that a double keeps of a natural number. -/
def unit (n : Nat) : Nat := 2 ^ (n.log2 - 52)

/-- The natural number that the double nearest to `n` stands for, a half going to the even digit. -/
def nearestNat (n : Nat) : Nat := halfEven n (unit n) * unit n

/-- The integer that the double nearest to `n` stands for. -/
def nearest (n : Int) : Int := n.sign * nearestNat n.natAbs

/-- A number of 53 binary digits or more, divided by the weight of its last digit kept, has 53
digits. -/
theorem div_unit_bounds {n : Nat} (h : 52 ≤ n.log2) :
    2 ^ 52 ≤ n / unit n ∧ n / unit n < 2 ^ 53 := by
  have hn : n ≠ 0 := by rintro rfl; simp at h
  have hpos : 0 < unit n := Nat.two_pow_pos _
  have hlow : 2 ^ 52 * unit n = 2 ^ n.log2 := by
    rw [unit, ← Nat.pow_add, Nat.add_sub_cancel' h]
  have hhigh : 2 ^ 53 * unit n = 2 ^ (n.log2 + 1) := by
    rw [Nat.pow_succ (m := n.log2), ← hlow]
    omega
  constructor
  · rw [Nat.le_div_iff_mul_le hpos, hlow]
    exact Nat.log2_self_le hn
  · rw [Nat.div_lt_iff_lt_mul hpos, hhigh]
    exact Nat.lt_log2_self

theorem nearestNat_of_log2_le {n : Nat} (h : n.log2 ≤ 52) : nearestNat n = n := by
  simp [nearestNat, unit, Nat.sub_eq_zero_of_le h]

/-- Rounding stays between the powers of two around a number, and may reach the upper one. -/
theorem nearestNat_bounds {n : Nat} (hn : n ≠ 0) :
    2 ^ n.log2 ≤ nearestNat n ∧ nearestNat n ≤ 2 ^ (n.log2 + 1) := by
  obtain h | h := Nat.le_total n.log2 52
  · rw [nearestNat_of_log2_le h]
    exact ⟨Nat.log2_self_le hn, Nat.lt_log2_self.le⟩
  · obtain ⟨hlow, hhigh⟩ := div_unit_bounds h
    have hpow (k : Nat) : 2 ^ (52 + k) * unit n = 2 ^ (n.log2 + k) := by
      rw [unit, ← Nat.pow_add]
      congr 1
      omega
    constructor
    · rw [← Nat.add_zero n.log2, ← hpow 0, Nat.add_zero]
      exact Nat.mul_le_mul_right _ (hlow.trans (div_le_halfEven _ _))
    · rw [← hpow 1]
      exact Nat.mul_le_mul_right _ ((halfEven_le _ _).trans hhigh)

/-- Rounding natural numbers to doubles keeps their order. Numbers of different lengths are told
apart by the power of two between them. -/
theorem nearestNat_mono {m n : Nat} (h : m ≤ n) : nearestNat m ≤ nearestNat n := by
  by_cases hm : m = 0
  · simp [hm, nearestNat_of_log2_le]
  have hn : n ≠ 0 := by omega
  have hlog : m.log2 ≤ n.log2 := (Nat.le_log2 hn).2 ((Nat.log2_self_le hm).trans h)
  obtain hlt | heq := hlog.lt_or_eq
  · calc nearestNat m ≤ 2 ^ (m.log2 + 1) := (nearestNat_bounds hm).2
      _ ≤ 2 ^ n.log2 := Nat.pow_le_pow_right (by decide) hlt
      _ ≤ nearestNat n := (nearestNat_bounds hn).1
  · unfold nearestNat unit
    rw [heq]
    exact Nat.mul_le_mul_right _ (halfEven_mono h _)

theorem nearest_natCast (n : Nat) : nearest n = nearestNat n := by
  by_cases hn : n = 0
  · simp [hn, nearest, nearestNat_of_log2_le]
  · rw [nearest, Int.natAbs_natCast, Int.sign_natCast_of_ne_zero hn, one_mul]

theorem nearest_neg (n : Int) : nearest (-n) = -nearest n := by
  simp [nearest]

theorem nearest_mono {a b : Int} (h : a ≤ b) : nearest a ≤ nearest b := by
  obtain ⟨m, rfl | rfl⟩ := a.eq_nat_or_neg <;> obtain ⟨n, rfl | rfl⟩ := b.eq_nat_or_neg
  all_goals simp only [nearest_neg, nearest_natCast]
  · exact_mod_cast nearestNat_mono (by omega)
  · have hm : m = 0 := by omega
    have hn : n = 0 := by omega
    simp [hm, hn, nearestNat_of_log2_le]
  · omega
  · have := nearestNat_mono (m := n) (n := m) (by omega)
    omega

/-- An integer of up to 53 binary digits is a double. -/
theorem nearest_of_natAbs_le {n : Int} (h : n.natAbs ≤ 2 ^ 53) : nearest n = n := by
  have hnat : nearestNat n.natAbs = n.natAbs := by
    obtain hlt | heq := h.lt_or_eq
    · by_cases hzero : n.natAbs = 0
      · simp [hzero, nearestNat_of_log2_le]
      · exact nearestNat_of_log2_le (Nat.le_of_lt_succ ((Nat.log2_lt hzero).2 hlt))
    · rw [heq]
      decide +kernel
  rw [nearest, hnat, Int.sign_mul_natAbs]

/-- A word is at most 512 away from the nearest double. Below `2 ^ 63` the last digit that is kept
weighs `2 ^ 10` at most, and `2 ^ 63` is a double itself. -/
theorem nearest_error {n : Int} (h : n.natAbs ≤ 2 ^ 63) :
    n ≤ nearest n + 512 ∧ nearest n ≤ n + 512 := by
  have hnat (k : Nat) (hk : k ≤ 2 ^ 63) : k ≤ nearestNat k + 512 ∧ nearestNat k ≤ k + 512 := by
    obtain hlt | rfl := hk.lt_or_eq
    · have hlog : k.log2 - 52 ≤ 10 := by
        by_cases hzero : k = 0
        · simp [hzero]
        · have := (Nat.log2_lt hzero).2 hlt
          omega
      have hunit : unit k ≤ 2 ^ 10 := Nat.pow_le_pow_right (by decide) hlog
      have herror := halfEven_error k (d := unit k) (Nat.two_pow_pos _)
      unfold nearestNat
      omega
    · decide +kernel
  obtain ⟨k, rfl | rfl⟩ := n.eq_nat_or_neg
  all_goals
    have hk := hnat k (by simpa using h)
    simp only [nearest_neg, nearest_natCast]
    omega

/-! ### Rounding of mantissas -/

/-- A mantissa with its two residual bits says how `n / d` lies to its neighbours: whether the
remainder is at least a half, and whether it is neither zero nor a half. -/
structure Residue (em : ExtendedMantissa) (n d : Nat) : Prop where
  mantissa : em.mantissa = n / d
  roundBit : em.roundBit = decide (d ≤ 2 * (n % d))
  stickyBit : em.stickyBit = decide (2 * (n % d) ≠ 0 ∧ 2 * (n % d) ≠ d)

namespace Residue

variable {em : ExtendedMantissa} {n d : Nat}

/-- A mantissa without residual bits is the quotient by one. -/
theorem exact (n : Nat) : Residue (.ofMantissaAndAccuracy n .exact) n 1 := by
  constructor <;> simp [ExtendedMantissa.ofMantissaAndAccuracy, Nat.mod_one]

/-- Shifting by one bit is dividing by two, with the bit that falls out in the residual bits. -/
theorem shiftRightOne (h : Residue em n d) (hd : 0 < d) : Residue em.shiftRightOne n (d * 2) := by
  have hmod : n % (d * 2) = n % d + d * (n / d % 2) := Nat.mod_mul
  have hlt := Nat.mod_lt n hd
  have hbit := Nat.mod_two_eq_zero_or_one (n / d)
  constructor
  · rw [ExtendedMantissa.shiftRightOne, h.mantissa, Nat.div_div_eq_div_mul]
  · rw [ExtendedMantissa.shiftRightOne, h.mantissa, hmod]
    obtain hbit | hbit := hbit <;> rw [hbit] <;> simp <;> omega
  · rw [ExtendedMantissa.shiftRightOne, h.roundBit, h.stickyBit, hmod, ← Bool.decide_or,
      decide_eq_decide]
    obtain hbit | hbit := hbit <;> rw [hbit] <;> omega

theorem shiftRight (h : Residue em n 1) (k : Nat) : Residue (em >>> k) n (2 ^ k) := by
  change Residue (k.repeat ExtendedMantissa.shiftRightOne em) n (2 ^ k)
  induction k with
  | zero => exact h
  | succ k ih => exact ih.shiftRightOne (Nat.two_pow_pos k)

/-- A mantissa is rounded by its residual bits as the quotient is by its remainder. -/
theorem roundedMantissa (h : Residue em n d) : em.roundedMantissa = halfEven n d := by
  obtain ⟨m, r, s⟩ := em
  obtain ⟨hm, hr, hs⟩ := h
  dsimp only at hm hr hs
  unfold halfEven
  cases r <;> cases s <;>
    simp only [ExtendedMantissa.roundedMantissa, ExtendedMantissa.accuracy,
      Accuracy.roundToNearestEven, hm] <;>
    simp only [eq_comm (a := false), eq_comm (a := true), decide_eq_false_iff_not,
      decide_eq_true_eq] at hr hs <;>
    split_ifs <;> omega

end Residue

/-! ### Rounding to the format -/

/-- A mantissa of 53 binary digits, the first of them set. -/
def Normal (m : Nat) : Prop := 2 ^ 52 ≤ m ∧ m < 2 ^ 53

theorem shiftToTargetExponent_eq {m : Nat} {e : Int} (hm : 52 ≤ m.log2) (he : -1074 ≤ e) :
    shiftToTargetExponent .binary64 m e .exact =
      (ExtendedMantissa.ofMantissaAndAccuracy m .exact >>> (m.log2 - 52),
        e + (m.log2 - 52 : Nat)) := by
  have htarget : (Format.binary64.targetExponent (totalExponent m e) - e).toNat = m.log2 - 52 := by
    simp only [Format.targetExponent, totalExponent, Format.mantissaBits, Format.minExponent]
    omega
  simp only [shiftToTargetExponent, shiftToExponent, htarget]

/-- Rounding keeps 53 binary digits of a mantissa that has at least as many. If it carries into a
further digit, the exponent takes it. -/
theorem roundWithAccuracy_exact (s : Sign) {m : Nat} {e : Int} (hm : 52 ≤ m.log2) (he : -1074 ≤ e) :
    ∃ (r carry : Nat) (hr : 0 < r), roundWithAccuracy .binary64 s m e .exact =
        .finite s r (e + (m.log2 - 52 : Nat) + carry) hr ∧
      Normal r ∧ r * 2 ^ carry = halfEven m (unit m) := by
  have hround :
      (ExtendedMantissa.ofMantissaAndAccuracy m .exact >>> (m.log2 - 52)).roundedMantissa =
        halfEven m (unit m) := ((Residue.exact m).shiftRight _).roundedMantissa
  obtain ⟨hlow, hhigh⟩ := div_unit_bounds hm
  have hge := hlow.trans (div_le_halfEven m (unit m))
  have hle := (halfEven_le m (unit m)).trans hhigh
  generalize hR : halfEven m (unit m) = R at hround hge hle ⊢
  have hR0 : R ≠ 0 := by omega
  have hlog : 52 ≤ R.log2 := (Nat.le_log2 hR0).2 hge
  have hnormal := div_unit_bounds hlog
  have hshift : (ExtendedMantissa.ofMantissaAndAccuracy R .exact >>> (R.log2 - 52)).mantissa =
      R / unit R := ((Residue.exact R).shiftRight _).mantissa
  have hpos : 0 < R / unit R := by omega
  refine ⟨R / unit R, R.log2 - 52, hpos, ?_, hnormal, ?_⟩
  · unfold roundWithAccuracy
    simp only [shiftToTargetExponent_eq hm he, hround,
      shiftToTargetExponent_eq hlog (show -1074 ≤ e + (m.log2 - 52 : Nat) by omega), hshift]
    rw [dif_neg (by omega)]
  · -- only the least mantissa of 54 digits is shifted, and it ends in a zero
    obtain hlt | heq := hle.lt_or_eq
    · have hlt53 : R.log2 < 53 := (Nat.log2_lt hR0).2 hlt
      have hzero : R.log2 - 52 = 0 := by omega
      simp [unit, hzero]
    · rw [heq]
      decide +kernel

end NodeFormula.Double

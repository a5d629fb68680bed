import Mathlib.Data.Int.Log
import Mathlib.Data.Rat.Floor

/-!
# Rounding to double precision

A double is given by the rational it denotes. `round` is rounding to nearest, ties to even,
at 53 bits of precision, in the range of normal numbers: no overflow and no subnormals.
-/

namespace Binary64

/-- The nearest integer, a tie going to the even one. -/
def roundHalfEven (q : ℚ) : ℤ :=
  if q - ⌊q⌋ < 1 / 2 then ⌊q⌋
  else if 1 / 2 < q - ⌊q⌋ then ⌊q⌋ + 1
  else if ⌊q⌋ % 2 = 0 then ⌊q⌋ else ⌊q⌋ + 1

/-- The distance between two doubles of the magnitude of `q`. -/
def ulp (q : ℚ) : ℚ := (2 : ℚ) ^ (Int.log 2 |q| - 52)

/-- The double nearest to `q`. -/
def round (q : ℚ) : ℚ := if q = 0 then 0 else roundHalfEven (q / ulp q) * ulp q

/-- Truncation towards zero, the conversion of a double to an integer. -/
def truncate (q : ℚ) : ℤ := q.num.tdiv q.den

/-! ## Rounding to an integer -/

variable {q : ℚ} {n : ℤ}

theorem roundHalfEven_bounds (q : ℚ) : ⌊q⌋ ≤ roundHalfEven q ∧ roundHalfEven q ≤ ⌊q⌋ + 1 := by
  unfold roundHalfEven
  split
  · omega
  · split
    · omega
    · split <;> omega

theorem roundHalfEven_intCast (n : ℤ) : roundHalfEven n = n := by
  unfold roundHalfEven
  rw [Int.floor_intCast, sub_self, if_pos (by norm_num)]

theorem abs_roundHalfEven_sub_le (q : ℚ) : |(roundHalfEven q : ℚ) - q| ≤ 1 / 2 := by
  have hlow := Int.floor_le q
  have hhigh := Int.lt_floor_add_one q
  unfold roundHalfEven
  rw [abs_le]
  split
  · constructor <;> linarith
  · split
    · push_cast
      constructor <;> linarith
    · split
      · constructor <;> linarith
      · push_cast
        constructor <;> linarith

theorem roundHalfEven_mono {p : ℚ} (h : p ≤ q) : roundHalfEven p ≤ roundHalfEven q := by
  by_contra hnot
  have hstep : (roundHalfEven q : ℚ) + 1 ≤ roundHalfEven p := by
    exact_mod_cast Int.add_one_le_iff.mpr (not_le.mp hnot)
  have hp := abs_le.mp (abs_roundHalfEven_sub_le p)
  have hq := abs_le.mp (abs_roundHalfEven_sub_le q)
  -- both are midpoints, hence the same one
  have heq : p = q := by linarith
  subst heq
  exact hnot le_rfl

/-- A tie below an even integer goes up to it. -/
theorem roundHalfEven_lt_iff (heven : n % 2 = 0) : roundHalfEven q < n ↔ q < n - 1 / 2 := by
  constructor
  · intro h
    by_contra hnot
    have htie : roundHalfEven (n - 1 / 2 : ℚ) = n := by
      have hfloor : ⌊(n : ℚ) - 1 / 2⌋ = n - 1 := by
        rw [Int.floor_eq_iff]
        push_cast
        constructor <;> linarith
      unfold roundHalfEven
      rw [hfloor]
      push_cast
      rw [if_neg (by linarith), if_neg (by linarith), if_neg (by omega)]
      omega
    have hmono := roundHalfEven_mono (not_lt.mp hnot)
    omega
  · intro h
    have hnear := (abs_le.mp (abs_roundHalfEven_sub_le q)).2
    have hlt : (roundHalfEven q : ℚ) < n := by linarith
    exact_mod_cast hlt

/-! ## Rounding to a double -/

theorem ulp_pos (q : ℚ) : 0 < ulp q := zpow_pos (by norm_num) _

/-- A double has 53 bits. -/
theorem le_div_ulp (h : 0 < q) : 2 ^ 52 ≤ q / ulp q := by
  have hlog : (2 : ℚ) ^ Int.log 2 q ≤ q := Int.zpow_log_le_self (by norm_num) h
  rw [le_div_iff₀ (ulp_pos q), ulp, abs_of_pos h, zpow_sub₀ (by norm_num)]
  calc (2 : ℚ) ^ 52 * (2 ^ Int.log 2 q / 2 ^ (52 : ℤ)) = 2 ^ Int.log 2 q := by
        norm_num
        ring
    _ ≤ q := hlog

theorem div_ulp_le (h : 0 < q) : q / ulp q ≤ 2 ^ 53 := by
  have hlog : q < (2 : ℚ) ^ (Int.log 2 q + 1) := Int.lt_zpow_succ_log_self (by norm_num) q
  rw [div_le_iff₀ (ulp_pos q), ulp, abs_of_pos h, zpow_sub₀ (by norm_num)]
  calc q ≤ (2 : ℚ) ^ (Int.log 2 q + 1) := hlog.le
    _ = 2 ^ 53 * (2 ^ Int.log 2 q / 2 ^ (52 : ℤ)) := by
        rw [zpow_add₀ (by norm_num)]
        norm_num
        ring

/-- A power of two lies between a double and the next magnitude. -/
theorem round_mem_binade (h : 0 < q) :
    (2 : ℚ) ^ Int.log 2 q ≤ round q ∧ round q ≤ 2 ^ (Int.log 2 q + 1) := by
  have hbelow := roundHalfEven_mono (p := ((2 ^ 52 : ℤ) : ℚ)) (q := q / ulp q)
    (by exact_mod_cast le_div_ulp h)
  have habove := roundHalfEven_mono (p := q / ulp q) (q := ((2 ^ 53 : ℤ) : ℚ))
    (by exact_mod_cast div_ulp_le h)
  rw [roundHalfEven_intCast] at hbelow habove
  have hulp : ulp q = 2 ^ Int.log 2 q / 2 ^ 52 := by
    rw [ulp, abs_of_pos h, zpow_sub₀ (by norm_num)]
    norm_num
  have hlow : (2 : ℚ) ^ 52 * ulp q ≤ roundHalfEven (q / ulp q) * ulp q :=
    mul_le_mul_of_nonneg_right (by exact_mod_cast hbelow) (ulp_pos q).le
  have hhigh : roundHalfEven (q / ulp q) * ulp q ≤ (2 : ℚ) ^ 53 * ulp q :=
    mul_le_mul_of_nonneg_right (by exact_mod_cast habove) (ulp_pos q).le
  rw [round, if_neg h.ne']
  constructor
  · calc (2 : ℚ) ^ Int.log 2 q = 2 ^ 52 * ulp q := by
          rw [hulp]
          ring
      _ ≤ _ := hlow
  · calc roundHalfEven (q / ulp q) * ulp q ≤ (2 : ℚ) ^ 53 * ulp q := hhigh
      _ = 2 ^ (Int.log 2 q + 1) := by
          rw [hulp, zpow_add₀ (by norm_num)]
          ring

theorem round_nonneg (h : 0 ≤ q) : 0 ≤ round q := by
  unfold round
  split
  · exact le_rfl
  · have hdiv : 0 ≤ q / ulp q := div_nonneg h (ulp_pos q).le
    have hfloor : 0 ≤ roundHalfEven (q / ulp q) :=
      (Int.floor_nonneg.mpr hdiv).trans (roundHalfEven_bounds _).1
    exact mul_nonneg (by exact_mod_cast hfloor) (ulp_pos q).le

theorem round_mono {p : ℚ} (hp : 0 ≤ p) (h : p ≤ q) : round p ≤ round q := by
  rcases hp.eq_or_lt with rfl | hp
  · rw [round, if_pos rfl]
    exact round_nonneg h
  · have hq := hp.trans_le h
    rcases (Int.log_mono_right hp h).eq_or_lt with hlog | hlog
    · -- the doubles of one magnitude are the multiples of one unit
      have hulp : ulp p = ulp q := by
        rw [ulp, ulp, abs_of_pos hp, abs_of_pos hq, hlog]
      rw [round, round, if_neg hp.ne', if_neg hq.ne', hulp]
      refine mul_le_mul_of_nonneg_right ?_ (ulp_pos q).le
      exact_mod_cast roundHalfEven_mono (div_le_div_of_nonneg_right h (ulp_pos q).le)
    · calc round p ≤ 2 ^ (Int.log 2 p + 1) := (round_mem_binade hp).2
        _ ≤ 2 ^ Int.log 2 q := zpow_le_zpow_right₀ (by norm_num) hlog
        _ ≤ round q := (round_mem_binade hq).1

/-- The relative error of rounding up. -/
theorem round_le_mul (h : 0 ≤ q) : round q ≤ q * (1 + 1 / 2 ^ 53) := by
  unfold round
  split
  · positivity
  · rename_i hne
    have hpos : 0 < q := lt_of_le_of_ne h (Ne.symm hne)
    have hdiv := le_div_ulp hpos
    have hnear := (abs_le.mp (abs_roundHalfEven_sub_le (q / ulp q))).2
    have hround : (roundHalfEven (q / ulp q) : ℚ) ≤ q / ulp q * (1 + 1 / 2 ^ 53) := by linarith
    calc (roundHalfEven (q / ulp q) : ℚ) * ulp q ≤ q / ulp q * (1 + 1 / 2 ^ 53) * ulp q :=
          mul_le_mul_of_nonneg_right hround (ulp_pos q).le
      _ = q * (1 + 1 / 2 ^ 53) := by
          rw [mul_right_comm, div_mul_cancel₀ q (ulp_pos q).ne']

/-- A crude bound, for ranges that leave room. -/
theorem round_le_two_mul (h : 0 ≤ q) : round q ≤ 2 * q := by
  have hround := round_le_mul h
  linarith

/-- An integer of at most 53 bits is a double. -/
theorem round_intCast (h : |n| < 2 ^ 53) : round n = n := by
  unfold round
  split
  · rename_i hzero
    exact hzero.symm
  · rename_i hne
    have hpos : (0 : ℚ) < |(n : ℚ)| := abs_pos.mpr hne
    have hlog : Int.log 2 |(n : ℚ)| < 53 := by
      rw [← Int.lt_zpow_iff_log_lt (by norm_num) hpos]
      exact_mod_cast h
    -- the quotient by the unit in the last place is an integer
    obtain ⟨k, hk⟩ : ∃ k : ℕ, 52 - Int.log 2 |(n : ℚ)| = k :=
      ⟨_, (Int.toNat_of_nonneg (by omega)).symm⟩
    have hquotient : (n : ℚ) / ulp n = ((n * 2 ^ k : ℤ) : ℚ) := by
      have hulp : ulp n = ((2 : ℚ) ^ k)⁻¹ := by
        rw [ulp, ← zpow_natCast, ← zpow_neg, ← hk, neg_sub]
      rw [hulp, div_inv_eq_mul]
      push_cast
      rfl
    rw [hquotient, roundHalfEven_intCast, ← hquotient, div_mul_cancel₀ _ (ulp_pos _).ne']

/-! ## Truncation -/

theorem truncate_of_nonneg (h : 0 ≤ q) : truncate q = ⌊q⌋ := by
  rw [truncate, Int.tdiv_eq_ediv_of_nonneg (Rat.num_nonneg.mpr h), Rat.floor_def']

theorem truncate_bounds (h : 0 ≤ q) : 0 ≤ truncate q ∧ (truncate q : ℚ) ≤ q := by
  rw [truncate_of_nonneg h]
  exact ⟨Int.floor_nonneg.mpr h, Int.floor_le q⟩

theorem truncate_mono {p : ℚ} (hp : 0 ≤ p) (h : p ≤ q) : truncate p ≤ truncate q := by
  rw [truncate_of_nonneg hp, truncate_of_nonneg (hp.trans h)]
  exact Int.floor_mono h

end Binary64

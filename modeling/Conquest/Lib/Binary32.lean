import Mathlib.Analysis.Complex.ExponentialBounds
import Mathlib.Analysis.SpecialFunctions.Log.Base

/-!
# Binary32 — natural numbers and their logarithms in single precision

A number becomes the value with 24 significant digits next to it, and its binary
logarithm the value next to that. Values from 16 to 32 are 2⁻¹⁹ apart, so a
logarithm that misses an integer by less than 2⁻²⁰ is rounded to the integer.
-/

namespace Binary32

/-! ## The functions -/

/-- The distance of the values next to `n`. -/
def ulp (n : Nat) : Nat := 2 ^ (Nat.log2 n - 23)

/-- The value next to `n`, and the even one of two. -/
def roundInt (n : Nat) : Nat :=
  let q := n / ulp n
  let r := n % ulp n
  if ulp n < 2 * r ∨ (2 * r = ulp n ∧ q % 2 = 1) then (q + 1) * ulp n else q * ulp n

/-- The value next to the binary logarithm of `x`, truncated. -/
def truncLog2 (x : Nat) : Nat :=
  let e := Nat.log2 x
  -- 11 / 2 ^ 24 is the most that log 2 / 2 ^ 20 allows
  if 2 ^ 24 * (2 ^ (e + 1) - x) ≤ 11 * 2 ^ (e + 1) then e + 1 else e

theorem log2_le_truncLog2 (x : Nat) : Nat.log2 x ≤ truncLog2 x := by
  rw [truncLog2]
  split
  · exact Nat.le_succ _
  · exact le_rfl

theorem truncLog2_le (x : Nat) : truncLog2 x ≤ Nat.log2 x + 1 := by
  rw [truncLog2]
  split
  · exact le_rfl
  · exact Nat.le_succ _

/-! ## Rounding a number -/

theorem ulp_pos (n : Nat) : 0 < ulp n := Nat.two_pow_pos _

theorem div_ulp_lt (n : Nat) : n / ulp n < 2 ^ 24 := by
  apply Nat.div_lt_of_lt_mul
  calc n < 2 ^ (Nat.log2 n + 1) := Nat.lt_log2_self
    _ ≤ 2 ^ (Nat.log2 n - 23 + 24) := Nat.pow_le_pow_right (by omega) (by omega)
    _ = ulp n * 2 ^ 24 := Nat.pow_add _ _ _

/-- The rounded number is a multiple of the distance, by one of two factors. -/
theorem roundInt_eq (n : Nat) :
    roundInt n = n / ulp n * ulp n ∧ 2 * (n % ulp n) ≤ ulp n ∨
      roundInt n = (n / ulp n + 1) * ulp n ∧ ulp n ≤ 2 * (n % ulp n) := by
  simp only [roundInt]
  split
  · right
    refine ⟨rfl, ?_⟩
    omega
  · left
    refine ⟨rfl, ?_⟩
    omega

/-- A number of at most 24 digits keeps its value. -/
theorem roundInt_of_lt {n : Nat} (h : n < 2 ^ 24) : roundInt n = n := by
  have hlog : Nat.log2 n - 23 = 0 := by
    by_cases hn : n = 0
    · simp [hn]
    · have := (Nat.log2_lt hn).mpr h
      omega
  have hulp : ulp n = 1 := by rw [ulp, hlog, Nat.pow_zero]
  simp [roundInt, hulp, Nat.mod_one]

theorem truncLog2_of_lt {x : Nat} (h : x < 2 ^ 20) : truncLog2 x = Nat.log2 x := by
  by_cases hx : x = 0
  · subst hx
    decide
  have hpow : 2 ^ (Nat.log2 x + 1) ≤ 2 ^ 20 :=
    Nat.pow_le_pow_right (by omega) ((Nat.log2_lt hx).mpr h)
  have hself := Nat.lt_log2_self (n := x)
  rw [truncLog2, if_neg]
  omega

theorem ulp_dvd_two_pow {n k : Nat} (h : Nat.log2 n ≤ k) : ulp n ∣ 2 ^ k :=
  pow_dvd_pow 2 (by omega)

/-- Rounding does not cross a power of two. -/
theorem two_pow_le_roundInt {n k : Nat} (hlog : Nat.log2 n ≤ k) (h : 2 ^ k ≤ n) :
    2 ^ k ≤ roundInt n := by
  obtain ⟨j, hj⟩ := ulp_dvd_two_pow hlog
  have hle : j ≤ n / ulp n := by
    rw [Nat.le_div_iff_mul_le (ulp_pos n), Nat.mul_comm]
    omega
  rw [hj, Nat.mul_comm]
  rcases roundInt_eq n with ⟨h, -⟩ | ⟨h, -⟩
  · rw [h]
    exact Nat.mul_le_mul_right _ hle
  · rw [h]
    exact Nat.mul_le_mul_right _ (Nat.le_succ_of_le hle)

theorem roundInt_le_two_pow {n k : Nat} (h : n < 2 ^ k) : roundInt n ≤ 2 ^ k := by
  by_cases hn : n = 0
  · subst hn
    simp [roundInt]
  have hlog : Nat.log2 n < k := (Nat.log2_lt hn).mpr h
  obtain ⟨j, hj⟩ := ulp_dvd_two_pow (Nat.le_of_lt hlog)
  have hlt : n / ulp n < j := Nat.div_lt_of_lt_mul (by omega)
  rw [hj, Nat.mul_comm]
  rcases roundInt_eq n with ⟨h, -⟩ | ⟨h, -⟩
  · rw [h]
    exact Nat.mul_le_mul_right _ (Nat.le_of_lt hlt)
  · rw [h]
    exact Nat.mul_le_mul_right _ hlt

theorem log2_le_roundInt (n : Nat) : Nat.log2 n ≤ Nat.log2 (roundInt n) := by
  by_cases hn : n = 0
  · simp [hn]
  have hle := two_pow_le_roundInt le_rfl (Nat.log2_self_le hn)
  have hpos := Nat.two_pow_pos (Nat.log2 n)
  exact (Nat.le_log2 (by omega)).mpr hle

/-- A rounded number has 24 digits. -/
theorem ulp_dvd_roundInt (n : Nat) : ulp (roundInt n) ∣ roundInt n := by
  have hdvd : ulp n ∣ roundInt n := by
    rcases roundInt_eq n with ⟨h, -⟩ | ⟨h, -⟩
    · exact h ▸ Nat.dvd_mul_left _ _
    · exact h ▸ Nat.dvd_mul_left _ _
  have hle := roundInt_le_two_pow (n := n) Nat.lt_log2_self
  rcases Nat.lt_or_eq_of_le hle with hlt | heq
  · -- the logarithm is the same
    by_cases hzero : roundInt n = 0
    · simp [hzero]
    have hlog := (Nat.log2_lt hzero).mpr hlt
    have hsame : Nat.log2 (roundInt n) = Nat.log2 n := by
      have := log2_le_roundInt n
      omega
    rwa [ulp, hsame]
  · rw [heq]
    exact ulp_dvd_two_pow (by rw [Nat.log2_two_pow])

/-! ## Values -/

/-- A value of single precision, without its upper bound. -/
def IsFloat (y : ℝ) : Prop := ∃ m e : ℤ, |m| < 2 ^ 24 ∧ -149 ≤ e ∧ y = m * (2 : ℝ) ^ e

/-- `y` is a value next to `v`. -/
def IsNearest (y v : ℝ) : Prop := IsFloat y ∧ ∀ z, IsFloat z → |v - y| ≤ |v - z|

theorem isFloat_natCast {n : Nat} (h : n < 2 ^ 24) : IsFloat n := by
  refine ⟨n, 0, ?_, by decide, by simp⟩
  rw [Nat.abs_cast]
  exact_mod_cast h

theorem IsNearest.ge {y v a : ℝ} (h : IsNearest y v) (ha : IsFloat a) (hav : a ≤ v) : a ≤ y := by
  by_contra hlt
  have hdist := h.2 a ha
  rw [abs_of_nonneg (by linarith), abs_of_nonneg (by linarith)] at hdist
  linarith

theorem IsNearest.le {y v b : ℝ} (h : IsNearest y v) (hb : IsFloat b) (hvb : v ≤ b) : y ≤ b := by
  by_contra hlt
  have hdist := h.2 b hb
  rw [abs_of_nonpos (by linarith), abs_of_nonpos (by linarith)] at hdist
  linarith

/-- Values from 16 on are multiples of 2⁻¹⁹. -/
theorem IsFloat.le_sub {z : ℝ} {k : Nat} (hz : IsFloat z) (h16 : 16 ≤ z) (hlt : z < k) :
    z ≤ k - 1 / 2 ^ 19 := by
  obtain ⟨m, e, hm, -, rfl⟩ := hz
  have hpow : (0 : ℝ) < 2 ^ e := by positivity
  have hm' : (m : ℝ) < 2 ^ 24 := by exact_mod_cast (abs_lt.mp hm).2
  have hbig : (2 : ℝ) ^ (-20 : ℤ) < 2 ^ e := by
    have hmul : (m : ℝ) * 2 ^ e < 2 ^ 24 * 2 ^ e := mul_lt_mul_of_pos_right hm' hpow
    have htwenty : (2 : ℝ) ^ (-20 : ℤ) = 16 / 2 ^ 24 := by norm_num
    rw [htwenty]
    linarith
  have he : -20 < e := (zpow_lt_zpow_iff_right₀ (by norm_num)).mp hbig
  obtain ⟨j, hj⟩ := Int.eq_ofNat_of_zero_le (show 0 ≤ e + 19 by omega)
  have hscale : (m : ℝ) * 2 ^ e = ((m * 2 ^ j : ℤ) : ℝ) / 2 ^ 19 := by
    have hexp : e = (j : ℤ) - 19 := by omega
    rw [hexp, zpow_sub₀ (by norm_num), zpow_natCast]
    push_cast
    ring
  rw [hscale] at hlt ⊢
  rw [div_lt_iff₀ (by positivity)] at hlt
  have hint : m * 2 ^ j < (k : ℤ) * 2 ^ 19 := by exact_mod_cast hlt
  have hint' : ((m * 2 ^ j : ℤ) : ℝ) ≤ (k : ℝ) * 2 ^ 19 - 1 := by
    exact_mod_cast Int.le_sub_one_of_lt hint
  rw [div_le_iff₀ (by positivity), sub_mul]
  linarith

/-- The value before an integer. -/
theorem isFloat_sub {k : Nat} (hpos : 0 < k) (h : k ≤ 32) : IsFloat (k - 1 / 2 ^ 19) := by
  refine ⟨(k : ℤ) * 2 ^ 19 - 1, -19, ?_, by decide, ?_⟩
  · rw [abs_lt]
    omega
  · push_cast
    norm_num
    ring

/-! ## The rounded number is next to the number -/

theorem abs_sub_mul_ge {n u : Nat} (hu : 0 < u) (j : ℤ) :
    (min (n % u) (u - n % u) : ℕ) ≤ |(n : ℤ) - j * u| := by
  have hmod := Nat.mod_lt n hu
  have hn : ((n / u : ℕ) : ℤ) * u + (n % u : ℕ) = n := by exact_mod_cast Nat.div_add_mod' n u
  generalize hq : ((n / u : ℕ) : ℤ) = q at hn
  rcases Int.lt_or_le q j with hj | hj
  · have hmul : (q + 1) * u ≤ j * u := Int.mul_le_mul_of_nonneg_right hj (by omega)
    have hneg := neg_le_abs ((n : ℤ) - j * u)
    rw [Int.add_mul, Int.one_mul] at hmul
    omega
  · have hmul : j * u ≤ q * u := Int.mul_le_mul_of_nonneg_right hj (by omega)
    have hle := le_abs_self ((n : ℤ) - j * u)
    omega

theorem roundInt_dist (n : Nat) :
    |(n : ℤ) - roundInt n| = (min (n % ulp n) (ulp n - n % ulp n) : ℕ) := by
  have hmod := Nat.mod_lt n (ulp_pos n)
  have hn := Nat.div_add_mod' n (ulp n)
  rcases roundInt_eq n with ⟨h, hle⟩ | ⟨h, hle⟩
  · rw [abs_of_nonneg (by omega)]
    omega
  · rw [Nat.add_mul, Nat.one_mul] at h
    rw [abs_of_nonpos (by omega)]
    omega

/-- No value is nearer to a number than its multiples of the distance. -/
theorem dist_le_of_isFloat (n : Nat) {z : ℝ} (hz : IsFloat z) :
    ((min (n % ulp n) (ulp n - n % ulp n) : ℕ) : ℝ) ≤ |(n : ℝ) - z| := by
  obtain ⟨m, e, hm, -, rfl⟩ := hz
  by_cases he : ((Nat.log2 n - 23 : ℕ) : ℤ) ≤ e
  · -- a multiple of the distance
    obtain ⟨j, hj⟩ := Int.eq_ofNat_of_zero_le (show 0 ≤ e - (Nat.log2 n - 23 : ℕ) by omega)
    have hexp : e = (j : ℤ) + (Nat.log2 n - 23 : ℕ) := by omega
    have hz : (m : ℝ) * 2 ^ e = ((m * 2 ^ j * ulp n : ℤ) : ℝ) := by
      rw [hexp, zpow_add₀ (by norm_num), zpow_natCast, zpow_natCast, ulp]
      push_cast
      ring
    rw [hz]
    have hdist : (_ : ℝ) ≤ _ :=
      Int.cast_le.mpr (abs_sub_mul_ge (n := n) (ulp_pos n) (m * 2 ^ j))
    push_cast at hdist ⊢
    exact hdist
  · -- too small, or the distance is one
    rw [Int.not_le] at he
    by_cases hlog : Nat.log2 n < 23
    · have hulp : ulp n = 1 := by rw [ulp, Nat.sub_eq_zero_of_le (by omega), Nat.pow_zero]
      simp [hulp, Nat.mod_one]
    have hn : n ≠ 0 := by
      rintro rfl
      simp at hlog
    have hself : 2 ^ 23 * ulp n ≤ n := by
      rw [ulp, ← Nat.pow_add, Nat.add_sub_cancel' (by omega)]
      exact Nat.log2_self_le hn
    have hquot : 2 ^ 23 ≤ n / ulp n := (Nat.le_div_iff_mul_le (ulp_pos n)).mpr hself
    have hsmall : (m : ℝ) * 2 ^ e ≤ (n / ulp n * ulp n : ℕ) := by
      have hm' : (m : ℝ) < 2 ^ 24 := by exact_mod_cast (abs_lt.mp hm).2
      have hpow : (2 : ℝ) ^ e ≤ ulp n / 2 := by
        have hle : (2 : ℝ) ^ e ≤ 2 ^ (((Nat.log2 n - 23 : ℕ) : ℤ) - 1) :=
          zpow_le_zpow_right₀ (by norm_num) (by omega)
        rw [zpow_sub₀ (by norm_num), zpow_natCast, zpow_one] at hle
        rw [ulp]
        push_cast
        exact hle
      have hq : (2 : ℝ) ^ 23 * ulp n ≤ (n / ulp n * ulp n : ℕ) := by
        exact_mod_cast Nat.mul_le_mul_right (ulp n) hquot
      have hpos : (0 : ℝ) < 2 ^ e := by positivity
      have hmul : (m : ℝ) * 2 ^ e ≤ 2 ^ 24 * 2 ^ e :=
        mul_le_mul_of_nonneg_right hm'.le hpos.le
      linarith
    have hcast : (n : ℝ) = (n / ulp n * ulp n : ℕ) + (n % ulp n : ℕ) := by
      exact_mod_cast (Nat.div_add_mod' n (ulp n)).symm
    have hmin : ((min (n % ulp n) (ulp n - n % ulp n) : ℕ) : ℝ) ≤ (n % ulp n : ℕ) := by
      exact_mod_cast min_le_left _ _
    have habs := le_abs_self ((n : ℝ) - m * 2 ^ e)
    linarith

/-- A rounded number has at most 24 digits and a power of two. -/
theorem isFloat_mul {q s : Nat} (h : q ≤ 2 ^ 24) : IsFloat (q * 2 ^ s : ℕ) := by
  rcases Nat.lt_or_eq_of_le h with hlt | rfl
  · refine ⟨q, s, ?_, by omega, by push_cast; rw [zpow_natCast]⟩
    rw [Nat.abs_cast]
    exact_mod_cast hlt
  · refine ⟨1, (s + 24 : ℕ), by norm_num, by omega, ?_⟩
    rw [zpow_natCast, pow_add]
    push_cast
    ring

/-- **Rounding a number.** -/
theorem roundInt_nearest (n : Nat) : IsNearest (roundInt n) n := by
  constructor
  · have hlt := div_ulp_lt n
    rcases roundInt_eq n with ⟨h, -⟩ | ⟨h, -⟩
    · exact h ▸ isFloat_mul hlt.le
    · exact h ▸ isFloat_mul hlt
  · intro z hz
    have hdist : |(n : ℝ) - roundInt n| = ((min (n % ulp n) (ulp n - n % ulp n) : ℕ) : ℝ) := by
      have h := congrArg (Int.cast : ℤ → ℝ) (roundInt_dist n)
      push_cast at h ⊢
      exact h
    rw [hdist]
    exact dist_le_of_isFloat n hz

/-! ## The truncated logarithm -/

theorem logb_eq {x : Nat} (hx : 0 < x) (k : Nat) :
    Real.logb 2 x = k + Real.log (x / 2 ^ k) / Real.log 2 := by
  have hx' : (x : ℝ) ≠ 0 := by positivity
  have hlog : Real.log 2 ≠ 0 := ne_of_gt (Real.log_pos (by norm_num))
  rw [Real.log_div hx' (by positivity), Real.log_pow, Real.logb]
  field_simp
  ring

/-- A number so near to a power of two has a logarithm that is rounded to the
exponent. -/
theorem lt_logb_of_near {x k : Nat} (hx : 0 < x) (h : 2 ^ 24 * (2 ^ k - x) ≤ 11 * 2 ^ k) :
    (k : ℝ) - 1 / 2 ^ 20 < Real.logb 2 x := by
  have hlog := Real.log_two_gt_d9
  have hnear : 16777205 * (2 : ℝ) ^ k ≤ 16777216 * x := by
    have hnat : 16777205 * 2 ^ k ≤ 16777216 * x := by omega
    exact_mod_cast hnat
  have hinv : (2 ^ k / x : ℝ) ≤ 16777216 / 16777205 := by
    rw [div_le_div_iff₀ (by positivity) (by norm_num)]
    linarith
  have hlower := Real.one_sub_inv_le_log_of_pos (show (0 : ℝ) < x / 2 ^ k by positivity)
  rw [inv_div] at hlower
  have hdiv : -(1 / 2 ^ 20) < Real.log (x / 2 ^ k) / Real.log 2 := by
    rw [lt_div_iff₀ (by linarith)]
    linarith
  rw [logb_eq hx k]
  linarith

theorem logb_lt_of_far {x k : Nat} (hx : 0 < x) (h : 12 * 2 ^ k ≤ 2 ^ 24 * (2 ^ k - x)) :
    Real.logb 2 x < (k : ℝ) - 1 / 2 ^ 20 := by
  have hlog := Real.log_two_lt_d9
  have hpos : 0 < Real.log 2 := Real.log_pos (by norm_num)
  have hfar : 16777216 * (x : ℝ) ≤ 16777204 * 2 ^ k := by
    have hpow := Nat.two_pow_pos k
    have hnat : 16777216 * x ≤ 16777204 * 2 ^ k := by omega
    exact_mod_cast hnat
  have hquot : (x / 2 ^ k : ℝ) ≤ 16777204 / 16777216 := by
    rw [div_le_div_iff₀ (by positivity) (by norm_num)]
    linarith
  have hupper := Real.log_le_sub_one_of_pos (show (0 : ℝ) < x / 2 ^ k by positivity)
  have hdiv : Real.log (x / 2 ^ k) / Real.log 2 < -(1 / 2 ^ 20) := by
    rw [div_lt_iff₀ hpos]
    linarith
  rw [logb_eq hx k]
  linarith

/-- With 24 digits there is nothing between the two cases. -/
theorem far_of_not_near {x k : Nat} (hx : ulp x ∣ x) (hk : k = Nat.log2 x + 1)
    (h : ¬ 2 ^ 24 * (2 ^ k - x) ≤ 11 * 2 ^ k) : 12 * 2 ^ k ≤ 2 ^ 24 * (2 ^ k - x) := by
  subst hk
  obtain ⟨j, hj⟩ := hx
  by_cases hlog : 23 ≤ Nat.log2 x
  · have hpow : 2 ^ (Nat.log2 x + 1) = 2 ^ 24 * ulp x := by
      rw [ulp, ← Nat.pow_add]
      congr 1
      omega
    have hsub : 2 ^ (Nat.log2 x + 1) - x = (2 ^ 24 - j) * ulp x := by
      rw [hpow, Nat.sub_mul, Nat.mul_comm j, ← hj]
    rw [hsub, hpow] at h ⊢
    have hlt : 11 * (2 ^ 24 * ulp x) < (2 ^ 24 - j) * (2 ^ 24 * ulp x) := by
      rw [Nat.mul_left_comm] at h
      omega
    have hmore := Nat.lt_of_mul_lt_mul_right hlt
    rw [Nat.mul_left_comm (2 ^ 24) (2 ^ 24 - j)]
    exact Nat.mul_le_mul_right _ hmore
  · have hpow : 2 ^ 24 = 2 ^ (23 - Nat.log2 x) * 2 ^ (Nat.log2 x + 1) := by
      rw [← Nat.pow_add]
      congr 1
      omega
    rw [hpow, Nat.mul_right_comm] at h ⊢
    have hlt : 11 * 2 ^ (Nat.log2 x + 1) <
        2 ^ (23 - Nat.log2 x) * (2 ^ (Nat.log2 x + 1) - x) * 2 ^ (Nat.log2 x + 1) := by omega
    have hmore := Nat.lt_of_mul_lt_mul_right hlt
    exact Nat.mul_le_mul_right _ hmore

/-- **The truncated logarithm.** It is the integer part of any value next to the
logarithm. -/
theorem floor_eq_truncLog2 {x : Nat} (hpos : 0 < x) (hlt : x < 2 ^ 32) (hx : ulp x ∣ x) {y : ℝ}
    (hy : IsNearest y (Real.logb 2 x)) : ⌊y⌋ = truncLog2 x := by
  have hlog32 : Nat.log2 x < 32 := (Nat.log2_lt (by omega)).mpr hlt
  have hlow : ((Nat.log2 x : ℕ) : ℝ) ≤ Real.logb 2 x := by
    rw [Real.le_logb_iff_rpow_le (by norm_num) (by positivity), Real.rpow_natCast]
    exact_mod_cast Nat.log2_self_le (by omega)
  have hhigh : Real.logb 2 x ≤ (Nat.log2 x + 1 : ℕ) := by
    rw [Real.logb_le_iff_le_rpow (by norm_num) (by positivity), Real.rpow_natCast]
    exact_mod_cast Nat.lt_log2_self.le
  have hge := hy.ge (isFloat_natCast (by omega)) hlow
  have hle := hy.le (isFloat_natCast (by omega)) hhigh
  rw [truncLog2]
  split
  · rename_i hnear
    have hlog := lt_logb_of_near hpos hnear
    have heq : y = (Nat.log2 x + 1 : ℕ) := by
      apply le_antisymm hle
      by_contra hless
      rw [not_le] at hless
      -- the exponent is so large that the values are far apart
      have h16 : 16 ≤ Nat.log2 x := by
        by_contra hsmall
        have hpow : 2 ^ (Nat.log2 x + 1) ≤ 2 ^ 16 := Nat.pow_le_pow_right (by omega) (by omega)
        have hself := Nat.lt_log2_self (n := x)
        omega
      have h16' : (16 : ℝ) ≤ (Nat.log2 x : ℕ) := by exact_mod_cast h16
      have hsub := hy.1.le_sub (h16'.trans hge) hless
      have hdist := hy.2 _ (isFloat_natCast (show Nat.log2 x + 1 < 2 ^ 24 by omega))
      rw [abs_of_nonpos (a := Real.logb 2 x - (Nat.log2 x + 1 : ℕ)) (by linarith)] at hdist
      have hself := le_abs_self (Real.logb 2 x - y)
      linarith
    rw [heq, Int.floor_natCast]
  · rename_i hnot
    have hlog := logb_lt_of_far hpos (far_of_not_near hx rfl hnot)
    have hless : y < (Nat.log2 x + 1 : ℕ) := by
      apply lt_of_le_of_ne hle
      rintro rfl
      have hdist := hy.2 _ (isFloat_sub (show 0 < Nat.log2 x + 1 by omega) (by omega))
      rw [abs_of_nonpos (by linarith)] at hdist
      have hcases := abs_cases (Real.logb 2 x - (((Nat.log2 x + 1 : ℕ) : ℝ) - 1 / 2 ^ 19))
      rcases hcases with ⟨h, -⟩ | ⟨h, -⟩
      · linarith
      · linarith
    rw [Int.floor_eq_iff]
    push_cast at hless ⊢
    exact ⟨hge, hless⟩

end Binary32

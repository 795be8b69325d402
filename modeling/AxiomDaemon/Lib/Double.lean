import Mathlib.Algebra.Order.Field.Rat
import Mathlib.Data.Nat.Digits.Lemmas
import Mathlib.Data.Rat.Cast.Order
import Mathlib.Order.WithBot
import AxiomDaemon.Lib.JsonText
import Mathlib.Data.Int.ConditionallyCompleteOrder

/-!
The numbers of the type `double` and how C prints and reads them. A finite
number is a whole multiple of the least positive one, `2 ^ -1074`; printing
and rounding are on that multiple, so that no fraction is ever needed.
-/

namespace AxiomDaemon.Lib

open Json

/-- How many of the least positive doubles make one. -/
def unitScale : ℕ := 2 ^ 1074

/-- The power of the greatest doubles, counted from that of the least. -/
def greatestPower : ℕ := 2045

/-- `mantissa * 2 ^ (power - 1074)` with its sign. -/
structure FiniteDouble where
  negative : Bool
  mantissa : ℕ
  power : ℕ
  mantissa_lt : mantissa < 2 ^ 53
  power_le : power ≤ greatestPower
  deriving DecidableEq

/-- The zero without a sign. -/
def FiniteDouble.zero : FiniteDouble := ⟨false, 0, 0, by decide, by decide⟩

inductive Double
  | finite (d : FiniteDouble)
  | infinite (negative : Bool)
  | nan (negative : Bool)
  deriving DecidableEq

/-- The magnitude in units of `2 ^ -1074`. -/
def FiniteDouble.scaled (d : FiniteDouble) : ℕ := d.mantissa * 2 ^ d.power

def Double.isFinite : Double → Bool
  | .finite _ => true
  | _ => false

/-! ### Rounding -/

/-- `num / den` to the nearest whole number, and to the even one of two. -/
def roundHalfEven (num den : ℕ) : ℕ :=
  let q := num / den
  let r := num % den
  if 2 * r < den then q else if den < 2 * r then q + 1 else q + q % 2

theorem roundHalfEven_le_of_le_mul {num den k : ℕ} (hden : 0 < den) (h : num ≤ k * den) :
    roundHalfEven num den ≤ k := by
  have hdiv : num / den ≤ k := Nat.div_le_of_le_mul (by rwa [Nat.mul_comm])
  have hmod : num = den * (num / den) + num % den := (Nat.div_add_mod num den).symm
  rcases Nat.lt_or_eq_of_le hdiv with hlt | heq
  · simp only [roundHalfEven]
    split_ifs <;> omega
  · -- nothing is left over
    have hzero : num % den = 0 := by
      rw [heq, Nat.mul_comm] at hmod
      omega
    simp only [roundHalfEven, hzero]
    rw [if_pos (by omega)]
    exact hdiv

/-- The power of two below which the bits of `x` do not fit into a mantissa. -/
def roundPower (x : ℕ) : ℕ := Nat.log2 x - 52

theorem roundPower_le {x k : ℕ} (h : x < 2 ^ (53 + k)) : roundPower x ≤ k := by
  rw [roundPower]
  by_cases hx : x = 0
  · rw [hx, Nat.log2_zero]
    omega
  · have hlog := (Nat.log2_lt hx).mpr h
    omega

theorem greatest_lt (k : ℕ) : (2 ^ 53 - 1) * 2 ^ k < 2 ^ (53 + k) := by
  rw [Nat.pow_add]
  exact Nat.mul_lt_mul_of_pos_right (by decide) (Nat.two_pow_pos k)

/-- The double nearest to `num / den`. -/
def Double.ofRatio (negative : Bool) (num den : ℕ) : Double :=
  let power := roundPower (num * unitScale / den)
  let mantissa := roundHalfEven (num * unitScale) (den * 2 ^ power)
  if h : mantissa < 2 ^ 53 ∧ power ≤ greatestPower then
    .finite ⟨negative, mantissa, power, h.1, h.2⟩
  else if h : power + 1 ≤ greatestPower then
    .finite ⟨negative, 2 ^ 52, power + 1, by decide, h⟩
  else .infinite negative

/-- A ratio that is no greater than the greatest double is rounded to one. -/
theorem Double.ofRatio_isFinite (negative : Bool) {num den : ℕ} (hden : 0 < den)
    (h : num * unitScale ≤ (2 ^ 53 - 1) * 2 ^ greatestPower * den) :
    (Double.ofRatio negative num den).isFinite = true := by
  generalize hx : num * unitScale = x at h
  have hpower : roundPower (x / den) ≤ greatestPower := by
    have hdiv : x / den ≤ (2 ^ 53 - 1) * 2 ^ greatestPower :=
      Nat.div_le_of_le_mul (by rwa [Nat.mul_comm])
    exact roundPower_le (lt_of_le_of_lt hdiv (greatest_lt greatestPower))
  simp only [Double.ofRatio, hx]
  split
  · rfl
  · next hnot =>
      split
      · rfl
      · next hbig =>
          -- the greatest power: the mantissa is not rounded up
          have hpow : roundPower (x / den) = greatestPower := by omega
          have hmantissa : roundHalfEven x (den * 2 ^ greatestPower) ≤ 2 ^ 53 - 1 := by
            refine roundHalfEven_le_of_le_mul (Nat.mul_pos hden (Nat.two_pow_pos _)) ?_
            rwa [Nat.mul_comm den, ← Nat.mul_assoc]
          rw [hpow] at hnot
          omega

theorem unitScale_pos : 0 < unitScale := by
  unfold unitScale
  positivity

theorem two_pow_mul_two_pow_le {i j k : ℕ} (h : i + j ≤ k) : 2 ^ i * 2 ^ j ≤ 2 ^ k := by
  rw [← Nat.pow_add]
  exact Nat.pow_le_pow_right (by decide) h

theorem unitScale_le : 2 ^ 64 * unitScale ≤ 2 ^ greatestPower := by
  unfold unitScale greatestPower
  exact two_pow_mul_two_pow_le (by decide)

theorem FiniteDouble.scaled_le (d : FiniteDouble) :
    d.scaled ≤ (2 ^ 53 - 1) * 2 ^ greatestPower :=
  Nat.mul_le_mul (Nat.le_sub_one_of_lt d.mantissa_lt)
    (Nat.pow_le_pow_right (by decide) d.power_le)

/-- The quotient by a positive whole number. -/
def Double.div (k : ℕ) : Double → Double
  | .finite d => .ofRatio d.negative d.scaled (unitScale * k)
  | .infinite negative => .infinite negative
  | .nan negative => .nan negative

theorem Double.div_isFinite (d : FiniteDouble) {k : ℕ} (hk : 0 < k) :
    ((Double.finite d).div k).isFinite = true := by
  rw [Double.div]
  refine Double.ofRatio_isFinite _ (Nat.mul_pos unitScale_pos hk) ?_
  calc
    d.scaled * unitScale ≤ (2 ^ 53 - 1) * 2 ^ greatestPower * unitScale :=
      Nat.mul_le_mul_right _ d.scaled_le
    _ ≤ (2 ^ 53 - 1) * 2 ^ greatestPower * (unitScale * k) :=
      Nat.mul_le_mul_left _ (Nat.le_mul_of_pos_right _ hk)

theorem Double.ofRatio_word_isFinite (negative : Bool) {n : ℕ} (h : n < 2 ^ 64) :
    (Double.ofRatio negative n 1).isFinite = true := by
  refine Double.ofRatio_isFinite negative Nat.one_pos ?_
  calc
    n * unitScale ≤ 2 ^ 64 * unitScale := Nat.mul_le_mul_right _ h.le
    _ ≤ 2 ^ greatestPower := unitScale_le
    _ ≤ (2 ^ 53 - 1) * 2 ^ greatestPower := Nat.le_mul_of_pos_left _ (by decide)
    _ = (2 ^ 53 - 1) * 2 ^ greatestPower * 1 := (Nat.mul_one _).symm

theorem Double.exists_finite {d : Double} (h : d.isFinite = true) : ∃ f, d = .finite f := by
  cases d with
  | finite f => exact ⟨f, rfl⟩
  | infinite negative => simp [Double.isFinite] at h
  | nan negative => simp [Double.isFinite] at h

/-! ### Comparison -/

def Double.isNaN : Double → Bool
  | .nan _ => true
  | _ => false

/-- The finite number in units of `2 ^ -1074`. -/
def FiniteDouble.signed (d : FiniteDouble) : ℤ :=
  if d.negative then -(d.scaled : ℤ) else d.scaled

/-- The place of a number in the order of the numbers. -/
def Double.rank : Double → WithBot (WithTop ℤ)
  | .finite d => ↑(↑d.signed : WithTop ℤ)
  | .infinite false => ↑(⊤ : WithTop ℤ)
  | .infinite true => ⊥
  | .nan _ => ⊥

/-- `x < y`, which is false of what is not a number. -/
def Double.lt : Double → Double → Bool
  | .finite d, .finite e => decide (d.signed < e.signed)
  | .finite _, .infinite negative => !negative
  | .infinite negative, .finite _ => negative
  | .infinite negative, .infinite negative' => negative && !negative'
  | _, _ => false

theorem Double.lt_iff {x y : Double} (hx : x.isNaN = false) (hy : y.isNaN = false) :
    x.lt y = true ↔ x.rank < y.rank := by
  cases x with
  | nan negative => cases hx
  | finite d =>
      cases y with
      | nan negative => cases hy
      | finite e =>
          rw [Double.lt, decide_eq_true_iff, Double.rank, Double.rank, WithBot.coe_lt_coe,
            WithTop.coe_lt_coe]
      | infinite negative =>
          cases negative with
          | false =>
              rw [Double.rank, Double.rank, WithBot.coe_lt_coe]
              exact iff_of_true rfl (WithTop.coe_lt_top d.signed)
          | true => exact iff_of_false Bool.false_ne_true not_lt_bot
  | infinite negative =>
      cases y with
      | nan negative => cases hy
      | finite e =>
          cases negative with
          | false =>
              rw [Double.rank, Double.rank, WithBot.coe_lt_coe]
              exact iff_of_false Bool.false_ne_true not_top_lt
          | true => exact iff_of_true rfl (WithBot.bot_lt_coe _)
      | infinite negative' =>
          cases negative with
          | false => exact iff_of_false Bool.false_ne_true (by cases negative' <;> simp [Double.rank])
          | true =>
              cases negative' with
              | false => exact iff_of_true rfl (WithBot.bot_lt_coe _)
              | true => exact iff_of_false Bool.false_ne_true not_lt_bot

/-! ### Values -/

/-- The rational number that a double is, if it is one. -/
def Double.value : Double → Option ℚ
  | .finite d => some (d.signed / unitScale)
  | .infinite _ => none
  | .nan _ => none

theorem roundHalfEven_mul (q : ℕ) {den : ℕ} (hden : 0 < den) :
    roundHalfEven (q * den) den = q := by
  simp only [roundHalfEven, Nat.mul_mod_left, Nat.mul_div_cancel q hden]
  rw [if_pos (by omega)]

theorem roundHalfEven_exact {n : ℕ} (hn : n < 2 ^ 53) (k : ℕ) :
    roundHalfEven (n * 2 ^ k) (2 ^ roundPower (n * 2 ^ k)) < 2 ^ 53 ∧
      roundHalfEven (n * 2 ^ k) (2 ^ roundPower (n * 2 ^ k)) * 2 ^ roundPower (n * 2 ^ k) =
        n * 2 ^ k := by
  have hlt : n * 2 ^ k < 2 ^ (53 + k) := by
    rw [Nat.pow_add]
    exact Nat.mul_lt_mul_of_pos_right hn (Nat.two_pow_pos k)
  have hlog : n * 2 ^ k < 2 ^ (53 + roundPower (n * 2 ^ k)) := by
    refine lt_of_lt_of_le Nat.lt_log2_self (Nat.pow_le_pow_right (by decide) ?_)
    rw [roundPower]
    omega
  have hpower := roundPower_le hlt
  generalize roundPower (n * 2 ^ k) = power at hlog hpower
  -- the power divides the number, and what is left fits into a mantissa
  obtain ⟨j, rfl⟩ : ∃ j, k = j + power := Nat.exists_eq_add_of_le' hpower
  have hsplit : n * 2 ^ (j + power) = n * 2 ^ j * 2 ^ power := by
    rw [Nat.pow_add, Nat.mul_assoc]
  rw [hsplit, roundHalfEven_mul _ (Nat.two_pow_pos power)]
  rw [hsplit, Nat.pow_add] at hlog
  exact ⟨Nat.lt_of_mul_lt_mul_right hlog, rfl⟩

theorem Double.value_ofRatio_whole {n : ℕ} (hn : n < 2 ^ 53) :
    (Double.ofRatio false n 1).value = some (n : ℚ) := by
  obtain ⟨k, hk, hgreatest⟩ : ∃ k, unitScale = 2 ^ k ∧ k ≤ greatestPower :=
    ⟨1074, rfl, by decide⟩
  have hpower : roundPower (n * 2 ^ k) ≤ k := by
    apply roundPower_le
    rw [Nat.pow_add]
    exact Nat.mul_lt_mul_of_pos_right hn (Nat.two_pow_pos k)
  obtain ⟨hmantissa, hexact⟩ := roundHalfEven_exact hn k
  have hvalue : ((n * 2 ^ k : ℕ) : ℚ) / (2 ^ k : ℕ) = n := by
    rw [Nat.cast_mul]
    exact mul_div_cancel_right₀ _ (Nat.cast_ne_zero.mpr (Nat.two_pow_pos k).ne')
  simp only [Double.ofRatio, Nat.div_one, Nat.one_mul, hk]
  rw [dif_pos ⟨hmantissa, hpower.trans hgreatest⟩]
  simp only [Double.value, FiniteDouble.signed, FiniteDouble.scaled, Bool.false_eq_true, if_false,
    hexact, Int.cast_natCast, hk, hvalue]

/-! ### Printing -/

/-- The last `k` decimal digits of a number. -/
def fixedDigits : ℕ → ℕ → Bytes
  | 0, _ => []
  | k + 1, n => fixedDigits k (n / 10) ++ [UInt8.ofNat (0x30 + n % 10)]

/-- `%.kf`, for one decimal at least. -/
def Double.format (k : ℕ) : Double → Bytes
  | .finite d =>
      let n := roundHalfEven (d.scaled * 10 ^ k) unitScale
      (if d.negative then [minus] else []) ++
        (decimal (n / 10 ^ k) ++ dot :: fixedDigits k (n % 10 ^ k))
  | .infinite negative => (if negative then [minus] else []) ++ ascii "inf"
  | .nan negative => (if negative then [minus] else []) ++ ascii "nan"

theorem isDigit_of_mem_fixedDigits {k n : ℕ} {b : UInt8} (h : b ∈ fixedDigits k n) :
    isDigit b = true := by
  induction k generalizing n with
  | zero => simp [fixedDigits] at h
  | succ k ih =>
      rw [fixedDigits] at h
      rcases List.mem_append.mp h with hmem | hmem
      · exact ih hmem
      · rw [List.mem_singleton.mp hmem]
        exact isDigit_ofNat (Nat.mod_lt _ (by decide))

theorem fixedDigits_ne_nil (k n : ℕ) : fixedDigits (k + 1) n ≠ [] := by
  simp [fixedDigits]

theorem length_fixedDigits (k n : ℕ) : (fixedDigits k n).length = k := by
  induction k generalizing n with
  | zero => rfl
  | succ k ih => rw [fixedDigits, List.length_append, ih, List.length_singleton]

theorem length_decimal_le {n k : ℕ} (hk : 0 < k) (h : n < 10 ^ k) : (decimal n).length ≤ k := by
  rw [decimal]
  split
  · exact hk
  · rw [List.length_map, List.length_reverse]
    exact (Nat.digits_length_le_iff (by decide) n).mpr h

theorem Double.length_format_le (d : FiniteDouble) (k : ℕ) :
    ((Double.finite d).format k).length ≤ k + 311 := by
  have hgreatest : (2 ^ 53 - 1) * 2 ^ greatestPower ≤ 2 ^ 1024 * unitScale := by
    rw [unitScale, ← Nat.pow_add]
    exact (greatest_lt greatestPower).le
  have hscaled : d.scaled * 10 ^ k ≤ 2 ^ 1024 * 10 ^ k * unitScale := by
    rw [Nat.mul_right_comm]
    exact Nat.mul_le_mul_right _ (d.scaled_le.trans hgreatest)
  have hwhole := Nat.div_le_of_le_mul ((roundHalfEven_le_of_le_mul unitScale_pos hscaled).trans_eq
    (Nat.mul_comm _ _))
  have hdigits := length_decimal_le (show 0 < 309 by decide)
    (hwhole.trans_lt (show 2 ^ 1024 < 10 ^ 309 by decide +kernel))
  simp only [Double.format, List.length_append, List.length_cons, length_fixedDigits]
  split_ifs <;> simp only [List.length_nil, List.length_singleton] <;> omega

theorem Double.embeds_format (d : FiniteDouble) (k : ℕ) :
    Embeds ((Double.finite d).format (k + 1)) (.num ((Double.finite d).format (k + 1))) :=
  embeds_fraction (intText_decimal _) (fixedDigits_ne_nil _ _)
    (fun _ hb => isDigit_of_mem_fixedDigits hb) d.negative

end AxiomDaemon.Lib

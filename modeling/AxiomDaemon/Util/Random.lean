import Mathlib.Data.Int.CardIntervalMod

/-!
Random numbers below a bound, `nr_random_range`.

The generator is `nrand48` of the library, whose outputs are numbers below
`NR_RANDOM_MAX_EXCLUSIVE_LIMIT`. A generator is the list of its outputs from now on. Outputs
from the largest multiple of the bound on are passed over, so that the remainders of the
others are spread evenly.
-/

namespace AxiomDaemon.Util

/-- `NR_RANDOM_MAX_EXCLUSIVE_LIMIT`. -/
def nrRandomMaxExclusiveLimit : ℕ := 2 ^ 31

/-- `largest_multiple`. -/
def largestMultiple (maxExclusive : ℕ) : ℕ :=
  nrRandomMaxExclusiveLimit - nrRandomMaxExclusiveLimit % maxExclusive

/-- The loop of `nr_random_range`: the number and the outputs that are left, or nothing if
there are no more outputs before it ends. -/
def randomRangeLoop (maxExclusive : ℕ) : List ℕ → Option (ℕ × List ℕ)
  | [] => none
  | x :: outputs =>
      if x < largestMultiple maxExclusive then some (x % maxExclusive, outputs)
      else randomRangeLoop maxExclusive outputs

/-- `nr_random_range`, of a generator that is not `NULL`. -/
def nrRandomRange (maxExclusive : ℕ) (outputs : List ℕ) : Option (ℕ × List ℕ) :=
  if maxExclusive ≤ 1 then some (0, outputs)
  else if nrRandomMaxExclusiveLimit < maxExclusive then some (0, outputs)
  else randomRangeLoop maxExclusive outputs

theorem randomRangeLoop_lt {maxExclusive : ℕ} (hmax : 0 < maxExclusive) {outputs rest : List ℕ}
    {v : ℕ} (h : randomRangeLoop maxExclusive outputs = some (v, rest)) : v < maxExclusive := by
  induction outputs with
  | nil => cases h
  | cons x outputs ih =>
      rw [randomRangeLoop] at h
      split at h
      · rw [← (Prod.mk.inj (Option.some.inj h)).1]
        exact Nat.mod_lt x hmax
      · exact ih h

theorem nrRandomRange_lt {maxExclusive : ℕ} (hmax : 0 < maxExclusive) {outputs rest : List ℕ}
    {v : ℕ} (h : nrRandomRange maxExclusive outputs = some (v, rest)) : v < maxExclusive := by
  unfold nrRandomRange at h
  split at h
  · rw [← (Prod.mk.inj (Option.some.inj h)).1]
    exact hmax
  · split at h
    · rw [← (Prod.mk.inj (Option.some.inj h)).1]
      exact hmax
    · exact randomRangeLoop_lt hmax h

theorem nrRandomRange_append {maxExclusive : ℕ} (hlow : 1 < maxExclusive)
    (hhigh : maxExclusive ≤ nrRandomMaxExclusiveLimit) {rejected : List ℕ}
    (hrejected : ∀ x ∈ rejected, largestMultiple maxExclusive ≤ x) {x : ℕ}
    (hx : x < largestMultiple maxExclusive) (rest : List ℕ) :
    nrRandomRange maxExclusive (rejected ++ x :: rest) = some (x % maxExclusive, rest) := by
  rw [nrRandomRange, if_neg (Nat.not_le.mpr hlow), if_neg (Nat.not_lt.mpr hhigh)]
  induction rejected with
  | nil => rw [List.nil_append, randomRangeLoop, if_pos hx]
  | cons y rejected ih =>
      obtain ⟨hy, hrejected⟩ := List.forall_mem_cons.mp hrejected
      rw [List.cons_append, randomRangeLoop, if_neg (Nat.not_lt.mpr hy)]
      exact ih hrejected

/-- The largest multiple of a number up to a limit, cut into remainders. -/
theorem count_mod_eq {limit m v : ℕ} (hv : v < m) :
    Nat.count (fun x => x % m = v) (limit - limit % m) = limit / m := by
  have hm : 0 < m := Nat.zero_lt_of_lt hv
  have hmultiple : limit - limit % m = m * (limit / m) := by
    have hsplit := Nat.div_add_mod limit m
    omega
  have hcount := Nat.count_modEq_card (m * (limit / m)) hm v
  rw [Nat.mul_div_cancel_left _ hm, Nat.mul_mod_right, if_neg (Nat.not_lt_zero _),
    Nat.add_zero] at hcount
  rw [hmultiple]
  simpa only [Nat.ModEq, Nat.mod_eq_of_lt hv] using hcount

theorem count_lt_and {p : ℕ → Prop} [DecidablePred p] {bound limit : ℕ} (h : bound ≤ limit) :
    Nat.count (fun x => x < bound ∧ p x) limit = Nat.count p bound := by
  rw [Nat.count_eq_card_filter_range, Nat.count_eq_card_filter_range]
  congr 1
  ext x
  simp only [Finset.mem_filter, Finset.mem_range]
  constructor
  · exact fun hx => hx.2
  · exact fun hx => ⟨hx.1.trans_le h, hx⟩

theorem nrRandomRange_singleton {maxExclusive : ℕ} (hlow : 1 < maxExclusive)
    (hhigh : maxExclusive ≤ nrRandomMaxExclusiveLimit) (x v : ℕ) :
    (nrRandomRange maxExclusive [x]).map Prod.fst = some v ↔
      x < largestMultiple maxExclusive ∧ x % maxExclusive = v := by
  rw [nrRandomRange, if_neg (Nat.not_le.mpr hlow), if_neg (Nat.not_lt.mpr hhigh),
    randomRangeLoop]
  by_cases hx : x < largestMultiple maxExclusive
  · rw [if_pos hx, Option.map_some, Option.some_inj, and_iff_right hx]
  · rw [if_neg hx, randomRangeLoop, Option.map_none, iff_false_right (fun h => hx h.1)]
    simp

/-- Every number below the bound is what equally many outputs of the generator give. -/
theorem count_nrRandomRange {maxExclusive v : ℕ} (hv : v < maxExclusive)
    (hlimit : maxExclusive ≤ nrRandomMaxExclusiveLimit) :
    Nat.count (fun x => (nrRandomRange maxExclusive [x]).map Prod.fst = some v)
      nrRandomMaxExclusiveLimit = nrRandomMaxExclusiveLimit / maxExclusive := by
  rcases Nat.eq_or_lt_of_le (Nat.one_le_of_lt hv) with hone | hlow
  · -- without a choice no output is asked for
    have hzero : v = 0 := by omega
    have hall : ∀ x ∈ Finset.range nrRandomMaxExclusiveLimit,
        (nrRandomRange maxExclusive [x]).map Prod.fst = some v := by
      intro x _
      rw [nrRandomRange, if_pos hone.symm.le, Option.map_some, hzero]
    rw [Nat.count_eq_card_filter_range, Finset.filter_true_of_mem hall, Finset.card_range,
      ← hone, Nat.div_one]
  · simp only [nrRandomRange_singleton hlow hlimit]
    have hle : largestMultiple maxExclusive ≤ nrRandomMaxExclusiveLimit := Nat.sub_le _ _
    rw [count_lt_and hle, largestMultiple, count_mod_eq hv]

end AxiomDaemon.Util

import AxiomDaemon.Lib.Interval
import Mathlib.MeasureTheory.Measure.Lebesgue.Basic

/-!
The ticks that a list of intervals covers, as a length. A tick stands for the
stretch up to the next natural number, so that the number of covered ticks is
the Lebesgue measure of the union of the intervals, whatever their overlaps and
whether or not their ends belong to them.
-/

namespace AxiomDaemon.Lib

open MeasureTheory

theorem iUnion_Ico_eq (ivs : List (ℕ × ℕ)) :
    (⋃ iv ∈ ivs, Set.Ico (iv.1 : ℝ) iv.2) = ⋃ τ ∈ cover ivs, Set.Ico (τ : ℝ) (τ + 1) := by
  ext x
  simp only [Set.mem_iUnion, mem_cover, Set.mem_Ico, exists_prop]
  constructor
  · rintro ⟨iv, hiv, hstart, hstop⟩
    have hx : 0 ≤ x := (Nat.cast_nonneg iv.1).trans hstart
    exact ⟨⌊x⌋₊, ⟨iv, hiv, Nat.le_floor hstart, (Nat.floor_lt hx).mpr hstop⟩,
      Nat.floor_le hx, Nat.lt_floor_add_one x⟩
  · rintro ⟨τ, ⟨iv, hiv, hstart, hstop⟩, hlow, hhigh⟩
    refine ⟨iv, hiv, (Nat.cast_le.mpr hstart).trans hlow, hhigh.trans_le ?_⟩
    exact_mod_cast Nat.succ_le_of_lt hstop

/-- Every covered tick has length one, and the ends of the intervals have none. -/
theorem volume_iUnion_Icc (ivs : List (ℕ × ℕ)) :
    volume (⋃ iv ∈ ivs, Set.Icc (iv.1 : ℝ) iv.2) = (cover ivs).card := by
  have hends : (⋃ iv ∈ {iv | iv ∈ ivs}, Set.Icc (iv.1 : ℝ) iv.2) =ᵐ[volume]
      ⋃ iv ∈ {iv | iv ∈ ivs}, Set.Ico (iv.1 : ℝ) iv.2 :=
    Filter.EventuallyEq.countable_bUnion (List.finite_toSet ivs).countable fun iv _ =>
      Ico_ae_eq_Icc.symm
  have hdisjoint : (cover ivs : Set ℕ).PairwiseDisjoint fun τ => Set.Ico (τ : ℝ) (τ + 1) := by
    intro τ _ τ' _ hne
    have hcast :=
      Set.pairwise_disjoint_Ico_intCast ℝ (Nat.cast_injective.ne hne : (τ : ℤ) ≠ τ')
    simpa only [Function.onFun, Int.cast_natCast] using hcast
  calc
    volume (⋃ iv ∈ ivs, Set.Icc (iv.1 : ℝ) iv.2) = volume (⋃ iv ∈ ivs, Set.Ico (iv.1 : ℝ) iv.2) :=
      measure_congr hends
    _ = ∑ τ ∈ cover ivs, volume (Set.Ico (τ : ℝ) (τ + 1)) := by
      rw [iUnion_Ico_eq, measure_biUnion_finset hdisjoint fun _ _ => measurableSet_Ico]
    _ = (cover ivs).card := by simp [Real.volume_Ico]

/-- The part of an interval that is in a window. -/
def clip (a b : ℕ) (iv : ℕ × ℕ) : ℕ × ℕ := (max iv.1 a, min iv.2 b)

theorem cover_map_clip (a b : ℕ) (ivs : List (ℕ × ℕ)) :
    cover (ivs.map (clip a b)) = Finset.Ico a b ∩ cover ivs := by
  ext τ
  simp only [mem_cover, List.mem_map, exists_exists_and_eq_and, clip, Finset.mem_inter,
    Finset.mem_Ico]
  constructor
  · rintro ⟨iv, hiv, hstart, hstop⟩
    exact ⟨⟨by omega, by omega⟩, iv, hiv, by omega, by omega⟩
  · rintro ⟨⟨ha, hb⟩, iv, hiv, hstart, hstop⟩
    exact ⟨iv, hiv, by omega, by omega⟩

theorem volume_clipped (a b : ℕ) (ivs : List (ℕ × ℕ)) :
    volume (⋃ iv ∈ ivs, Set.Icc (iv.1 : ℝ) iv.2 ∩ Set.Icc (a : ℝ) b) =
      (Finset.Ico a b ∩ cover ivs).card := by
  have hclip : (⋃ iv ∈ ivs, Set.Icc (iv.1 : ℝ) iv.2 ∩ Set.Icc (a : ℝ) b) =
      ⋃ iv ∈ ivs.map (clip a b), Set.Icc (iv.1 : ℝ) iv.2 := by
    ext x
    simp only [Set.Icc_inter_Icc, Set.mem_iUnion, List.mem_map, exists_prop,
      exists_exists_and_eq_and, clip, Nat.cast_max, Nat.cast_min]
  rw [hclip, volume_iUnion_Icc, cover_map_clip]

end AxiomDaemon.Lib

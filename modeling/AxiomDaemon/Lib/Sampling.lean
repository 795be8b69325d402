import Mathlib.Algebra.Order.Field.Rat
import Mathlib.Data.List.GetD
import Mathlib.Data.List.Nodup
import Mathlib.Data.List.Range
import Mathlib.Tactic.NormNum.Basic

/-!
Sampling with a reservoir. The first elements fill it, and each one after them draws a
number below the count of the elements so far; if that is a place of the reservoir, the
element takes it. Elements are the numbers of their arrival, from 0.

All sequences of draws are listed, each one once, so that the share of those after which an
element is held can be counted.
-/

namespace AxiomDaemon.Lib

variable {k n : ℕ}

/-! ### Sequences of draws -/

/-- The sequences of draws for `n` elements and `k` places. -/
def drawSequences (k : ℕ) : ℕ → List (List ℕ)
  | 0 => [[]]
  | n + 1 =>
      if n < k then drawSequences k n
      else (drawSequences k n).flatMap fun draws => (List.range (n + 1)).map (draws ++ [·])

theorem drawSequences_of_le (h : n ≤ k) : drawSequences k n = [[]] := by
  induction n with
  | zero => rfl
  | succ n ih => rw [drawSequences, if_pos (Nat.lt_of_succ_le h), ih (Nat.le_of_succ_le h)]

theorem drawSequences_succ (h : k ≤ n) :
    drawSequences k (n + 1) =
      (drawSequences k n).flatMap fun draws => (List.range (n + 1)).map (draws ++ [·]) := by
  rw [drawSequences, if_neg (Nat.not_lt.mpr h)]

theorem mem_drawSequences_succ (h : k ≤ n) {draws : List ℕ} :
    draws ∈ drawSequences k (n + 1) ↔
      ∃ first ∈ drawSequences k n, ∃ d ≤ n, draws = first ++ [d] := by
  simp only [drawSequences_succ h, List.mem_flatMap, List.mem_map, List.mem_range,
    Nat.lt_succ_iff, eq_comm]

theorem length_drawSequences_succ (h : k ≤ n) :
    (drawSequences k (n + 1)).length = (n + 1) * (drawSequences k n).length := by
  rw [drawSequences_succ h, List.length_flatMap]
  simp only [List.length_map, List.length_range, List.map_const', List.sum_replicate_nat]
  exact Nat.mul_comm _ _

theorem length_drawSequences_pos (k n : ℕ) : 0 < (drawSequences k n).length := by
  induction n with
  | zero => exact Nat.one_pos
  | succ n ih =>
      rcases Nat.lt_or_ge n k with hn | hn
      · rw [drawSequences, if_pos hn]
        exact ih
      · rw [length_drawSequences_succ hn]
        exact Nat.mul_pos n.succ_pos ih

theorem nodup_drawSequences (k n : ℕ) : (drawSequences k n).Nodup := by
  induction n with
  | zero => exact List.nodup_singleton []
  | succ n ih =>
      rcases Nat.lt_or_ge n k with hn | hn
      · rw [drawSequences, if_pos hn]
        exact ih
      · rw [drawSequences_succ hn, List.nodup_flatMap]
        constructor
        · intro draws _
          refine List.nodup_range.map fun d d' h => ?_
          exact List.singleton_inj.mp (List.append_cancel_left h)
        · refine ih.imp fun {draws draws'} hne => ?_
          intro last hlast hlast'
          obtain ⟨d, -, rfl⟩ := List.mem_map.mp hlast
          obtain ⟨d', -, h⟩ := List.mem_map.mp hlast'
          exact hne (List.append_inj_left' h rfl).symm

/-- A sequence is listed if every element that is not the first to fill a place has a draw,
and each draw is among as many numbers as there are elements so far. -/
theorem mem_drawSequences_iff {draws : List ℕ} :
    draws ∈ drawSequences k n ↔
      draws.length = n - k ∧ ∀ i d, draws[i]? = some d → d ≤ k + i := by
  induction n generalizing draws with
  | zero =>
      rw [drawSequences, List.mem_singleton, Nat.zero_sub, List.length_eq_zero_iff]
      constructor
      · rintro rfl
        exact ⟨rfl, fun i d h => by simp at h⟩
      · exact fun h => h.1
  | succ n ih =>
      rcases Nat.lt_or_ge n k with hn | hn
      · rw [drawSequences, if_pos hn, ih, Nat.sub_eq_zero_of_le hn,
          Nat.sub_eq_zero_of_le (Nat.le_of_lt hn)]
      · rw [mem_drawSequences_succ hn]
        constructor
        · rintro ⟨first, hfirst, d, hd, rfl⟩
          obtain ⟨hlength, hbound⟩ := ih.mp hfirst
          refine ⟨by rw [List.length_append, List.length_singleton]; omega, fun i e he => ?_⟩
          rcases Nat.lt_or_ge i first.length with hi | hi
          · rw [List.getElem?_append_left hi] at he
            exact hbound i e he
          · rw [List.getElem?_append_right hi] at he
            obtain ⟨hzero, heq⟩ := List.getElem?_eq_some_iff.mp he
            rw [List.length_singleton] at hzero
            obtain rfl : d = e := by simpa [Nat.lt_one_iff.mp hzero] using heq
            omega
        · rintro ⟨hlength, hbound⟩
          have hne : draws ≠ [] := by
            rintro rfl
            rw [List.length_nil] at hlength
            omega
          refine ⟨draws.dropLast, ih.mpr ⟨?_, ?_⟩, draws.getLast hne, ?_,
            (List.dropLast_append_getLast hne).symm⟩
          · rw [List.length_dropLast]
            omega
          · intro i d h
            apply hbound i d
            rw [List.getElem?_dropLast] at h
            split at h
            · exact h
            · cases h
          · have hlast := hbound (draws.length - 1) (draws.getLast hne)
              (by rw [← List.getLast?_eq_getElem?, List.getLast?_eq_some_getLast hne])
            omega

/-! ### Elements that are held -/

/-- What a reservoir of `k` places that holds `held` holds after element `n` drew `d`. -/
def place (k : ℕ) (held : List ℕ) (n d : ℕ) : List ℕ := if d < k then held.set d n else held

/-- What is held after `n` elements. Element `n` draws what stands `k` places before it. -/
def sampleAfter (k : ℕ) : ℕ → List ℕ → List ℕ
  | 0, _ => []
  | n + 1, draws =>
      if n < k then sampleAfter k n draws ++ [n]
      else place k (sampleAfter k n draws) n (draws.getD (n - k) 0)

theorem sampleAfter_of_le (h : n ≤ k) (draws : List ℕ) : sampleAfter k n draws = List.range n := by
  induction n with
  | zero => rfl
  | succ n ih =>
      rw [sampleAfter, if_pos (Nat.lt_of_succ_le h), ih (Nat.le_of_succ_le h), List.range_succ]

theorem sampleAfter_append {draws : List ℕ} (h : n - k ≤ draws.length) (later : List ℕ) :
    sampleAfter k n (draws ++ later) = sampleAfter k n draws := by
  induction n with
  | zero => rfl
  | succ n ih =>
      rw [sampleAfter, sampleAfter, ih (by omega)]
      split
      · rfl
      · rw [List.getD_append _ _ _ _ (by omega)]

theorem sampleAfter_step (hk : k ≤ n) {draws : List ℕ} (h : draws ∈ drawSequences k n) (d : ℕ) :
    sampleAfter k (n + 1) (draws ++ [d]) = place k (sampleAfter k n draws) n d := by
  obtain ⟨hlength, -⟩ := mem_drawSequences_iff.mp h
  rw [sampleAfter, if_neg (Nat.not_lt.mpr hk), sampleAfter_append hlength.ge,
    List.getD_append_right _ _ _ _ hlength.le, hlength, Nat.sub_self, List.getD_cons_zero]

/-- What is held is as many different elements as there are places, or all. -/
structure IsSample (k n : ℕ) (held : List ℕ) : Prop where
  length_eq : held.length = min n k
  nodup : held.Nodup
  lt : ∀ i ∈ held, i < n

theorem IsSample.range (h : n ≤ k) : IsSample k n (List.range n) where
  length_eq := by rw [List.length_range, Nat.min_eq_left h]
  nodup := List.nodup_range
  lt _ hi := List.mem_range.mp hi

theorem IsSample.place {held : List ℕ} (h : IsSample k n held) (hk : k ≤ n) (d : ℕ) :
    IsSample k (n + 1) (place k held n d) := by
  have hlength : held.length = min (n + 1) k := by
    rw [h.length_eq]
    omega
  have hnew : n ∉ held := fun hmem => Nat.lt_irrefl n (h.lt n hmem)
  unfold Lib.place
  split
  · refine ⟨by rw [List.length_set, hlength], h.nodup.set hnew, fun i hi => ?_⟩
    rcases List.mem_or_eq_of_mem_set hi with hmem | rfl
    · exact Nat.lt_succ_of_lt (h.lt i hmem)
    · exact Nat.lt_succ_self i
  · exact ⟨hlength, h.nodup, fun i hi => Nat.lt_succ_of_lt (h.lt i hi)⟩

theorem isSample_sampleAfter (k n : ℕ) (draws : List ℕ) :
    IsSample k n (sampleAfter k n draws) := by
  induction n with
  | zero => exact .range (Nat.zero_le k)
  | succ n ih =>
      rcases Nat.lt_or_ge n k with hn | hn
      · rw [sampleAfter_of_le hn]
        exact .range hn
      · rw [sampleAfter, if_neg (Nat.not_lt.mpr hn)]
        exact ih.place hn _

/-! ### Counting -/

theorem mem_place_iff {held : List ℕ} (h : IsSample k n held) {i p : ℕ} (hi : i < n)
    (hp : held[p]? = some i) (d : ℕ) : i ∈ place k held n d ↔ d ≠ p := by
  have hplen : p < held.length := (List.getElem?_eq_some_iff.mp hp).1
  have hpk : p < k := by
    have hlength := h.length_eq
    omega
  unfold place
  split
  · next hd =>
      constructor
      · rintro hmem rfl
        obtain ⟨j, hj⟩ := List.mem_iff_getElem?.mp hmem
        rw [List.getElem?_set] at hj
        split at hj
        · exact Nat.ne_of_lt hi (Option.some.inj hj).symm
        · next hne =>
            -- the places of different elements are different
            exact hne ((List.getElem?_inj hplen h.nodup).mp (hp.trans hj.symm))
      · intro hne
        apply List.mem_iff_getElem?.mpr
        refine ⟨p, ?_⟩
        rw [List.getElem?_set_ne hne]
        exact hp
  · next hd =>
      refine iff_of_true (List.mem_iff_getElem?.mpr ⟨p, hp⟩) ?_
      omega

theorem countP_range_ne {p : ℕ} (hp : p ≤ n) :
    (List.range (n + 1)).countP (fun d => decide (d ≠ p)) = n := by
  have hsplit : (List.range (n + 1)).length = (List.range (n + 1)).count p +
      (List.range (n + 1)).countP (fun d => decide ¬(d == p) = true) :=
    List.length_eq_countP_add_countP (· == p)
  rw [List.length_range, List.count_range, if_pos (Nat.lt_succ_of_le hp)] at hsplit
  simp only [beq_iff_eq] at hsplit
  simp only [ne_eq]
  omega

theorem countP_range_lt (k n : ℕ) :
    (List.range n).countP (fun d => decide (d < k)) = min n k := by
  induction n with
  | zero => exact (Nat.zero_min k).symm
  | succ n ih =>
      rw [List.range_succ, List.countP_append, ih, List.countP_singleton]
      split
      · next h =>
          rw [decide_eq_true_iff] at h
          omega
      · next h =>
          rw [decide_eq_true_iff] at h
          omega

/-- An element that was held stays after all draws of the next one but one. -/
theorem countP_place_old {held : List ℕ} (h : IsSample k n held) {i : ℕ} (hi : i < n) :
    (List.range (n + 1)).countP (fun d => decide (i ∈ place k held n d)) =
      if i ∈ held then n else 0 := by
  split
  · next hmem =>
      obtain ⟨p, hp⟩ := List.mem_iff_getElem?.mp hmem
      have hplen : p < held.length := (List.getElem?_eq_some_iff.mp hp).1
      have hlength := h.length_eq
      simp only [mem_place_iff h hi hp]
      exact countP_range_ne (by omega)
  · next hmem =>
      rw [List.countP_eq_zero]
      intro d _ hplace
      rw [decide_eq_true_iff, place] at hplace
      split at hplace
      · rcases List.mem_or_eq_of_mem_set hplace with hold | hnew
        · exact hmem hold
        · exact Nat.ne_of_lt hi hnew
      · exact hmem hplace

/-- The next element itself is held after as many draws as there are places. -/
theorem countP_place_new {held : List ℕ} (h : IsSample k n held) (hk : k ≤ n) :
    (List.range (n + 1)).countP (fun d => decide (n ∈ place k held n d)) = k := by
  have hnew : n ∉ held := fun hmem => Nat.lt_irrefl n (h.lt n hmem)
  have hmem : ∀ d, n ∈ place k held n d ↔ d < k := by
    intro d
    unfold place
    split
    · next hd =>
        have hlength := h.length_eq
        exact iff_of_true (List.mem_set (by omega) n) hd
    · next hd => exact iff_of_false hnew hd
  simp only [hmem]
  rw [countP_range_lt]
  omega

/-- How many sequences of draws leave an element in the reservoir. -/
def heldCount (k n i : ℕ) : ℕ :=
  (drawSequences k n).countP fun draws => decide (i ∈ sampleAfter k n draws)

theorem heldCount_succ (hk : k ≤ n) (i : ℕ) :
    heldCount k (n + 1) i = ((drawSequences k n).map fun draws =>
      (List.range (n + 1)).countP fun d =>
        decide (i ∈ place k (sampleAfter k n draws) n d)).sum := by
  rw [heldCount, drawSequences_succ hk, List.countP_flatMap]
  congr 1
  refine List.map_congr_left fun draws hdraws => ?_
  rw [Function.comp_apply, List.countP_map]
  refine List.countP_congr fun d _ => ?_
  rw [Function.comp_apply, sampleAfter_step hk hdraws d]

theorem sum_map_ite {α : Type*} (p : α → Prop) [DecidablePred p] (n : ℕ) (l : List α) :
    (l.map fun a => if p a then n else 0).sum = n * l.countP fun a => decide (p a) := by
  induction l with
  | nil => rfl
  | cons a l ih =>
      rw [List.map_cons, List.sum_cons, ih, List.countP_cons]
      by_cases ha : p a
      · rw [if_pos ha, if_pos (decide_eq_true ha), Nat.mul_succ, Nat.add_comm]
      · rw [if_neg ha, if_neg (by simpa using ha), Nat.zero_add, Nat.add_zero]

theorem heldCount_old (hk : k ≤ n) {i : ℕ} (hi : i < n) :
    heldCount k (n + 1) i = n * heldCount k n i := by
  rw [heldCount_succ hk, heldCount, ← sum_map_ite]
  congr 1
  refine List.map_congr_left fun draws hdraws => ?_
  exact countP_place_old (isSample_sampleAfter k n draws) hi

theorem heldCount_new (hk : k ≤ n) :
    heldCount k (n + 1) n = k * (drawSequences k n).length := by
  have hconst : ((drawSequences k n).map fun draws => (List.range (n + 1)).countP fun d =>
      decide (n ∈ place k (sampleAfter k n draws) n d)) =
      (drawSequences k n).map fun _ => k := by
    refine List.map_congr_left fun draws hdraws => ?_
    exact countP_place_new (isSample_sampleAfter k n draws) hk
  rw [heldCount_succ hk, hconst, List.map_const', List.sum_replicate_nat, Nat.mul_comm]

/-- Of all sequences of draws, an element is held after the same share: as many of them as
there are places, for as many as there are elements. -/
theorem heldCount_mul (hk : k ≤ n) {i : ℕ} (hi : i < n) :
    heldCount k n i * n = k * (drawSequences k n).length := by
  induction n, hk using Nat.le_induction generalizing i with
  | base =>
      have hheld : i ∈ sampleAfter k k [] := by
        rw [sampleAfter_of_le le_rfl]
        exact List.mem_range.mpr hi
      rw [heldCount, drawSequences_of_le le_rfl, List.countP_singleton,
        if_pos (decide_eq_true hheld), List.length_singleton, Nat.mul_comm]
  | succ n hk ih =>
      rw [length_drawSequences_succ hk]
      rcases Nat.lt_succ_iff_lt_or_eq.mp hi with hlt | rfl
      · calc heldCount k (n + 1) i * (n + 1)
            = heldCount k n i * n * (n + 1) := by
              rw [heldCount_old hk hlt, Nat.mul_comm n]
          _ = k * ((n + 1) * (drawSequences k n).length) := by
              rw [ih hlt, Nat.mul_assoc, Nat.mul_comm (n + 1)]
      · rw [heldCount_new hk, Nat.mul_assoc, Nat.mul_comm (i + 1)]

theorem heldCount_div (hk : k ≤ n) {i : ℕ} (hi : i < n) :
    (heldCount k n i : ℚ) / (drawSequences k n).length = k / n := by
  have hn : (n : ℚ) ≠ 0 := Nat.cast_ne_zero.mpr (Nat.ne_of_gt (Nat.zero_lt_of_lt hi))
  have hlength : ((drawSequences k n).length : ℚ) ≠ 0 :=
    Nat.cast_ne_zero.mpr (Nat.ne_of_gt (length_drawSequences_pos k n))
  rw [div_eq_div_iff hlength hn]
  exact_mod_cast heldCount_mul hk hi

end AxiomDaemon.Lib

import AxiomDaemon.Axiom.TotalTime
import AxiomDaemon.Lib.IntervalMeasure

/-!
The exclusive time as a measure: the duration of the segment without the part
of it that the union of its children covers. Whatever sorts the transitions by
their comparison leaves the same list, so neither the order of the children nor
an earlier call makes a difference.
-/

namespace AxiomDaemon.Axiom

open AxiomDaemon.Lib MeasureTheory

/-! ### The calls -/

/-- The bytes that `nr_exclusive_time_create` allocates: the structure, and two transitions of 16
bytes for each child. -/
def nrExclusiveTimeAllocated (childSegments : ℕ) : ℕ := (32 + 16 * childSegments * 2) % 2 ^ 64

/-- One `nr_exclusive_time_add_child` after the other: what they return, and the structure
afterwards. -/
def addAll (et : Option NrExclusiveTime) :
    List (ℕ × ℕ) → List Bool × Option NrExclusiveTime
  | [] => ([], et)
  | iv :: ivs =>
      let (added, et) := nrExclusiveTimeAddChild et iv.1 iv.2
      let (rest, et) := addAll et ivs
      (added :: rest, et)

/-- What `nr_exclusive_time_calculate` leaves of the structure: `nr_sort` sorts the transitions in
their place. -/
def afterCalculate (et : Option NrExclusiveTime) : Option NrExclusiveTime :=
  et.map fun et =>
    let sorted := et.transitions.mergeSort fun a b =>
      decide (nrExclusiveTimeTransitionCompare a b ≤ 0)
    { et with transitions := sorted }

/-! ### The order of the transitions -/

/-- The loop reads the window of the structure and nothing else of it. -/
theorem calculateLoop_congr {et et' : NrExclusiveTime} (hstart : et.startTime = et'.startTime)
    (hstop : et.stopTime = et'.stopTime) (ts : List ExclusiveTimeTransition)
    (activeChildren lastStart exclusiveTime : ℕ) :
    calculateLoop et ts activeChildren lastStart exclusiveTime =
      calculateLoop et' ts activeChildren lastStart exclusiveTime := by
  induction ts generalizing activeChildren lastStart exclusiveTime with
  | nil => rfl
  | cons t ts ih => simp only [calculateLoop, hstart, hstop, ih]

/-- The value does not depend on the order of the transitions. -/
theorem calculate_perm {et et' : NrExclusiveTime} (hstart : et.startTime = et'.startTime)
    (hstop : et.stopTime = et'.stopTime) (h : et.transitions.Perm et'.transitions) :
    nrExclusiveTimeCalculate (some et) = nrExclusiveTimeCalculate (some et') := by
  simp only [nrExclusiveTimeCalculate, h.length_eq, mergeSort_congr h, hstart, hstop]
  split_ifs
  · rfl
  · exact calculateLoop_congr hstart hstop _ _ _ _

theorem calculate_afterCalculate (et : Option NrExclusiveTime) :
    nrExclusiveTimeCalculate (afterCalculate et) = nrExclusiveTimeCalculate et := by
  cases et with
  | none => rfl
  | some et => exact calculate_perm rfl rfl (List.mergeSort_perm _ _)

/-! ### The children of a segment -/

section Children

variable {et : Option NrExclusiveTime} {n startTime stopTime : ℕ} {ivs : List (ℕ × ℕ)}

theorem Records.addAll (h : Records et n startTime stopTime ivs) {new : List (ℕ × ℕ)}
    (hroom : ivs.length + new.length ≤ n) (hnew : ∀ iv ∈ new, iv.1 ≤ iv.2) :
    (addAll et new).1 = List.replicate new.length true ∧
      Records (addAll et new).2 n startTime stopTime (ivs ++ new) := by
  induction new generalizing et ivs with
  | nil => exact ⟨rfl, by rwa [List.append_nil]⟩
  | cons iv new ih =>
      obtain ⟨hiv, hnew⟩ := List.forall_mem_cons.mp hnew
      rw [List.length_cons] at hroom
      obtain ⟨hadded, hrecords⟩ := h.addChild iv (by omega) hiv
      obtain ⟨hrest, hall⟩ := ih hrecords
        (by rw [List.length_append, List.length_singleton]; omega) hnew
      rw [List.append_assoc, List.singleton_append] at hall
      refine ⟨?_, hall⟩
      rw [addAll, List.length_cons, List.replicate_succ, ← hrest, ← hadded]

/-- The transitions of the children that were planned for are in what was allocated. -/
theorem transitions_allocated (hn : 32 + 32 * n < 2 ^ 64) (hlen : ivs.length ≤ n) :
    32 + 16 * (recordOf n startTime stopTime ivs).transitions.length ≤
      nrExclusiveTimeAllocated n := by
  have hfilter := List.length_filter_le (touches startTime stopTime) ivs
  rw [recordOf, length_childTransitions, nrExclusiveTimeAllocated, Nat.mod_eq_of_lt (by omega)]
  omega

theorem perm_recordOf {ivs' : List (ℕ × ℕ)} (h : ivs'.Perm ivs) :
    (recordOf n startTime stopTime ivs').transitions.Perm
      (recordOf n startTime stopTime ivs).transitions :=
  (h.filter _).flatMap_right _

end Children

/-- For children that the structure was made for, of which less than 2 ^ 32 run at any instant of
the segment. -/
theorem exclusiveTime_spec {n startTime stopTime : ℕ} {ivs : List (ℕ × ℕ)}
    (hn : 32 + 32 * n < 2 ^ 64) (hordered : startTime ≤ stopTime) (hlen : ivs.length ≤ n)
    (hivs : ∀ iv ∈ ivs, iv.1 ≤ iv.2)
    (hcount : ∀ τ, startTime ≤ τ → τ ≤ stopTime → running ivs τ < 2 ^ 32) :
    ∃ et, addAll (nrExclusiveTimeCreate n startTime stopTime) ivs =
        (List.replicate ivs.length true, some et) ∧
      32 + 16 * et.transitions.length ≤ nrExclusiveTimeAllocated n ∧
      (nrExclusiveTimeCalculate (some et) : ℝ) = (stopTime - startTime : ℝ) -
        (volume (⋃ iv ∈ ivs, Set.Icc (iv.1 : ℝ) iv.2 ∩ Set.Icc (startTime : ℝ) stopTime)).toReal ∧
      (∀ ivs', ivs'.Perm ivs →
        nrExclusiveTimeCalculate (addAll (nrExclusiveTimeCreate n startTime stopTime) ivs').2 =
          nrExclusiveTimeCalculate (some et)) ∧
      nrExclusiveTimeCalculate (afterCalculate (some et)) = nrExclusiveTimeCalculate (some et) ∧
      ∀ sorted : List ExclusiveTimeTransition, sorted.Perm et.transitions →
        (sorted.Pairwise fun a b => nrExclusiveTimeTransitionCompare a b ≤ 0) →
        calculateLoopStrict et sorted 0 0 (nrTimeDuration startTime stopTime) =
          some (nrExclusiveTimeCalculate (some et)) := by
  have hcreate := records_create (show 2 * n < 2 ^ 64 by omega) hordered
  obtain ⟨hadded, hrecords⟩ := hcreate.addAll
    (by rw [List.length_nil, Nat.zero_add]; exact hlen) hivs
  rw [List.nil_append] at hrecords
  have hvalue := hrecords.calculate_of_running hivs hcount
  rw [hrecords.eq] at hvalue
  refine ⟨recordOf n startTime stopTime ivs, Prod.ext hadded hrecords.eq,
    transitions_allocated hn hlen, ?_, fun ivs' hperm => ?_, calculate_afterCalculate _,
    fun sorted hperm hsorted => ?_⟩
  · have hle : (Finset.Ico startTime stopTime ∩ cover ivs).card ≤ stopTime - startTime := by
      rw [← Nat.card_Ico]
      exact Finset.card_le_card Finset.inter_subset_left
    rw [hvalue, volume_clipped, ENNReal.toReal_natCast, Nat.cast_sub hle, Nat.cast_sub hordered]
  · obtain ⟨-, hrecords'⟩ := hcreate.addAll
      (by rw [List.length_nil, Nat.zero_add, hperm.length_eq]; exact hlen)
      fun iv hiv => hivs iv (hperm.mem_iff.mp hiv)
    rw [hrecords'.eq]
    exact calculate_perm rfl rfl (perm_recordOf hperm)
  · simp only [compare_le_iff] at hsorted
    rw [calculateLoopStrict_recordOf hordered hivs hcount hperm hsorted, hvalue]

/-- Two children that overlap, the first of which starts before the segment. -/
theorem exclusiveTime_spec_overlapping :
    ∃ et, addAll (nrExclusiveTimeCreate 2 10 20) [(5, 12), (11, 15)] =
        ([true, true], some et) ∧
      nrExclusiveTimeCalculate (afterCalculate (some et)) = nrExclusiveTimeCalculate (some et) := by
  obtain ⟨et, hadded, -, -, -, hagain, -⟩ :=
    exclusiveTime_spec (show 32 + 32 * 2 < 2 ^ 64 by decide) (show 10 ≤ 20 by decide)
      (show [(5, 12), (11, 15)].length ≤ 2 from le_rfl) (by decide)
      fun τ _ _ => (running_le_length _ τ).trans_lt (by decide)
  exact ⟨et, hadded, hagain⟩

theorem calculate_addAll_crowded {n : ℕ} (hn : n % 2 ^ 32 = 0) (hfits : 2 * n < 2 ^ 64) :
    nrExclusiveTimeCalculate
      (addAll (nrExclusiveTimeCreate n 0 1) (List.replicate n (0, 1))).2 = 1 := by
  obtain ⟨-, hrecords⟩ := (records_create hfits (Nat.zero_le 1)).addAll
    (show ([] : List (ℕ × ℕ)).length + (List.replicate n (0, 1)).length ≤ n by
      rw [List.length_nil, List.length_replicate, Nat.zero_add])
    fun iv hiv => by rw [List.eq_of_mem_replicate hiv]; exact Nat.zero_le 1
  rw [List.nil_append] at hrecords
  rw [hrecords.eq]
  exact calculate_crowded n hn

/-- For 2 ^ 63 children the capacity is zero, and the first of them is not added. With 2 ^ 32
children running at once the counter is back at zero, and their segment keeps its whole duration
though they cover it. -/
theorem exclusiveTime_overflows :
    (addAll (nrExclusiveTimeCreate (2 ^ 63) 0 1) [(0, 1)]).1 = [false] ∧
      nrExclusiveTimeCalculate
        (addAll (nrExclusiveTimeCreate (2 ^ 32) 0 1) (List.replicate (2 ^ 32) (0, 1))).2 = 1 ∧
      volume (⋃ iv ∈ List.replicate (2 ^ 32) ((0, 1) : ℕ × ℕ),
        Set.Icc (iv.1 : ℝ) iv.2 ∩ Set.Icc ((0 : ℕ) : ℝ) (1 : ℕ)) = 1 := by
  refine ⟨by decide, calculate_addAll_crowded (Nat.mod_self _) (by decide), ?_⟩
  rw [volume_clipped, inter_cover_replicate _ (by decide), Nat.card_Ico, Nat.cast_one]

end AxiomDaemon.Axiom

import AxiomDaemon.Lib.Transition
import AxiomDaemon.Util.Random
import Mathlib.Analysis.SpecialFunctions.Pow.Real

/-!
Adaptive sampling, `nr_app_harvest.c`. Times are microseconds since the epoch in
64 bits. The counters of transactions are taken to be numbers without bound, and
the powers of the back-off to be those of the real numbers.
-/

namespace AxiomDaemon.Axiom

open AxiomDaemon.Lib

/-- A sum of times, which wraps. -/
def nrtime (t : ℕ) : ℕ := t % 2 ^ 64

/-- `nr_app_harvest_t`. -/
structure NrAppHarvest where
  connectTimestamp : ℕ
  frequency : ℕ
  targetTransactionsPerCycle : ℕ
  nextHarvest : ℕ
  threshold : ℕ
  prevTransactionsSeen : ℕ
  transactionsSeen : ℕ
  transactionsSampled : ℕ

/-- A harvest whose bytes are all zero. -/
def NrAppHarvest.zero : NrAppHarvest where
  connectTimestamp := 0
  frequency := 0
  targetTransactionsPerCycle := 0
  nextHarvest := 0
  threshold := 0
  prevTransactionsSeen := 0
  transactionsSeen := 0
  transactionsSampled := 0

/-- `nr_app_harvest_calculate_next_harvest_time`. -/
def calculateNextHarvestTime (ah : NrAppHarvest) (now : ℕ) : ℕ :=
  if now < ah.connectTimestamp then ah.connectTimestamp
  else if ah.frequency = 0 then ah.connectTimestamp
  else
    let cycles := (now - ah.connectTimestamp) / ah.frequency
    nrtime (ah.connectTimestamp + ah.frequency * (cycles + 1))

/-- `nr_app_harvest_calculate_threshold`; the conversion to an integer cuts the
fraction off. -/
noncomputable def calculateThreshold (target sampledTrueCount : ℕ) : ℕ :=
  if sampledTrueCount = 0 ∨ target = 0 ∨ sampledTrueCount < target then 0
  else ⌊(target : ℝ) ^ ((target : ℝ) / sampledTrueCount) - (target : ℝ) ^ (1 / 2 : ℝ)⌋₊

/-- `nr_app_harvest_compare_harvest_to_now`. -/
def compareHarvestToNow (connectTimestamp frequency now : ℕ) : Bool :=
  now < nrtime (connectTimestamp + frequency)

/-- `nr_app_harvest_is_first`. -/
def isFirst (ah : NrAppHarvest) (now : ℕ) : Bool :=
  compareHarvestToNow ah.connectTimestamp ah.frequency now

/-- `nr_app_harvest_private_init`. -/
def privateInit (ah : NrAppHarvest) (connectTimestamp harvestFrequency samplingTarget now : ℕ) :
    NrAppHarvest :=
  let new := { ah with
    connectTimestamp
    frequency := harvestFrequency
    targetTransactionsPerCycle := samplingTarget }
  if connectTimestamp ≠ ah.connectTimestamp ∨ harvestFrequency ≠ ah.frequency then
    { new with
      nextHarvest := calculateNextHarvestTime new now
      threshold := 0
      prevTransactionsSeen := 0
      transactionsSeen := 0
      transactionsSampled := 0 }
  else new

/-- `NR_RANDOM_MAX_EXCLUSIVE_LIMIT`. -/
def nrRandomMaxExclusiveLimit : ℕ := 2 ^ 31

/-- `nr_random_range`, where `x` is the number the generator comes to. -/
def nrRandomRange (x maxExclusive : ℕ) : ℕ :=
  if maxExclusive ≤ 1 then 0
  else if nrRandomMaxExclusiveLimit < maxExclusive then 0
  else x % maxExclusive

/-- The generator comes to the first of its outputs that is not passed over. -/
theorem nrRandomRange_of_outputs {maxExclusive : ℕ} (hlow : 1 < maxExclusive)
    (hhigh : maxExclusive ≤ nrRandomMaxExclusiveLimit) {rejected : List ℕ}
    (hrejected : ∀ y ∈ rejected, Util.largestMultiple maxExclusive ≤ y) {x : ℕ}
    (hx : x < Util.largestMultiple maxExclusive) (rest : List ℕ) :
    Util.nrRandomRange maxExclusive (rejected ++ x :: rest) =
      some (nrRandomRange x maxExclusive, rest) := by
  rw [Util.nrRandomRange_append hlow hhigh hrejected hx, nrRandomRange,
    if_neg (Nat.not_le.mpr hlow), if_neg (Nat.not_lt.mpr hhigh)]

/-- A new harvest is begun if the time has come. -/
noncomputable def NrAppHarvest.roll (ah : NrAppHarvest) (now : ℕ) : NrAppHarvest :=
  if ah.nextHarvest ≤ now then
    { ah with
      threshold := calculateThreshold ah.targetTransactionsPerCycle ah.transactionsSampled
      prevTransactionsSeen :=
        if nrtime (ah.nextHarvest + ah.frequency) ≤ now then 0 else ah.transactionsSeen
      transactionsSeen := 0
      transactionsSampled := 0
      nextHarvest := calculateNextHarvestTime ah now }
  else ah

/-- The transaction is sampled. -/
def NrAppHarvest.sample (ah : NrAppHarvest) : NrAppHarvest × Bool :=
  ({ ah with transactionsSampled := ah.transactionsSampled + 1 }, true)

/-- The part of `nr_app_harvest_private_should_sample` that decides. -/
noncomputable def NrAppHarvest.decideSample (ah : NrAppHarvest) (x now : ℕ) : NrAppHarvest × Bool :=
  if isFirst ah now then
    if ah.transactionsSampled < ah.targetTransactionsPerCycle then ah.sample else (ah, false)
  else if ah.transactionsSampled < ah.targetTransactionsPerCycle then
    if nrRandomRange x ah.prevTransactionsSeen < ah.targetTransactionsPerCycle then ah.sample
    else (ah, false)
  else
    let ah := { ah with
      threshold := calculateThreshold ah.targetTransactionsPerCycle ah.transactionsSampled }
    if nrRandomRange x ah.transactionsSeen < ah.threshold then ah.sample else (ah, false)

/-- `nr_app_harvest_private_should_sample`. -/
noncomputable def privateShouldSample (ah : NrAppHarvest) (x now : ℕ) : NrAppHarvest × Bool :=
  let ah := ah.roll now
  { ah with transactionsSeen := ah.transactionsSeen + 1 }.decideSample x now

/-! ### The back-off -/

/-- Nothing is sampled beyond twice the target: there the two powers are the same. -/
theorem calculateThreshold_two_mul (target : ℕ) : calculateThreshold target (2 * target) = 0 := by
  rw [calculateThreshold]
  split
  · rfl
  · next h =>
      have hpos : (target : ℝ) ≠ 0 := Nat.cast_ne_zero.mpr fun h0 => h (Or.inr (Or.inl h0))
      have hhalf : (target : ℝ) / (2 * target : ℕ) = 1 / 2 := by
        push_cast
        field_simp
      rw [hhalf, sub_self, Nat.floor_zero]

/-! ### A run -/

/-- A harvest with the decisions made so far, the last one first. -/
structure Sampling where
  harvest : NrAppHarvest
  decided : List (ℕ × Bool)

/-- A call at a time, and the number the generator comes to. -/
structure SampleCall where
  now : ℕ
  x : ℕ

noncomputable def execSampleCall (s : Sampling) (call : SampleCall) : Sampling :=
  let result := privateShouldSample s.harvest call.x call.now
  { harvest := result.1, decided := (call.now, result.2) :: s.decided }

/-! ### What a decision does -/

section Deciding

variable {ah : NrAppHarvest} {x now : ℕ}

theorem decideSample_fst (ah : NrAppHarvest) (x now : ℕ) :
    ∃ threshold, (ah.decideSample x now).1 = { ah with
      threshold
      transactionsSampled := ah.transactionsSampled + (ah.decideSample x now).2.toNat } := by
  rw [NrAppHarvest.decideSample]
  split
  · split
    · exact ⟨ah.threshold, rfl⟩
    · exact ⟨ah.threshold, rfl⟩
  · split
    · split
      · exact ⟨ah.threshold, rfl⟩
      · exact ⟨ah.threshold, rfl⟩
    · simp only
      split
      · exact ⟨_, rfl⟩
      · exact ⟨_, rfl⟩

theorem decideSample_first (h : isFirst ah now = true) :
    (ah.decideSample x now).2 = decide (ah.transactionsSampled < ah.targetTransactionsPerCycle) := by
  rw [NrAppHarvest.decideSample, if_pos h]
  split
  · next hlt => exact (decide_eq_true hlt).symm
  · next hnot => exact (decide_eq_false hnot).symm

theorem decideSample_lt
    (h : ah.transactionsSampled ≤ 2 * ah.targetTransactionsPerCycle)
    (hsample : (ah.decideSample x now).2 = true) :
    ah.transactionsSampled < 2 * ah.targetTransactionsPerCycle := by
  by_contra hnot
  have heq : ah.transactionsSampled = 2 * ah.targetTransactionsPerCycle :=
    Nat.le_antisymm h (Nat.not_lt.mp hnot)
  have hge : ¬ ah.transactionsSampled < ah.targetTransactionsPerCycle := by omega
  have hthreshold : calculateThreshold ah.targetTransactionsPerCycle ah.transactionsSampled = 0 := by
    rw [heq, calculateThreshold_two_mul]
  rw [NrAppHarvest.decideSample] at hsample
  simp only [hthreshold, if_neg hge, Nat.not_lt_zero, if_false] at hsample
  split at hsample <;> cases hsample

end Deciding

/-! ### The pace of a run -/

/-- What the daemon asks for. -/
structure Pace where
  connectTimestamp : ℕ
  frequency : ℕ
  target : ℕ

/-- The cycle of a time, counted from the connection. -/
def Pace.cycle (pace : Pace) (t : ℕ) : ℕ := (t - pace.connectTimestamp) / pace.frequency

/-- The decisions of one cycle. -/
def Sampling.inCycle (s : Sampling) (pace : Pace) (c : ℕ) : List (ℕ × Bool) :=
  s.decided.filter fun d => pace.cycle d.1 = c

/-- The last decisions first: of `n` transactions those up to the target are sampled. -/
def firstSamples (n target : ℕ) : List Bool :=
  List.replicate (n - target) false ++ List.replicate (min n target) true

theorem firstSamples_succ (n target : ℕ) :
    firstSamples (n + 1) target = decide (n < target) :: firstSamples n target := by
  rw [firstSamples, firstSamples]
  rcases Nat.lt_or_ge n target with hlt | hge
  · rw [decide_eq_true hlt, Nat.sub_eq_zero_of_le hlt.le, Nat.sub_eq_zero_of_le hlt,
      Nat.min_eq_left hlt.le, Nat.min_eq_left hlt]
    rfl
  · rw [decide_eq_false (Nat.not_lt.mpr hge), Nat.succ_sub hge, Nat.min_eq_right hge,
      Nat.min_eq_right (Nat.le_succ_of_le hge)]
    rfl

theorem countP_firstSamples (n target : ℕ) : (firstSamples n target).countP id = min n target := by
  rw [firstSamples, List.countP_append, List.countP_replicate, List.countP_replicate,
    if_neg (show ¬ id false = true from Bool.false_ne_true), if_pos (show id true = true from rfl),
    Nat.zero_add]

/-- What is known of a harvest at `t`, the time of the last call. -/
structure Sampling.Paced (s : Sampling) (pace : Pace) (t : ℕ) : Prop where
  connect : s.harvest.connectTimestamp = pace.connectTimestamp
  frequency : s.harvest.frequency = pace.frequency
  target : s.harvest.targetTransactionsPerCycle = pace.target
  next : s.harvest.nextHarvest = pace.connectTimestamp + pace.frequency * (pace.cycle t + 1)
  seen : s.harvest.transactionsSeen = (s.inCycle pace (pace.cycle t)).length
  sampled : s.harvest.transactionsSampled = (s.inCycle pace (pace.cycle t)).countP Prod.snd
  prev : s.harvest.prevTransactionsSeen =
    (s.decided.filter fun d => pace.cycle d.1 + 1 = pace.cycle t).length
  past : ∀ d ∈ s.decided, pace.cycle d.1 ≤ pace.cycle t
  first : (s.inCycle pace 0).map Prod.snd = firstSamples (s.inCycle pace 0).length pace.target
  budget : ∀ c, 1 ≤ c → (s.inCycle pace c).countP Prod.snd ≤ 2 * pace.target

section Pacing

variable {pace : Pace} {t now : ℕ} {s : Sampling}

theorem Pace.cycle_mono (h : t ≤ now) : pace.cycle t ≤ pace.cycle now :=
  Nat.div_le_div_right (Nat.sub_le_sub_right h pace.connectTimestamp)

/-- A cycle has begun at a time if it is not after that of the time. -/
theorem Pace.le_iff (hconnect : pace.connectTimestamp ≤ t) (hfrequency : 0 < pace.frequency)
    (c : ℕ) : pace.connectTimestamp + pace.frequency * c ≤ t ↔ c ≤ pace.cycle t := by
  rw [Pace.cycle, Nat.le_div_iff_mul_le hfrequency, Nat.le_sub_iff_add_le hconnect,
    Nat.mul_comm c, Nat.add_comm]

theorem nrtime_of_lt (h : t < 2 ^ 64) : nrtime t = t := Nat.mod_eq_of_lt h

theorem calculateNextHarvestTime_eq {ah : NrAppHarvest}
    (hc : ah.connectTimestamp = pace.connectTimestamp) (hf : ah.frequency = pace.frequency)
    (hconnect : pace.connectTimestamp ≤ now) (hfrequency : 0 < pace.frequency)
    (hroom : now + pace.frequency < 2 ^ 64) :
    calculateNextHarvestTime ah now =
      pace.connectTimestamp + pace.frequency * (pace.cycle now + 1) := by
  have hle := (pace.le_iff hconnect hfrequency (pace.cycle now)).mpr (Nat.le_refl _)
  rw [calculateNextHarvestTime, hc, hf, if_neg (Nat.not_lt.mpr hconnect), if_neg hfrequency.ne']
  refine nrtime_of_lt ?_
  rw [← Pace.cycle, Nat.mul_add]
  omega

/-- The counters are rolled over if the time is in a later cycle. -/
theorem Sampling.Paced.roll (h : s.Paced pace t) (hconnect : pace.connectTimestamp ≤ t)
    (hfrequency : 0 < pace.frequency) (hle : t ≤ now) (hroom : now + pace.frequency < 2 ^ 64) :
    Sampling.Paced { s with harvest := s.harvest.roll now } pace now := by
  have hmono : pace.cycle t ≤ pace.cycle now := Pace.cycle_mono hle
  have hconnect' := hconnect.trans hle
  have hlater : s.harvest.nextHarvest ≤ now ↔ pace.cycle t < pace.cycle now := by
    rw [h.next, pace.le_iff hconnect' hfrequency]
    rfl
  by_cases hroll : s.harvest.nextHarvest ≤ now
  · have hlt := hlater.mp hroll
    have hempty : s.inCycle pace (pace.cycle now) = [] :=
      List.filter_eq_nil_iff.mpr fun d hd => by
        simpa using (Nat.lt_of_le_of_lt (h.past d hd) hlt).ne
    -- no addition wraps: the next harvest is not after `now`
    have hskipped : nrtime (s.harvest.nextHarvest + s.harvest.frequency) ≤ now ↔
        pace.cycle t + 1 < pace.cycle now := by
      rw [nrtime_of_lt (by rw [h.frequency]; omega), h.next, h.frequency, Nat.add_assoc,
        ← Nat.mul_add_one, pace.le_iff hconnect' hfrequency]
      rfl
    rw [NrAppHarvest.roll, if_pos hroll]
    exact {
      connect := h.connect
      frequency := h.frequency
      target := h.target
      next := calculateNextHarvestTime_eq h.connect h.frequency hconnect' hfrequency hroom
      seen := congrArg List.length hempty.symm
      sampled := congrArg (List.countP Prod.snd) hempty.symm
      prev := by
        show (if _ then 0 else s.harvest.transactionsSeen) = _
        split
        · next hskip =>
            have hskip := hskipped.mp hskip
            refine (List.length_eq_zero_iff.mpr (List.filter_eq_nil_iff.mpr fun d hd => ?_)).symm
            have hpast := h.past d hd
            simp only [decide_eq_true_eq]
            omega
        · next hnot =>
            have hnot := hskipped.not.mp hnot
            rw [h.seen, Sampling.inCycle]
            refine congrArg List.length (List.filter_congr fun d _ => decide_eq_decide.mpr ?_)
            omega
      past := fun d hd => (h.past d hd).trans hmono
      first := h.first
      budget := h.budget }
  · have heq : pace.cycle t = pace.cycle now :=
      Nat.le_antisymm hmono (Nat.not_lt.mp (hlater.not.mp hroll))
    rw [NrAppHarvest.roll, if_neg hroll]
    exact {
      connect := h.connect
      frequency := h.frequency
      target := h.target
      next := heq ▸ h.next
      seen := heq ▸ h.seen
      sampled := heq ▸ h.sampled
      prev := heq ▸ h.prev
      past := heq ▸ h.past
      first := h.first
      budget := h.budget }

theorem Sampling.inCycle_cons (harvest : NrAppHarvest) (d : ℕ × Bool) (decided : List (ℕ × Bool))
    (c : ℕ) : Sampling.inCycle ⟨harvest, d :: decided⟩ pace c =
      if pace.cycle d.1 = c then d :: Sampling.inCycle ⟨harvest, decided⟩ pace c
      else Sampling.inCycle ⟨harvest, decided⟩ pace c := by
  rw [Sampling.inCycle, List.filter_cons]
  simp only [decide_eq_true_eq]
  rfl

/-- The first cycle is the one in which the first transactions are sampled. -/
theorem Sampling.Paced.isFirst_iff (h : s.Paced pace now) (hconnect : pace.connectTimestamp ≤ now)
    (hfrequency : 0 < pace.frequency) (hroom : now + pace.frequency < 2 ^ 64) :
    isFirst s.harvest now = true ↔ pace.cycle now = 0 := by
  have hle := pace.le_iff hconnect hfrequency 1
  rw [isFirst, compareHarvestToNow, h.connect, h.frequency, nrtime_of_lt (by omega),
    decide_eq_true_iff]
  omega

/-- As many as are sampled in the first cycle, of those that are seen. -/
theorem Sampling.Paced.countP_first (h : s.Paced pace now) :
    (s.inCycle pace 0).countP Prod.snd = min (s.inCycle pace 0).length pace.target := by
  have hcount := congrArg (List.countP id) h.first
  rwa [List.countP_map, countP_firstSamples] at hcount

/-- The decision at `now` keeps the pace. -/
theorem Sampling.Paced.decideSample (h : s.Paced pace now) (hconnect : pace.connectTimestamp ≤ now)
    (hfrequency : 0 < pace.frequency) (hroom : now + pace.frequency < 2 ^ 64) (x : ℕ) :
    let result := { s.harvest with
      transactionsSeen := s.harvest.transactionsSeen + 1 }.decideSample x now
    Sampling.Paced ⟨result.1, (now, result.2) :: s.decided⟩ pace now := by
  intro result
  obtain ⟨threshold, hresult⟩ := decideSample_fst
    { s.harvest with transactionsSeen := s.harvest.transactionsSeen + 1 } x now
  have hfirst : pace.cycle now = 0 →
      result.2 = decide ((s.inCycle pace 0).length < pace.target) := by
    intro hzero
    have hdecide : result.2 =
        decide (s.harvest.transactionsSampled < s.harvest.targetTransactionsPerCycle) :=
      decideSample_first ((h.isFirst_iff hconnect hfrequency hroom).mpr hzero)
    refine hdecide.trans (decide_eq_decide.mpr ?_)
    show s.harvest.transactionsSampled < s.harvest.targetTransactionsPerCycle ↔ _
    rw [h.sampled, h.target, hzero, h.countP_first]
    omega
  have hseen := h.seen
  have hsampled := h.sampled
  exact {
    connect := by rw [hresult]; exact h.connect
    frequency := by rw [hresult]; exact h.frequency
    target := by rw [hresult]; exact h.target
    next := by rw [hresult]; exact h.next
    seen := by
      rw [Sampling.inCycle_cons, if_pos rfl, hresult, List.length_cons]
      exact congrArg (· + 1) hseen
    sampled := by
      rw [Sampling.inCycle_cons, if_pos rfl, hresult, List.countP_cons]
      show s.harvest.transactionsSampled + result.2.toNat = _
      rw [hsampled]
      cases result.2 <;> rfl
    prev := by
      rw [hresult, List.filter_cons_of_neg (by simp)]
      exact h.prev
    past := List.forall_mem_cons.mpr ⟨Nat.le_refl _, h.past⟩
    first := by
      rw [Sampling.inCycle_cons]
      split
      · next hzero =>
          rw [List.length_cons, firstSamples_succ]
          exact congrArg₂ List.cons (hfirst hzero) h.first
      · exact h.first
    budget := by
      intro c hc
      rw [Sampling.inCycle_cons]
      split
      · next heq =>
          have hbudget := h.budget c hc
          rw [← heq] at hbudget ⊢
          rw [List.countP_cons]
          cases hsample : result.2 with
          | false => exact hbudget
          | true =>
              have hlt := decideSample_lt (by rw [hsampled, h.target]; exact hbudget) hsample
              rw [hsampled, h.target] at hlt
              exact hlt
      · exact h.budget c hc }

theorem Sampling.Paced.step (h : s.Paced pace t) (hconnect : pace.connectTimestamp ≤ t)
    (hfrequency : 0 < pace.frequency) {call : SampleCall} (hle : t ≤ call.now)
    (hroom : call.now + pace.frequency < 2 ^ 64) :
    (execSampleCall s call).Paced pace call.now :=
  (h.roll hconnect hfrequency hle hroom).decideSample (hconnect.trans hle) hfrequency hroom call.x

theorem Sampling.Paced.run (h : s.Paced pace t) (hconnect : pace.connectTimestamp ≤ t)
    (hfrequency : 0 < pace.frequency) {calls : List SampleCall}
    (hsorted : (t :: calls.map SampleCall.now).Pairwise (· ≤ ·))
    (hroom : ∀ call ∈ calls, call.now + pace.frequency < 2 ^ 64) :
    (runFrom execSampleCall s calls).Paced pace
      ((calls.map SampleCall.now).getLast?.getD t) := by
  induction calls generalizing s t with
  | nil => exact h
  | cons call calls ih =>
      obtain ⟨hfirst, hrest⟩ := List.pairwise_cons.mp hsorted
      obtain ⟨hroom, hrooms⟩ := List.forall_mem_cons.mp hroom
      have hle : t ≤ call.now := hfirst call.now List.mem_cons_self
      have hrun := ih (h.step hconnect hfrequency hle hroom) (hconnect.trans hle) hrest hrooms
      rw [List.map_cons, List.getLast?_cons]
      exact hrun

theorem paced_privateInit (hconnect : pace.connectTimestamp ≤ now) (hfrequency : 0 < pace.frequency)
    (hroom : now + pace.frequency < 2 ^ 64) :
    Sampling.Paced
      ⟨privateInit .zero pace.connectTimestamp pace.frequency pace.target now, []⟩ pace now := by
  have hchanged : pace.connectTimestamp ≠ NrAppHarvest.zero.connectTimestamp ∨
      pace.frequency ≠ NrAppHarvest.zero.frequency := Or.inr hfrequency.ne'
  rw [privateInit, if_pos hchanged]
  exact {
    connect := rfl
    frequency := rfl
    target := rfl
    next := calculateNextHarvestTime_eq rfl rfl hconnect hfrequency hroom
    seen := rfl
    sampled := rfl
    prev := rfl
    past := fun d hd => by cases hd
    first := by
      rw [Sampling.inCycle, List.filter_nil, firstSamples, List.length_nil, Nat.zero_sub,
        Nat.zero_min]
      rfl
    budget := fun c _ => Nat.zero_le _ }

end Pacing

/-- After any calls at times that do not go back, the last one at `now`: the next
harvest is at most a period away, and at a whole number of periods from the connection;
the count of the previous cycle is that of the cycle before `now`; the first cycle has
sampled the first transactions up to the target; and no later cycle more than twice
the target. -/
theorem sampling_within_budget (pace : Pace) (start now x : ℕ) (calls : List SampleCall)
    (hconnect : pace.connectTimestamp ≤ start) (hfrequency : 0 < pace.frequency)
    (hsorted : (start :: (calls ++ [SampleCall.mk now x]).map SampleCall.now).Pairwise (· ≤ ·))
    (hroom : now + pace.frequency < 2 ^ 64) :
    let s := runFrom execSampleCall
      ⟨privateInit .zero pace.connectTimestamp pace.frequency pace.target start, []⟩
      (calls ++ [⟨now, x⟩])
    let first := s.inCycle pace 0
    now < s.harvest.nextHarvest ∧ s.harvest.nextHarvest ≤ now + pace.frequency ∧
      (∃ periods, s.harvest.nextHarvest = pace.connectTimestamp + periods * pace.frequency) ∧
      s.harvest.prevTransactionsSeen =
        (s.decided.filter fun d => pace.cycle d.1 + 1 = pace.cycle now).length ∧
      first.reverse.map Prod.snd = List.replicate (min first.length pace.target) true ++
        List.replicate (first.length - pace.target) false ∧
      ∀ c, 1 ≤ c → (s.inCycle pace c).countP Prod.snd ≤ 2 * pace.target := by
  intro s first
  -- no call is after the last one, so no addition wraps
  have hlast : ∀ t ∈ start :: calls.map SampleCall.now, t ≤ now := by
    rw [List.map_append, ← List.cons_append, List.pairwise_append] at hsorted
    exact fun t ht => hsorted.2.2 t ht now List.mem_cons_self
  have hstart : start ≤ now := hlast start List.mem_cons_self
  have hrooms : ∀ call ∈ calls ++ [SampleCall.mk now x], call.now + pace.frequency < 2 ^ 64 := by
    intro call hcall
    rcases List.mem_append.mp hcall with hcall | hcall
    · have hle := hlast call.now (List.mem_cons_of_mem _ (List.mem_map_of_mem hcall))
      omega
    · obtain rfl := List.mem_singleton.mp hcall
      exact hroom
  have hpaced := (paced_privateInit hconnect hfrequency (by omega)).run hconnect hfrequency
    hsorted hrooms
  rw [List.map_append, List.map_singleton, List.getLast?_append_of_ne_nil _ (by simp),
    List.getLast?_singleton, Option.getD_some] at hpaced
  have hnext : s.harvest.nextHarvest =
      pace.connectTimestamp + pace.frequency * (pace.cycle now + 1) := hpaced.next
  have hbegun := (pace.le_iff (hconnect.trans hstart) hfrequency (pace.cycle now)).mpr (le_refl _)
  have hover := (pace.le_iff (hconnect.trans hstart) hfrequency (pace.cycle now + 1)).not.mpr
    (by omega)
  refine ⟨?_, ?_, ⟨pace.cycle now + 1, ?_⟩, hpaced.prev, ?_, hpaced.budget⟩
  · rw [hnext]
    exact not_le.mp hover
  · rw [hnext, Nat.mul_add_one]
    omega
  · rw [hnext, Nat.mul_comm]
  · rw [List.map_reverse, hpaced.first, firstSamples, List.reverse_append, List.reverse_replicate,
      List.reverse_replicate]

/-- Two transactions in the first cycle and one in the third, a target of one. -/
theorem sampling_within_budget_three :
    let s := runFrom execSampleCall ⟨privateInit .zero 100 60 1 110, []⟩
      [⟨115, 7⟩, ⟨120, 3⟩, ⟨230, 5⟩]
    230 < s.harvest.nextHarvest ∧ s.harvest.nextHarvest ≤ 290 ∧
      ∀ c, 1 ≤ c → (s.inCycle ⟨100, 60, 1⟩ c).countP Prod.snd ≤ 2 := by
  obtain ⟨hafter, hbefore, -, -, -, hbudget⟩ := sampling_within_budget ⟨100, 60, 1⟩ 110 230 5
    [⟨115, 7⟩, ⟨120, 3⟩] (by decide) (by decide) (by decide) (by decide)
  exact ⟨hafter, hbefore, hbudget⟩

end AxiomDaemon.Axiom

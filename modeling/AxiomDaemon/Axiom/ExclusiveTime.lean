import AxiomDaemon.Lib.Interval
import Mathlib.Data.List.Sort

/-!
The exclusive time of a segment, `nr_exclusive_time.h` and
`nr_exclusive_time.c`.

A structure records when the children of a segment start and stop, up to a
capacity fixed at creation. The exclusive time is then found by one sweep
over the sorted transitions, which keeps the number of children running and
the time the first of them started. Times are unsigned 64-bit numbers that
are only compared and subtracted under a guard, so they are natural numbers
here; the counter of running children is a C `unsigned int` and wraps.
-/

namespace AxiomDaemon.Axiom

open AxiomDaemon.Lib

/-- `nr_time_duration`. -/
def nrTimeDuration (start stop : ℕ) : ℕ := if start > stop then 0 else stop - start

theorem nrTimeDuration_eq (start stop : ℕ) : nrTimeDuration start stop = stop - start := by
  rw [nrTimeDuration]
  split <;> omega

inductive TransitionType
  | childStart
  | childStop
  deriving DecidableEq

structure ExclusiveTimeTransition where
  time : ℕ
  type : TransitionType
  deriving DecidableEq

/-- `nr_exclusive_time_t`; `used` is the length of the list. -/
structure NrExclusiveTime where
  startTime : ℕ
  stopTime : ℕ
  capacity : ℕ
  transitions : List ExclusiveTimeTransition
  deriving DecidableEq

def nrExclusiveTimeCreate (childSegments startTime stopTime : ℕ) : Option NrExclusiveTime :=
  if startTime > stopTime then none
  else some { startTime, stopTime, capacity := childSegments * 2 % 2 ^ 64, transitions := [] }

/-- The value returned, and the structure afterwards; `none` is `NULL`. -/
def nrExclusiveTimeAddChild (parentEt : Option NrExclusiveTime) (startTime stopTime : ℕ) :
    Bool × Option NrExclusiveTime :=
  match parentEt with
  | none => (false, none)
  | some et =>
      if et.transitions.length + 2 > et.capacity then (false, some et)
      else if startTime > stopTime then (false, some et)
      else if stopTime < et.startTime ∨ startTime > et.stopTime then (true, some et)
      else (true, some { et with transitions := et.transitions ++
            [⟨startTime, .childStart⟩, ⟨stopTime, .childStop⟩] })

def nrExclusiveTimeTransitionCompare (a b : ExclusiveTimeTransition) : ℤ :=
  if a.time < b.time then -1
  else if a.time > b.time then 1
  else if a.type ≠ b.type then
    if a.type = .childStart then -1 else if b.type = .childStart then 1 else 0
  else 0

/-- The loop of `nr_exclusive_time_calculate` over the sorted transitions,
with its variables `active_children`, `last_start` and `exclusive_time`. -/
def calculateLoop (et : NrExclusiveTime) :
    List ExclusiveTimeTransition → (activeChildren lastStart exclusiveTime : ℕ) → ℕ
  | [], _, _, exclusiveTime => exclusiveTime
  | t :: ts, activeChildren, lastStart, exclusiveTime =>
      match t.type with
      | .childStart =>
          let lastStart :=
            if activeChildren = 0 then
              if t.time > et.startTime then t.time else et.startTime
            else lastStart
          calculateLoop et ts ((activeChildren + 1) % 2 ^ 32) lastStart exclusiveTime
      | .childStop =>
          if activeChildren = 0 then
            calculateLoop et ts activeChildren lastStart exclusiveTime
          else if activeChildren = 1 then
            let duration :=
              if et.stopTime < t.time then nrTimeDuration lastStart et.stopTime
              else nrTimeDuration lastStart t.time
            if duration > exclusiveTime then 0
            else if t.time > et.stopTime then exclusiveTime - duration
            else calculateLoop et ts (activeChildren - 1) lastStart (exclusiveTime - duration)
          else calculateLoop et ts (activeChildren - 1) lastStart exclusiveTime

def nrExclusiveTimeCalculate (et : Option NrExclusiveTime) : ℕ :=
  match et with
  | none => 0
  | some et =>
      if et.transitions.length = 0 then nrTimeDuration et.startTime et.stopTime
      else
        let sorted := et.transitions.mergeSort fun a b =>
          decide (nrExclusiveTimeTransitionCompare a b ≤ 0)
        calculateLoop et sorted 0 0 (nrTimeDuration et.startTime et.stopTime)

/-- The loop without the two arms that are not to be reached: nothing is returned where a child
stops while none is running, or more is to be subtracted than is left. -/
def calculateLoopStrict (et : NrExclusiveTime) :
    List ExclusiveTimeTransition → (activeChildren lastStart exclusiveTime : ℕ) → Option ℕ
  | [], _, _, exclusiveTime => some exclusiveTime
  | t :: ts, activeChildren, lastStart, exclusiveTime =>
      match t.type with
      | .childStart =>
          let lastStart :=
            if activeChildren = 0 then
              if t.time > et.startTime then t.time else et.startTime
            else lastStart
          calculateLoopStrict et ts ((activeChildren + 1) % 2 ^ 32) lastStart exclusiveTime
      | .childStop =>
          if activeChildren = 0 then none
          else if activeChildren = 1 then
            let duration :=
              if et.stopTime < t.time then nrTimeDuration lastStart et.stopTime
              else nrTimeDuration lastStart t.time
            if duration > exclusiveTime then none
            else if t.time > et.stopTime then some (exclusiveTime - duration)
            else calculateLoopStrict et ts (activeChildren - 1) lastStart (exclusiveTime - duration)
          else calculateLoopStrict et ts (activeChildren - 1) lastStart exclusiveTime

theorem calculateLoop_of_strict {et : NrExclusiveTime} {ts : List ExclusiveTimeTransition}
    {activeChildren lastStart exclusiveTime v : ℕ}
    (h : calculateLoopStrict et ts activeChildren lastStart exclusiveTime = some v) :
    calculateLoop et ts activeChildren lastStart exclusiveTime = v := by
  induction ts generalizing activeChildren lastStart exclusiveTime with
  | nil => exact Option.some.inj h
  | cons t ts ih =>
      rw [calculateLoopStrict] at h
      rw [calculateLoop]
      cases ht : t.type with
      | childStart =>
          rw [ht] at h
          exact ih h
      | childStop =>
          simp only [ht] at h ⊢
          by_cases hidle : activeChildren = 0
          · rw [if_pos hidle] at h
            cases h
          rw [if_neg hidle] at h ⊢
          by_cases hlast : activeChildren = 1
          · rw [if_pos hlast] at h ⊢
            split_ifs at h ⊢
            · exact Option.some.inj h
            · exact ih h
          · rw [if_neg hlast] at h ⊢
            exact ih h

/-! ### The sorted transitions -/

namespace ExclusiveTimeTransition

def toEndpoint (t : ExclusiveTimeTransition) : Endpoint :=
  ⟨t.time, decide (t.type = .childStart)⟩

@[simp] theorem toEndpoint_time (t : ExclusiveTimeTransition) : t.toEndpoint.time = t.time := rfl

end ExclusiveTimeTransition

open ExclusiveTimeTransition

theorem compare_le_iff (a b : ExclusiveTimeTransition) :
    nrExclusiveTimeTransitionCompare a b ≤ 0 ↔ a.toEndpoint.Before b.toEndpoint := by
  obtain ⟨ta, ka⟩ := a
  obtain ⟨tb, kb⟩ := b
  simp only [nrExclusiveTimeTransitionCompare, Endpoint.Before, toEndpoint]
  cases ka <;> cases kb <;> simp <;> split_ifs <;> omega

/-- What `nr_sort` leaves: the same transitions in the order of a sweep. -/
theorem sorted_transitions (ts : List ExclusiveTimeTransition) :
    (ts.mergeSort fun a b => decide (nrExclusiveTimeTransitionCompare a b ≤ 0)).Pairwise
      fun a b => a.toEndpoint.Before b.toEndpoint := by
  have hsorted := @List.pairwise_mergeSort _
    (fun a b => decide (nrExclusiveTimeTransitionCompare a b ≤ 0))
    (by
      intro a b c hab hbc
      simp only [decide_eq_true_eq, compare_le_iff, Endpoint.Before] at hab hbc ⊢
      grind)
    (by
      intro a b
      simp only [Bool.or_eq_true, decide_eq_true_eq, compare_le_iff, Endpoint.Before]
      grind) ts
  simpa only [decide_eq_true_eq, compare_le_iff] using hsorted

/-- Transitions neither of which stands behind the other are equal. -/
theorem before_antisymm {a b : ExclusiveTimeTransition}
    (hab : a.toEndpoint.Before b.toEndpoint) (hba : b.toEndpoint.Before a.toEndpoint) : a = b := by
  obtain ⟨ta, ka⟩ := a
  obtain ⟨tb, kb⟩ := b
  simp only [Endpoint.Before, toEndpoint] at hab hba
  cases ka <;> cases kb <;> simp at hab hba ⊢ <;> omega

theorem eq_mergeSort_of_sorted {ts sorted : List ExclusiveTimeTransition}
    (hperm : sorted.Perm ts)
    (hsorted : sorted.Pairwise fun a b => a.toEndpoint.Before b.toEndpoint) :
    sorted = ts.mergeSort fun a b => decide (nrExclusiveTimeTransitionCompare a b ≤ 0) :=
  List.Perm.eq_of_pairwise (fun _ _ _ _ => before_antisymm) hsorted (sorted_transitions ts)
    (hperm.trans (List.mergeSort_perm _ _).symm)

theorem mergeSort_congr {ts ts' : List ExclusiveTimeTransition} (h : ts.Perm ts') :
    (ts.mergeSort fun a b => decide (nrExclusiveTimeTransitionCompare a b ≤ 0)) =
      ts'.mergeSort fun a b => decide (nrExclusiveTimeTransitionCompare a b ≤ 0) :=
  eq_mergeSort_of_sorted ((List.mergeSort_perm _ _).trans h) (sorted_transitions ts)

/-! ### The sweep

With `k` children running since `last`, the ticks of the segment that the rest
of the sweep will find covered are those from `last` on (from the start of the
segment if no child runs) at which `k` and the depth of the remaining
transitions add up to something positive. -/

def remaining (et : NrExclusiveTime) (k last : ℕ) (ts : List ExclusiveTimeTransition) :
    Finset ℕ :=
  (Finset.Ico (if k = 0 then et.startTime else last) et.stopTime).filter fun τ =>
    0 < (k : ℤ) + depth (ts.map toEndpoint) τ

/-- What holds before every transition of the sweep. -/
structure SweepInv (et : NrExclusiveTime) (k last : ℕ) (ts : List ExclusiveTimeTransition) :
    Prop where
  ordered : et.startTime ≤ et.stopTime
  sorted : ts.Pairwise fun a b => a.toEndpoint.Before b.toEndpoint
  closes : (k : ℤ) + balance (ts.map toEndpoint) = 0
  nonneg : ∀ τ, 0 ≤ (k : ℤ) + depth (ts.map toEndpoint) τ
  starts : ∀ t ∈ ts, t.type = .childStart → t.time ≤ et.stopTime
  stops : ∀ t ∈ ts, t.type = .childStop → et.startTime ≤ t.time
  running : k ≠ 0 → et.startTime ≤ last ∧ last ≤ et.stopTime ∧
    ∀ t ∈ ts, t.type = .childStop → last ≤ t.time
  counter : ∀ τ, (k : ℤ) + closedDepth (ts.map toEndpoint) τ < 2 ^ 32

section Sweep

variable {et : NrExclusiveTime} {k last : ℕ} {t : ExclusiveTimeTransition}
  {ts : List ExclusiveTimeTransition}

theorem SweepInv.depth_before (h : SweepInv et k last (t :: ts)) {τ : ℕ} (hτ : τ < t.time) :
    depth (ts.map toEndpoint) τ = 0 := by
  apply depth_eq_zero
  intro e he
  obtain ⟨x, hx, rfl⟩ := List.mem_map.mp he
  have hle := (List.rel_of_pairwise_cons h.sorted hx).time_le
  simp only [toEndpoint_time] at hle ⊢
  omega

theorem SweepInv.running_of_stop (h : SweepInv et k last (t :: ts)) (ht : t.type = .childStop) :
    k ≠ 0 := by
  have hopens : t.toEndpoint.opens = false := by simp [toEndpoint, ht]
  have hrest : depth (ts.map toEndpoint) t.time ≤ 0 := by
    refine depth_nonpos_of_closing (e := t.toEndpoint) hopens ?_
    intro e he
    obtain ⟨x, hx, rfl⟩ := List.mem_map.mp he
    exact List.rel_of_pairwise_cons h.sorted hx
  have hnonneg := h.nonneg t.time
  have hshift : t.toEndpoint.shift t.time = -1 := by
    rw [Endpoint.shift_of_le (by simp), Endpoint.sign, hopens]
    rfl
  rw [List.map_cons, depth_cons, hshift] at hnonneg
  omega

/-- The number of running children after a transition. -/
def stepActive (t : ExclusiveTimeTransition) (k : ℕ) : ℕ :=
  match t.type with
  | .childStart => k + 1
  | .childStop => k - 1

/-- The start of the current covered stretch after a transition. -/
def stepLast (et : NrExclusiveTime) (t : ExclusiveTimeTransition) (k last : ℕ) : ℕ :=
  match t.type with
  | .childStart => if k = 0 then max t.time et.startTime else last
  | .childStop => last

theorem SweepInv.stepActive_eq (h : SweepInv et k last (t :: ts)) :
    (stepActive t k : ℤ) = k + t.toEndpoint.sign := by
  cases ht : t.type with
  | childStart => simp [stepActive, Endpoint.sign, toEndpoint, ht]
  | childStop =>
      have hk := h.running_of_stop ht
      simp [stepActive, Endpoint.sign, toEndpoint, ht]
      omega

/-- From the time of the transition on, moving it from the list into the
counter changes nothing. -/
theorem SweepInv.depth_step (h : SweepInv et k last (t :: ts)) {τ : ℕ} (hτ : t.time ≤ τ) :
    (k : ℤ) + depth ((t :: ts).map toEndpoint) τ =
      stepActive t k + depth (ts.map toEndpoint) τ := by
  rw [List.map_cons, depth_cons, Endpoint.shift_of_le (e := t.toEndpoint) hτ, h.stepActive_eq,
    add_assoc]

theorem SweepInv.step (h : SweepInv et k last (t :: ts)) :
    SweepInv et (stepActive t k) (stepLast et t k last) ts where
  ordered := h.ordered
  sorted := h.sorted.of_cons
  closes := by
    have hcloses := h.closes
    rw [List.map_cons, balance_cons] at hcloses
    rw [h.stepActive_eq]
    omega
  nonneg := by
    intro τ
    rcases Nat.lt_or_ge τ t.time with hlt | hge
    · rw [h.depth_before hlt]
      omega
    · rw [← h.depth_step hge]
      exact h.nonneg τ
  starts := fun x hx => h.starts x (by simp [hx])
  stops := fun x hx => h.stops x (by simp [hx])
  running := by
    intro hk
    cases ht : t.type with
    | childStart =>
        simp only [stepLast, ht]
        split
        · have hstart := h.starts t (by simp) ht
          refine ⟨le_max_right _ _, max_le hstart h.ordered, fun x hx hxt => max_le ?_ ?_⟩
          · exact (List.rel_of_pairwise_cons h.sorted hx).time_le
          · exact h.stops x (by simp [hx]) hxt
        · next hk0 =>
            obtain ⟨h1, h2, h3⟩ := h.running hk0
            exact ⟨h1, h2, fun x hx => h3 x (by simp [hx])⟩
    | childStop =>
        obtain ⟨h1, h2, h3⟩ := h.running (h.running_of_stop ht)
        simp only [stepLast, ht]
        exact ⟨h1, h2, fun x hx => h3 x (by simp [hx])⟩
  counter := by
    intro τ
    have hlater : ∀ e ∈ ts.map toEndpoint, t.time ≤ e.time := by
      intro e he
      obtain ⟨x, hx, rfl⟩ := List.mem_map.mp he
      exact (List.rel_of_pairwise_cons h.sorted hx).time_le
    have hcounter := h.counter τ
    rw [List.map_cons, closedDepth_cons] at hcounter
    cases ht : t.type with
    | childStart =>
        have hopens : t.toEndpoint.opens = true := by simp [toEndpoint, ht]
        simp only [stepActive, ht]
        rcases Nat.lt_or_ge τ t.time with hlt | hge
        · -- the counter is as high at the transition itself
          have hnow := h.counter t.time
          have hpast := closedDepth_nonneg hlater
          rw [List.map_cons, closedDepth_cons, Endpoint.reach, hopens, if_pos rfl,
            if_pos (toEndpoint_time t).le] at hnow
          rw [closedDepth_eq_zero fun e he => hlt.trans_le (hlater e he)]
          push_cast
          omega
        · rw [Endpoint.reach, hopens, if_pos rfl, if_pos (toEndpoint_time t ▸ hge)] at hcounter
          push_cast
          omega
    | childStop =>
        have hk := h.running_of_stop ht
        have hreach : -1 ≤ t.toEndpoint.reach τ := by
          rw [Endpoint.reach]
          split_ifs <;> omega
        simp only [stepActive, ht]
        omega

/-- The counter of running children stays below the range of its type. -/
theorem SweepInv.active_lt (h : SweepInv et k last ts) : k < 2 ^ 32 := by
  have hcounter := h.counter 0
  have hpast : 0 ≤ closedDepth (ts.map toEndpoint) 0 :=
    closedDepth_nonneg fun e _ => Nat.zero_le e.time
  omega

/-- A transition that leaves a child running, or starts the first one, moves
no tick in or out of what remains. -/
theorem SweepInv.remaining_step (h : SweepInv et k last (t :: ts)) (hk : stepActive t k ≠ 0) :
    remaining et k last (t :: ts) =
      remaining et (stepActive t k) (stepLast et t k last) ts := by
  have hlast : k ≠ 0 → stepLast et t k last = last := by
    intro hk0
    cases ht : t.type <;> simp [stepLast, ht, hk0]
  ext τ
  simp only [remaining, Finset.mem_filter, Finset.mem_Ico, if_neg hk]
  rcases Nat.lt_or_ge τ t.time with hlt | hge
  · -- before the transition nothing but the running children counts
    have hall : depth ((t :: ts).map toEndpoint) τ = 0 := by
      rw [List.map_cons, depth_cons, h.depth_before hlt,
        Endpoint.shift_of_lt (e := t.toEndpoint) hlt]
      rfl
    rw [hall, h.depth_before hlt]
    by_cases hk0 : k = 0
    · cases ht : t.type with
      | childStart => simp [stepLast, ht, hk0]; omega
      | childStop => exact absurd hk0 (h.running_of_stop ht)
    · rw [hlast hk0, if_neg hk0]
      omega
  · rw [h.depth_step hge]
    by_cases hk0 : k = 0
    · cases ht : t.type with
      | childStart => simp [stepLast, ht, hk0]; omega
      | childStop => exact absurd hk0 (h.running_of_stop ht)
    · rw [hlast hk0, if_neg hk0]

/-- When the last child stops, the stretch since `last` has been covered. -/
theorem SweepInv.remaining_last_stop (h : SweepInv et 1 last (t :: ts))
    (ht : t.type = .childStop) :
    remaining et 1 last (t :: ts) =
      Finset.Ico last (min et.stopTime t.time) ∪ remaining et 0 last ts := by
  obtain ⟨hstart, hstop, hstops⟩ := h.running (by decide)
  have hlast := hstops t (by simp) ht
  ext τ
  simp only [remaining, Finset.mem_filter, Finset.mem_Ico, Finset.mem_union, if_true]
  rw [if_neg (by decide)]
  rcases Nat.lt_or_ge τ t.time with hlt | hge
  · have hall : depth ((t :: ts).map toEndpoint) τ = 0 := by
      rw [List.map_cons, depth_cons, h.depth_before hlt,
        Endpoint.shift_of_lt (e := t.toEndpoint) hlt]
      rfl
    rw [hall, h.depth_before hlt]
    simp
    omega
  · rw [h.depth_step hge]
    simp only [stepActive, ht]
    have hst := h.stops t (by simp) ht
    constructor
    · rintro ⟨⟨h1, h2⟩, h3⟩
      exact Or.inr ⟨⟨by omega, h2⟩, h3⟩
    · rintro (h1 | ⟨⟨h1, h2⟩, h3⟩)
      · omega
      · exact ⟨⟨by omega, h2⟩, h3⟩

theorem SweepInv.card_remaining_last_stop (h : SweepInv et 1 last (t :: ts))
    (ht : t.type = .childStop) :
    (remaining et 1 last (t :: ts)).card =
      (min et.stopTime t.time - last) + (remaining et 0 last ts).card := by
  have hdisj : Disjoint (Finset.Ico last (min et.stopTime t.time)) (remaining et 0 last ts) := by
    rw [Finset.disjoint_left]
    intro τ hτ hrem
    simp only [remaining, Finset.mem_filter, Finset.mem_Ico, if_true] at hτ hrem
    have hzero := h.depth_before (τ := τ) (by omega)
    have hpos := hrem.2
    rw [hzero] at hpos
    exact absurd hpos (by decide)
  rw [h.remaining_last_stop ht, Finset.card_union_of_disjoint hdisj, Nat.card_Ico]

/-- The sweep subtracts exactly the ticks that remain to be covered, and on the way a child only
stops when one is running and no more is subtracted than is left. -/
theorem calculateLoopStrict_eq (h : SweepInv et k last ts) {exclusive : ℕ}
    (hcard : (remaining et k last ts).card ≤ exclusive) :
    calculateLoopStrict et ts k last exclusive =
      some (exclusive - (remaining et k last ts).card) := by
  induction ts generalizing k last exclusive with
  | nil =>
      have hk : k = 0 := by simpa using h.closes
      simp [calculateLoopStrict, remaining, hk]
  | cons t ts ih =>
      have hstep := h.step
      cases ht : t.type with
      | childStart =>
          have hactive : stepActive t k = k + 1 := by simp [stepActive, ht]
          have hlast : stepLast et t k last =
              if k = 0 then if t.time > et.startTime then t.time else et.startTime else last := by
            simp only [stepLast, ht]
            split_ifs <;> omega
          have hmod : (k + 1) % 2 ^ 32 = k + 1 := by
            have hactive_lt := hstep.active_lt
            rw [hactive] at hactive_lt
            exact Nat.mod_eq_of_lt hactive_lt
          have hrem := h.remaining_step (by omega)
          rw [hactive, hlast] at hstep hrem
          rw [calculateLoopStrict, ht]
          simp only [hmod]
          rw [hrem] at hcard ⊢
          exact ih hstep hcard
      | childStop =>
          have hk0 := h.running_of_stop ht
          have hactive : stepActive t k = k - 1 := by simp [stepActive, ht]
          have hlast : stepLast et t k last = last := by simp [stepLast, ht]
          rw [hactive, hlast] at hstep
          rw [calculateLoopStrict, ht]
          simp only [if_neg hk0]
          by_cases hk1 : k = 1
          · subst hk1
            have hsplit := h.card_remaining_last_stop ht
            have hduration : (if et.stopTime < t.time then nrTimeDuration last et.stopTime
                else nrTimeDuration last t.time) = min et.stopTime t.time - last := by
              simp only [nrTimeDuration_eq]
              split_ifs <;> omega
            simp only [if_true, hduration]
            rw [if_neg (by omega)]
            split
            · next hpast =>
                -- past the end of the segment nothing remains
                have hempty : (remaining et 0 last ts).card = 0 := by
                  rw [Finset.card_eq_zero, Finset.eq_empty_iff_forall_notMem]
                  intro τ hτ
                  simp only [remaining, Finset.mem_filter, Finset.mem_Ico, if_true] at hτ
                  have hzero := h.depth_before (τ := τ) (by omega)
                  have hpos := hτ.2
                  rw [hzero] at hpos
                  exact absurd hpos (by decide)
                exact congrArg some (by omega)
            · rw [ih hstep (by simp only [Nat.sub_self]; omega)]
              simp only [Nat.sub_self]
              exact congrArg some (by omega)
          · have hrem := h.remaining_step (by omega)
            rw [hactive, hlast] at hrem
            rw [if_neg hk1]
            rw [hrem] at hcard ⊢
            exact ih hstep hcard

end Sweep

/-! ### What a structure stands for

After any number of calls the structure stands for its window and the list of
the children added to it. Only the children that touch the window are stored. -/

/-- The test `nr_exclusive_time_add_child` makes before it stores a child. -/
def touches (startTime stopTime : ℕ) (iv : ℕ × ℕ) : Bool :=
  !decide (iv.2 < startTime ∨ iv.1 > stopTime)

/-- The two transitions stored for each child. -/
def childTransitions (ivs : List (ℕ × ℕ)) : List ExclusiveTimeTransition :=
  ivs.flatMap fun iv => [⟨iv.1, .childStart⟩, ⟨iv.2, .childStop⟩]

@[simp] theorem childTransitions_nil : childTransitions [] = [] := rfl

@[simp] theorem childTransitions_cons (iv : ℕ × ℕ) (ivs : List (ℕ × ℕ)) :
    childTransitions (iv :: ivs) =
      ⟨iv.1, .childStart⟩ :: ⟨iv.2, .childStop⟩ :: childTransitions ivs := rfl

@[simp] theorem childTransitions_append (ivs ivs' : List (ℕ × ℕ)) :
    childTransitions (ivs ++ ivs') = childTransitions ivs ++ childTransitions ivs' := by
  simp [childTransitions]

theorem map_toEndpoint_childTransitions (ivs : List (ℕ × ℕ)) :
    (childTransitions ivs).map toEndpoint = endpoints ivs := by
  induction ivs with
  | nil => rfl
  | cons iv ivs ih => simp [ih, toEndpoint]

theorem length_childTransitions (ivs : List (ℕ × ℕ)) :
    (childTransitions ivs).length = 2 * ivs.length := by
  rw [← length_endpoints, ← map_toEndpoint_childTransitions, List.length_map]

/-- The structure made for `n` children and the window from `startTime` to
`stopTime`, after the children `ivs` have been added. -/
def recordOf (n startTime stopTime : ℕ) (ivs : List (ℕ × ℕ)) : NrExclusiveTime :=
  { startTime, stopTime, capacity := 2 * n
    transitions := childTransitions (ivs.filter (touches startTime stopTime)) }

structure Records (et : Option NrExclusiveTime) (n startTime stopTime : ℕ)
    (ivs : List (ℕ × ℕ)) : Prop where
  ordered : startTime ≤ stopTime
  eq : et = some (recordOf n startTime stopTime ivs)

theorem records_create {n startTime stopTime : ℕ} (hn : 2 * n < 2 ^ 64)
    (h : startTime ≤ stopTime) :
    Records (nrExclusiveTimeCreate n startTime stopTime) n startTime stopTime [] := by
  refine ⟨h, ?_⟩
  rw [nrExclusiveTimeCreate, if_neg (by omega), Nat.mul_comm n 2, Nat.mod_eq_of_lt hn]
  rfl

section Records

variable {et : Option NrExclusiveTime} {n startTime stopTime : ℕ} {ivs : List (ℕ × ℕ)}

/-- While fewer children than planned have been added there is room for one
more. -/
theorem Records.addChild (h : Records et n startTime stopTime ivs) (iv : ℕ × ℕ)
    (hroom : ivs.length < n) (hiv : iv.1 ≤ iv.2) :
    (nrExclusiveTimeAddChild et iv.1 iv.2).1 = true ∧
      Records (nrExclusiveTimeAddChild et iv.1 iv.2).2 n startTime stopTime (ivs ++ [iv]) := by
  have hlength := List.length_filter_le (touches startTime stopTime) ivs
  rw [h.eq, nrExclusiveTimeAddChild, recordOf]
  simp only [length_childTransitions]
  rw [if_neg (by omega), if_neg (by omega)]
  by_cases htouch : iv.2 < startTime ∨ iv.1 > stopTime
  · have hfalse : touches startTime stopTime iv = false := by
      simp only [touches, htouch, decide_true, Bool.not_true]
    rw [if_pos htouch]
    exact ⟨rfl, h.ordered, by simp [recordOf, List.filter_append, hfalse]⟩
  · have htrue : touches startTime stopTime iv = true := by
      simp only [touches, htouch, decide_false, Bool.not_false]
    rw [if_neg htouch]
    exact ⟨rfl, h.ordered, by simp [recordOf, List.filter_append, htrue]⟩

theorem inter_cover_filter_touches (startTime stopTime : ℕ) (ivs : List (ℕ × ℕ)) :
    Finset.Ico startTime stopTime ∩ cover (ivs.filter (touches startTime stopTime)) =
      Finset.Ico startTime stopTime ∩ cover ivs := by
  ext τ
  simp only [Finset.mem_inter, Finset.mem_Ico, mem_cover, List.mem_filter, touches,
    Bool.not_eq_true', decide_eq_false_iff_not]
  constructor
  · rintro ⟨hτ, iv, ⟨hiv, -⟩, hmem⟩
    exact ⟨hτ, iv, hiv, hmem⟩
  · rintro ⟨hτ, iv, hiv, hmem⟩
    exact ⟨hτ, iv, ⟨hiv, by omega⟩, hmem⟩

/-- The children that are stored are all running somewhere in the window. -/
theorem running_filter_touches_lt (hordered : startTime ≤ stopTime) {bound : ℕ}
    (h : ∀ τ, startTime ≤ τ → τ ≤ stopTime → running ivs τ < bound) (τ : ℕ) :
    running (ivs.filter (touches startTime stopTime)) τ < bound := by
  have htouch : ∀ iv ∈ ivs.filter (touches startTime stopTime),
      iv.1 ≤ stopTime ∧ startTime ≤ iv.2 := by
    intro iv hiv
    have htrue := List.of_mem_filter hiv
    simp only [touches, Bool.not_eq_true', decide_eq_false_iff_not] at htrue
    omega
  calc
    running (ivs.filter (touches startTime stopTime)) τ ≤
        running (ivs.filter (touches startTime stopTime)) (max startTime (min τ stopTime)) :=
      running_le_clamp hordered htouch τ
    _ ≤ running ivs (max startTime (min τ stopTime)) :=
      List.filter_sublist.countP_le
    _ < bound := h _ (by omega) (by omega)

theorem sweepInv_start (hordered : startTime ≤ stopTime) (hcount : ∀ τ, running ivs τ < 2 ^ 32)
    (hivs : ∀ iv ∈ ivs, iv.1 ≤ iv.2) (htouch : ∀ iv ∈ ivs, touches startTime stopTime iv = true)
    {sorted : List ExclusiveTimeTransition} (hperm : sorted.Perm (childTransitions ivs))
    (hsorted : sorted.Pairwise fun a b => a.toEndpoint.Before b.toEndpoint) (capacity : ℕ) :
    SweepInv { startTime, stopTime, capacity, transitions := childTransitions ivs } 0 0
      sorted := by
  have hperm' : (sorted.map toEndpoint).Perm (endpoints ivs) := by
    rw [← map_toEndpoint_childTransitions]
    exact hperm.map _
  have hbounds : ∀ t ∈ sorted, (t.type = .childStart → t.time ≤ stopTime) ∧
      (t.type = .childStop → startTime ≤ t.time) := by
    intro t ht
    obtain ⟨iv, hiv, hmem⟩ := List.mem_flatMap.mp (hperm.mem_iff.mp ht)
    have htouches := htouch iv hiv
    simp only [touches, Bool.not_eq_true', decide_eq_false_iff_not] at htouches
    rcases List.mem_pair.mp hmem with rfl | rfl
    · exact ⟨fun _ => by simp only; omega, fun h => by simp at h⟩
    · exact ⟨fun h => by simp at h, fun _ => by simp only; omega⟩
  refine ⟨hordered, hsorted, ?_, fun τ => ?_, fun t ht => (hbounds t ht).1,
    fun t ht => (hbounds t ht).2, fun h => absurd rfl h, ?_⟩
  · rw [balance_perm hperm', balance_endpoints]
    rfl
  · rw [depth_perm hperm']
    simpa using depth_endpoints_nonneg hivs τ
  · intro τ
    have hrunning := hcount τ
    rw [closedDepth_perm hperm', closedDepth_endpoints hivs]
    push_cast
    omega

theorem remaining_start (hivs : ∀ iv ∈ ivs, iv.1 ≤ iv.2)
    {sorted : List ExclusiveTimeTransition} (hperm : sorted.Perm (childTransitions ivs))
    (et : NrExclusiveTime) :
    remaining et 0 0 sorted = Finset.Ico et.startTime et.stopTime ∩ cover ivs := by
  have hperm' : (sorted.map toEndpoint).Perm (endpoints ivs) := by
    rw [← map_toEndpoint_childTransitions]
    exact hperm.map _
  ext τ
  simp only [remaining, if_true, Finset.mem_filter, Finset.mem_inter, depth_perm hperm',
    Int.ofNat_zero, zero_add, depth_endpoints_pos_iff hivs]

/-- However the transitions have been sorted, the loop finds the window without the ticks some child
covers, and reaches no arm that is not to be reached. -/
theorem calculateLoopStrict_recordOf (hordered : startTime ≤ stopTime)
    (hivs : ∀ iv ∈ ivs, iv.1 ≤ iv.2)
    (hcount : ∀ τ, startTime ≤ τ → τ ≤ stopTime → running ivs τ < 2 ^ 32)
    {sorted : List ExclusiveTimeTransition}
    (hperm : sorted.Perm (recordOf n startTime stopTime ivs).transitions)
    (hsorted : sorted.Pairwise fun a b => a.toEndpoint.Before b.toEndpoint) :
    calculateLoopStrict (recordOf n startTime stopTime ivs) sorted 0 0
        (nrTimeDuration startTime stopTime) =
      some ((stopTime - startTime) - (Finset.Ico startTime stopTime ∩ cover ivs).card) := by
  have hivs' : ∀ iv ∈ ivs.filter (touches startTime stopTime), iv.1 ≤ iv.2 :=
    fun iv hiv => hivs iv (List.mem_of_mem_filter hiv)
  have htouch : ∀ iv ∈ ivs.filter (touches startTime stopTime),
      touches startTime stopTime iv = true := fun iv hiv => List.of_mem_filter hiv
  have hinv := sweepInv_start hordered (running_filter_touches_lt hordered hcount) hivs' htouch
    hperm hsorted (2 * n)
  have hcard : (remaining (recordOf n startTime stopTime ivs) 0 0 sorted).card =
      (Finset.Ico startTime stopTime ∩ cover ivs).card := by
    rw [remaining_start hivs' hperm, ← inter_cover_filter_touches startTime stopTime ivs]
    rfl
  have hle : (Finset.Ico startTime stopTime ∩ cover ivs).card ≤ stopTime - startTime := by
    rw [← Nat.card_Ico]
    exact Finset.card_le_card Finset.inter_subset_left
  rw [nrTimeDuration_eq, ← hcard]
  exact calculateLoopStrict_eq hinv (hcard.trans_le hle)

/-- The exclusive time is the window without the ticks some child covers. -/
theorem Records.calculate_of_running (h : Records et n startTime stopTime ivs)
    (hivs : ∀ iv ∈ ivs, iv.1 ≤ iv.2)
    (hcount : ∀ τ, startTime ≤ τ → τ ≤ stopTime → running ivs τ < 2 ^ 32) :
    nrExclusiveTimeCalculate et =
      (stopTime - startTime) - (Finset.Ico startTime stopTime ∩ cover ivs).card := by
  have hstrict := calculateLoopStrict_recordOf h.ordered hivs hcount
    (List.mergeSort_perm (recordOf n startTime stopTime ivs).transitions _) (sorted_transitions _)
  rw [h.eq, nrExclusiveTimeCalculate]
  split
  · next hnil =>
      -- with no transitions the loop has nothing to subtract
      rw [List.length_eq_zero_iff.mp hnil, List.mergeSort_nil] at hstrict
      exact Option.some.inj hstrict
  · exact calculateLoop_of_strict hstrict

theorem Records.calculate (h : Records et n startTime stopTime ivs)
    (hivs : ∀ iv ∈ ivs, iv.1 ≤ iv.2) (hcount : ivs.length < 2 ^ 32) :
    nrExclusiveTimeCalculate et =
      (stopTime - startTime) - (Finset.Ico startTime stopTime ∩ cover ivs).card :=
  h.calculate_of_running hivs fun τ _ _ => (running_le_length ivs τ).trans_lt hcount

end Records

end AxiomDaemon.Axiom

import AxiomDaemon.Axiom.TxnSegments
import AxiomDaemon.Lib.Transition

/-!
Automatically timed segments in a transaction whose own timing is overridden.

The times of a segment are relative to the start of the transaction, and an
override changes that start in place. A run starts and ends segments and
overrides the timing, under a clock that never goes back; its record says for
every segment what the clock and the start of the transaction were when the
segment was started, and when it was ended.
-/

namespace AxiomDaemon.Axiom

open AxiomDaemon.Lib

inductive TimingCall
  | start (parent asyncContext : Option ℕ)
  | finish (segment : ℕ)
  | setTiming (start duration : ℕ)

/-- The start of the transaction, and the clock. -/
structure Instant where
  absStartTime : ℕ
  clock : ℕ
  deriving DecidableEq

/-- The start of the transaction as the clock sees it: one in the future counts
as now. -/
def Instant.origin (i : Instant) : ℕ := min i.absStartTime i.clock

/-- A transaction with the record of its run. -/
structure TimingRun where
  txn : SegmentTxn
  clock : ℕ
  started : ℕ → Instant
  ended : ℕ → Option Instant

namespace TimingRun

def begin (clock : ℕ) : TimingRun :=
  { txn := nrTxnBegin clock clock, clock, started := fun _ => ⟨0, 0⟩, ended := fun _ => none }

/-- A call, at a time of the clock. -/
def exec (s : TimingRun) : TimingCall × ℕ → TimingRun
  | (.start parent asyncContext, now) =>
      { s with
        txn := (nrSegmentStart s.txn parent asyncContext now).2
        clock := now
        started := Function.update s.started s.txn.used ⟨s.txn.absStartTime, now⟩ }
  | (.finish segment, now) =>
      { s with
        txn := nrSegmentEnd s.txn segment now
        clock := now
        ended := Function.update s.ended segment (some ⟨s.txn.absStartTime, now⟩) }
  | (.setTiming start duration, now) =>
      { s with txn := nrTxnSetTiming s.txn start duration, clock := now }

/-- The clock does not go back, and a segment that was started is ended once. The
root is not among those that callers end. -/
def Allowed (s : TimingRun) : TimingCall × ℕ → Prop
  | (.start _ _, now) => s.clock ≤ now
  | (.finish segment, now) =>
      s.clock ≤ now ∧ segment < s.txn.used ∧ segment ≠ s.txn.segmentRoot ∧ s.ended segment = none
  | (.setTiming _ _, now) => s.clock ≤ now

/-- The time that a segment starts at, according to the record. -/
def Instant.time (i : Instant) : ℕ := nrTimeDuration i.absStartTime i.clock

/-- What holds in every state of a run. -/
structure Invariant (s : TimingRun) : Prop where
  recording : s.txn.recording = true
  root : s.txn.segmentRoot = 0
  rootUsed : 0 < s.txn.used
  fresh : ∀ a, s.txn.used ≤ a → (s.txn.segment a).stopTime = 0 ∧ s.ended a = none
  start : ∀ a, a ≠ 0 → a < s.txn.used →
    (s.txn.segment a).startTime = Instant.time (s.started a) ∧ (s.started a).clock ≤ s.clock
  stop : ∀ a, a ≠ 0 → (s.txn.segment a).stopTime = ((s.ended a).map Instant.time).getD 0
  clock : ∀ a i, s.ended a = some i → (s.started a).clock ≤ i.clock

section Steps

variable {s : TimingRun} (h : s.Invariant)

include h

theorem Invariant.startCall (parent asyncContext : Option ℕ) {now : ℕ} (hnow : s.clock ≤ now) :
    (s.exec (.start parent asyncContext, now)).Invariant := by
  have hstart : (nrSegmentStart s.txn parent asyncContext now).2 =
      nrSegmentInit { s.txn with used := s.txn.used + 1 } s.txn.used parent asyncContext now := by
    rw [nrSegmentStart_of_recording h.recording]
  set txn' := nrSegmentInit { s.txn with used := s.txn.used + 1 } s.txn.used parent asyncContext now
    with htxn'
  have hframe : SegmentTxn.Frame { s.txn with used := s.txn.used + 1 } txn' :=
    nrSegmentInit_frame { s.txn with used := s.txn.used + 1 } s.txn.used parent asyncContext now
  have hused : txn'.used = s.txn.used + 1 := hframe.used
  have hfresh := h.fresh s.txn.used (Nat.le_refl _)
  have hnew : (txn'.segment s.txn.used).startTime = nrTimeDuration s.txn.absStartTime now ∧
      (txn'.segment s.txn.used).stopTime = 0 := by
    obtain ⟨parent', children, hself⟩ := nrSegmentInit_segment_self
      { s.txn with used := s.txn.used + 1 } s.txn.used parent asyncContext now
    rw [htxn', hself]
    exact ⟨rfl, hfresh.1⟩
  have hold : ∀ a, a ≠ s.txn.used →
      (txn'.segment a).startTime = (s.txn.segment a).startTime ∧
        (txn'.segment a).stopTime = (s.txn.segment a).stopTime := by
    intro a ha
    obtain ⟨children, hother⟩ := nrSegmentInit_segment_of_ne
      { s.txn with used := s.txn.used + 1 } ha parent asyncContext now
    rw [htxn', hother]
    exact ⟨rfl, rfl⟩
  have hne : s.txn.used ≠ 0 := Nat.ne_of_gt h.rootUsed
  simp only [exec, hstart]
  refine ⟨hframe.recording.trans h.recording, hframe.segmentRoot.trans h.root, ?_, ?_, ?_, ?_, ?_⟩
  · rw [hused]
    exact Nat.succ_pos _
  · intro a ha
    rw [hused] at ha
    have hau : a ≠ s.txn.used := by omega
    rw [(hold a hau).2]
    exact h.fresh a (by omega)
  · intro a ha0 ha
    rw [hused] at ha
    by_cases hau : a = s.txn.used
    · subst hau
      dsimp only
      rw [hnew.1, Function.update_self]
      exact ⟨rfl, Nat.le_refl _⟩
    · dsimp only
      rw [(hold a hau).1, Function.update_of_ne hau]
      obtain ⟨htime, hclock⟩ := h.start a ha0 (by omega)
      exact ⟨htime, hclock.trans hnow⟩
  · intro a ha0
    by_cases hau : a = s.txn.used
    · subst hau
      rw [hnew.2, hfresh.2]
      rfl
    · rw [(hold a hau).2]
      exact h.stop a ha0
  · intro a i hi
    have hau : a ≠ s.txn.used := by
      rintro rfl
      rw [hfresh.2] at hi
      cases hi
    dsimp only
    rw [Function.update_of_ne hau]
    exact h.clock a i hi

theorem Invariant.finishCall {a now : ℕ} (hnow : s.clock ≤ now) (hused : a < s.txn.used)
    (hroot : a ≠ s.txn.segmentRoot) (hopen : s.ended a = none) :
    (s.exec (.finish a, now)).Invariant := by
  have ha0 : a ≠ 0 := h.root ▸ hroot
  have hframe := nrSegmentEnd_frame s.txn a now
  have hsegment := nrSegmentEnd_segment s.txn a now
  have hzero : (s.txn.segment a).stopTime = 0 := by
    rw [h.stop a ha0, hopen]
    rfl
  refine ⟨hframe.recording.trans h.recording, hframe.segmentRoot.trans h.root, ?_, ?_, ?_, ?_, ?_⟩
  · exact hframe.used.symm ▸ h.rootUsed
  · intro b hb
    have hb' : s.txn.used ≤ b := hframe.used ▸ hb
    have hba : b ≠ a := by omega
    refine ⟨?_, ?_⟩
    · show ((nrSegmentEnd s.txn a now).segment b).stopTime = 0
      rw [hsegment, if_neg fun hx => hba hx.1]
      exact (h.fresh b hb').1
    · exact (Function.update_of_ne hba ..).trans (h.fresh b hb').2
  · intro b hb0 hb
    obtain ⟨htime, hclock⟩ := h.start b hb0 (hframe.used ▸ hb)
    refine ⟨?_, hclock.trans hnow⟩
    show ((nrSegmentEnd s.txn a now).segment b).startTime = _
    rw [hsegment]
    exact htime
  · intro b hb0
    show ((nrSegmentEnd s.txn a now).segment b).stopTime = ((Function.update s.ended a _ b).map _).getD 0
    rw [hsegment]
    by_cases hba : b = a
    · subst hba
      rw [Function.update_self, if_pos ⟨rfl, hzero⟩]
      rfl
    · rw [Function.update_of_ne hba, if_neg fun hx => hba hx.1]
      exact h.stop b hb0
  · intro b i hi
    by_cases hba : b = a
    · subst hba
      have hi' : Function.update s.ended b (some ⟨s.txn.absStartTime, now⟩) b = some i := hi
      rw [Function.update_self] at hi'
      obtain rfl := Option.some.inj hi'
      exact (h.start b ha0 hused).2.trans hnow
    · exact h.clock b i ((Function.update_of_ne hba ..).symm.trans hi)

theorem Invariant.setTimingCall (start duration : ℕ) {now : ℕ} (hnow : s.clock ≤ now) :
    (s.exec (.setTiming start duration, now)).Invariant := by
  have hsegment : ∀ a, a ≠ 0 →
      (nrTxnSetTiming s.txn start duration).segment a = s.txn.segment a := by
    intro a ha
    exact SegmentTxn.modify_segment_of_ne _ (h.root.symm ▸ ha) _
  have hne : ∀ a, s.txn.used ≤ a → a ≠ 0 := by
    intro a ha
    have := h.rootUsed
    omega
  refine ⟨h.recording, h.root, h.rootUsed, ?_, ?_, ?_, h.clock⟩
  · intro a ha
    show ((nrTxnSetTiming s.txn start duration).segment a).stopTime = 0 ∧ _
    rw [hsegment a (hne a ha)]
    exact h.fresh a ha
  · intro a ha0 ha
    show ((nrTxnSetTiming s.txn start duration).segment a).startTime = _ ∧ _
    rw [hsegment a ha0]
    obtain ⟨htime, hclock⟩ := h.start a ha0 ha
    exact ⟨htime, hclock.trans hnow⟩
  · intro a ha0
    show ((nrTxnSetTiming s.txn start duration).segment a).stopTime = _
    rw [hsegment a ha0]
    exact h.stop a ha0

theorem Invariant.exec {call : TimingCall × ℕ} (hcall : s.Allowed call) :
    (s.exec call).Invariant := by
  obtain ⟨call, now⟩ := call
  cases call with
  | start parent asyncContext => exact h.startCall parent asyncContext hcall
  | finish a => exact h.finishCall hcall.1 hcall.2.1 hcall.2.2.1 hcall.2.2.2
  | setTiming start duration => exact h.setTimingCall start duration hcall

end Steps

theorem invariant_begin (clock : ℕ) : (begin clock).Invariant := by
  have hframe := nrSegmentInit_frame { emptyTxn clock with used := 1 } 0 none none clock
  have hused : (nrTxnBegin clock clock).used = 1 := hframe.used
  have hstop : ∀ a, a ≠ 0 → ((nrTxnBegin clock clock).segment a).stopTime = 0 := by
    intro a ha
    obtain ⟨children, hother⟩ := nrSegmentInit_segment_of_ne
      { emptyTxn clock with used := 1 } ha none none clock
    have hroot : a ≠ (nrSegmentStart (emptyTxn clock) none none clock).2.segmentRoot :=
      hframe.segmentRoot.symm ▸ ha
    rw [nrTxnBegin, SegmentTxn.modify_segment_of_ne _ hroot]
    show ((nrSegmentInit { emptyTxn clock with used := 1 } 0 none none clock).segment a).stopTime = 0
    rw [hother]
    rfl
  refine ⟨hframe.recording, hframe.segmentRoot, ?_, ?_, ?_, ?_, nofun⟩
  · show 0 < (nrTxnBegin clock clock).used
    rw [hused]
    exact Nat.one_pos
  · intro a ha
    have ha' : 1 ≤ a := hused ▸ ha
    exact ⟨hstop a (by omega), rfl⟩
  · intro a ha0 ha
    have ha' : a < 1 := hused ▸ ha
    omega
  · exact hstop

theorem invariant_of_run {clock : ℕ} {calls : List (TimingCall × ℕ)}
    (hcalls : Along exec Allowed (begin clock) calls) :
    (runFrom exec (begin clock) calls).Invariant :=
  (throughout_of_along (fun _ _ h hcall => h.exec hcall) (invariant_begin clock) hcalls).last

/-! ### The duration that is reported -/

/-- The end of the transaction leaves the times of every other segment than the
root alone. -/
theorem nrTxnEnd_times (txn : SegmentTxn) (name : Option ℕ) (now : ℕ) {a : ℕ}
    (ha : a ≠ txn.segmentRoot) :
    ((nrTxnEnd txn name now).2.segment a).startTime = (txn.segment a).startTime ∧
      ((nrTxnEnd txn name now).2.segment a).stopTime = (txn.segment a).stopTime := by
  simp only [nrTxnEnd]
  split
  · exact ⟨rfl, rfl⟩
  split
  · exact ⟨rfl, rfl⟩
  split
  · exact ⟨rfl, rfl⟩
  next frozen =>
    set named := nrSegmentSetName { txn with complete := true, recording := false }
      txn.segmentRoot frozen with hnamed
    have hsegment : named.segment a = txn.segment a := SegmentTxn.modify_segment_of_ne _ ha _
    have hroot : a ≠ named.segmentRoot := ha
    rw [nrSegmentEnd_segment, if_neg fun hx => hroot hx.1, hsegment]
    exact ⟨rfl, rfl⟩

/-- The difference of two times that are relative to two starts of the
transaction. -/
theorem times_iff {started ended : Instant} (hclock : started.clock ≤ ended.clock) :
    (Instant.time started ≤ Instant.time ended ∧
        nrTimeDuration (Instant.time started) (Instant.time ended) =
          ended.clock - started.clock) ↔
      ended.origin = started.origin := by
  simp only [Instant.time, Instant.origin, nrTimeDuration_eq]
  omega

/-- What a segment reports when the transaction has ended: its duration is the
clock difference between its own start and end, and it does not stop before it
starts, if and only if the start of the transaction, as the clock saw it, was the
same at both moments. -/
theorem segment_timing_iff {clock : ℕ} {calls : List (TimingCall × ℕ)}
    (hcalls : Along exec Allowed (begin clock) calls) (name : Option ℕ) (now : ℕ) :
    let s := runFrom exec (begin clock) calls
    let final := (nrTxnEnd s.txn name now).2
    ∀ a ended, a ≠ s.txn.segmentRoot → a < s.txn.used → s.ended a = some ended →
      (((final.segment a).startTime ≤ (final.segment a).stopTime ∧
          nrTimeDuration (final.segment a).startTime (final.segment a).stopTime =
            ended.clock - (s.started a).clock) ↔
        ended.origin = (s.started a).origin) := by
  intro s final a ended hroot hused hended
  have h : s.Invariant := invariant_of_run hcalls
  obtain ⟨hstart, hstop⟩ := nrTxnEnd_times s.txn name now hroot
  have ha0 : a ≠ 0 := h.root ▸ hroot
  rw [hstart, hstop, (h.start a ha0 hused).1, h.stop a ha0, hended]
  exact times_iff (h.clock a ended hended)

/-- A segment is open while the start of the transaction is moved. -/
def overriddenCalls : List (TimingCall × ℕ) :=
  [(.start none none, 1100), (.setTiming 1250 10, 1200), (.finish 1, 1300)]

/-- The same calls, the override after the end of the segment. -/
def laterCalls : List (TimingCall × ℕ) :=
  [(.start none none, 1100), (.finish 1, 1200), (.setTiming 1250 10, 1300)]

theorem segment_timing_iff_laterCalls :
    let final := (nrTxnEnd (runFrom exec (begin 1000) laterCalls).txn (some 1) 1400).2
    (final.segment 1).startTime ≤ (final.segment 1).stopTime ∧
      nrTimeDuration (final.segment 1).startTime (final.segment 1).stopTime = 1200 - 1100 := by
  have hcalls : Along exec Allowed (begin 1000) laterCalls :=
    ⟨(show 1000 ≤ 1100 by omega), ⟨by decide, by decide, by decide, rfl⟩,
      (show 1200 ≤ 1300 by omega), trivial⟩
  exact (segment_timing_iff hcalls (some 1) 1400 1 ⟨1000, 1200⟩ (by decide) (by decide) rfl).mpr rfl

/-- The segment started at 1100 and ended at 1300 of the clock, and it stops
before it starts. -/
theorem segment_stops_before_start :
    let s := runFrom exec (begin 1000) overriddenCalls
    let final := (nrTxnEnd s.txn (some 1) 1400).2
    Along exec Allowed (begin 1000) overriddenCalls ∧
      (s.started 1).clock = 1100 ∧ s.ended 1 = some ⟨1250, 1300⟩ ∧
      (final.segment 1).startTime = 100 ∧ (final.segment 1).stopTime = 50 :=
  ⟨⟨(show 1000 ≤ 1100 by omega), (show 1100 ≤ 1200 by omega),
    ⟨by decide, by decide, by decide, rfl⟩, trivial⟩, rfl, rfl, rfl, rfl⟩

end TimingRun

end AxiomDaemon.Axiom

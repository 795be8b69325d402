import AxiomDaemon.Axiom.TxnTiming

/-!
Segments and transactions that are timed by hand. Whether the stop time is still
to be read from the clock is told by its being zero, which is also a time that
can be given.

A run starts, moves, times and ends segments and overrides the timing of the
transaction; its record says what each was given last. The clock reads whatever
it likes. Start plus duration is taken not to overflow.
-/

namespace AxiomDaemon.Axiom

open AxiomDaemon.Lib

inductive ManualCall
  | start (parent asyncContext : Option ℕ)
  | setParent (segment parent : ℕ)
  | setSegmentTiming (segment start duration : ℕ)
  | setTxnTiming (start duration : ℕ)
  | finish (segment : ℕ)

/-- A transaction with the record of its run. -/
structure ManualRun where
  txn : SegmentTxn
  given : ℕ → Option (ℕ × ℕ)
  txnGiven : Option (ℕ × ℕ)
  ended : ℕ → Option Instant

/-- The start and the duration that a segment reports. -/
def SegmentTxn.reportedTimes (txn : SegmentTxn) (segment : ℕ) : ℕ × ℕ :=
  ((txn.segment segment).startTime,
    nrTimeDuration (txn.segment segment).startTime (txn.segment segment).stopTime)

/-- `nr_txn_start_time` and `nr_txn_duration`. -/
def SegmentTxn.reportedTxnTimes (txn : SegmentTxn) : ℕ × ℕ :=
  (txn.absStartTime, (txn.reportedTimes txn.segmentRoot).2)

namespace ManualRun

def begin (absStartTime now : ℕ) : ManualRun :=
  { txn := nrTxnBegin absStartTime now, given := fun _ => none, txnGiven := none
    ended := fun _ => none }

/-- A call, at a time of the clock. -/
def exec (s : ManualRun) : ManualCall × ℕ → ManualRun
  | (.start parent asyncContext, now) =>
      { s with txn := (nrSegmentStart s.txn parent asyncContext now).2 }
  | (.setParent segment parent, _) => { s with txn := (nrSegmentSetParent s.txn segment parent).2 }
  | (.setSegmentTiming segment start duration, _) =>
      { s with
        txn := nrSegmentSetTiming s.txn segment start duration
        given := Function.update s.given segment (some (start, duration)) }
  | (.setTxnTiming start duration, _) =>
      { s with
        txn := nrTxnSetTiming s.txn start duration
        txnGiven := some (start, duration) }
  | (.finish segment, now) =>
      { s with
        txn := nrSegmentEnd s.txn segment now
        ended := Function.update s.ended segment (some ⟨s.txn.absStartTime, now⟩) }

/-- Segments are timed until they are ended. The root is not among those that callers have. -/
def Allowed (s : ManualRun) : ManualCall × ℕ → Prop
  | (.setSegmentTiming segment _ _, _) | (.finish segment, _) =>
      segment < s.txn.used ∧ segment ≠ s.txn.segmentRoot ∧ s.ended segment = none
  | _ => True

/-- When a segment that was given its times stops. -/
def stopOf (start duration : ℕ) (ended : Option Instant) : ℕ :=
  if start + duration = 0 then (ended.map TimingRun.Instant.time).getD 0 else start + duration

/-- What holds in every state of a run. -/
structure Invariant (s : ManualRun) : Prop where
  recording : s.txn.recording = true
  running : s.txn.complete = false ∧ s.txn.ignore = false
  root : s.txn.segmentRoot = 0
  rootUsed : 0 < s.txn.used
  rootStart : (s.txn.segment 0).startTime = 0
  fresh : ∀ a, s.txn.used ≤ a → s.given a = none
  segment : ∀ a start duration, s.given a = some (start, duration) →
    a ≠ 0 ∧ (s.txn.segment a).startTime = start ∧
      (s.txn.segment a).stopTime = stopOf start duration (s.ended a)
  txn : ∀ start duration, s.txnGiven = some (start, duration) →
    s.txn.absStartTime = start ∧ (s.txn.segment 0).stopTime = duration

/-- The times of the segments that were there before are the same. -/
def SameTimes (txn txn' : SegmentTxn) : Prop :=
  ∀ a < txn.used, (txn'.segment a).startTime = (txn.segment a).startTime ∧
    (txn'.segment a).stopTime = (txn.segment a).stopTime

section Steps

variable {s : ManualRun} (h : s.Invariant)

include h

theorem Invariant.given_lt {a : ℕ} {times : ℕ × ℕ} (ha : s.given a = some times) :
    a < s.txn.used := by
  by_contra hle
  rw [h.fresh a (Nat.le_of_not_lt hle)] at ha
  cases ha

theorem Invariant.of_sameTimes {txn' : SegmentTxn} (hrecording : txn'.recording = s.txn.recording)
    (hrunning : txn'.complete = s.txn.complete ∧ txn'.ignore = s.txn.ignore)
    (habs : txn'.absStartTime = s.txn.absStartTime) (hroot : txn'.segmentRoot = s.txn.segmentRoot)
    (hused : s.txn.used ≤ txn'.used) (htimes : SameTimes s.txn txn') :
    Invariant { s with txn := txn' } where
  recording := hrecording.trans h.recording
  running := ⟨hrunning.1.trans h.running.1, hrunning.2.trans h.running.2⟩
  root := hroot.trans h.root
  rootUsed := Nat.lt_of_lt_of_le h.rootUsed hused
  rootStart := (htimes 0 h.rootUsed).1.trans h.rootStart
  fresh := fun a ha => h.fresh a (hused.trans ha)
  segment := by
    intro a start duration ha
    obtain ⟨hne, hstart, hstop⟩ := h.segment a start duration ha
    obtain ⟨hstart', hstop'⟩ := htimes a (h.given_lt ha)
    exact ⟨hne, hstart'.trans hstart, hstop'.trans hstop⟩
  txn := by
    intro start duration hgiven
    obtain ⟨hstart, hstop⟩ := h.txn start duration hgiven
    exact ⟨habs.trans hstart, (htimes 0 h.rootUsed).2.trans hstop⟩

theorem Invariant.startCall (parent asyncContext : Option ℕ) (now : ℕ) :
    (s.exec (.start parent asyncContext, now)).Invariant := by
  have hstart : (nrSegmentStart s.txn parent asyncContext now).2 =
      nrSegmentInit { s.txn with used := s.txn.used + 1 } s.txn.used parent asyncContext now := by
    rw [nrSegmentStart_of_recording h.recording]
  have hframe := nrSegmentInit_frame { s.txn with used := s.txn.used + 1 } s.txn.used parent
    asyncContext now
  simp only [exec, hstart]
  refine h.of_sameTimes hframe.recording ⟨hframe.complete, hframe.ignore⟩ hframe.absStartTime
    hframe.segmentRoot ?_ fun a ha => ?_
  · rw [hframe.used]
    exact Nat.le_succ _
  · obtain ⟨children, hother⟩ := nrSegmentInit_segment_of_ne
      { s.txn with used := s.txn.used + 1 } (Nat.ne_of_lt ha) parent asyncContext now
    rw [hother]
    exact ⟨rfl, rfl⟩

theorem Invariant.setParentCall (segment parent now : ℕ) :
    (s.exec (.setParent segment parent, now)).Invariant := by
  have hfield : ∀ {α : Type} (field : TxnSegment → α),
      (∀ t children, field { t with children := children } = field t) →
      (∀ t above, field { t with parent := above } = field t) →
      ∀ a, field ((nrSegmentSetParent s.txn segment parent).2.segment a) =
        field (s.txn.segment a) := by
    intro α field hchildren hparent a
    simp only [nrSegmentSetParent]
    split_ifs
    · rfl
    · rfl
    · simp only
      rw [SegmentTxn.field_modify _ field fun t => hparent t _, SegmentTxn.nrSegmentChildrenAdd,
        SegmentTxn.field_modify _ field fun t => hchildren t _]
      split
      · rw [SegmentTxn.nrSegmentChildrenRemove, SegmentTxn.field_modify _ field fun t => hchildren t _]
      · rfl
  have hframe : s.txn.Frame (nrSegmentSetParent s.txn segment parent).2 := by
    simp only [nrSegmentSetParent]
    split_ifs
    · exact .rfl
    · exact .rfl
    · simp only
      split <;> exact ⟨rfl, rfl, rfl, rfl, rfl, rfl⟩
  exact h.of_sameTimes hframe.recording ⟨hframe.complete, hframe.ignore⟩ hframe.absStartTime
    hframe.segmentRoot hframe.used.ge fun a _ =>
      ⟨hfield TxnSegment.startTime (fun _ _ => rfl) (fun _ _ => rfl) a,
        hfield TxnSegment.stopTime (fun _ _ => rfl) (fun _ _ => rfl) a⟩

theorem Invariant.setSegmentTimingCall {segment : ℕ} (start duration now : ℕ)
    (hused : segment < s.txn.used) (hroot : segment ≠ s.txn.segmentRoot)
    (hopen : s.ended segment = none) :
    (s.exec (.setSegmentTiming segment start duration, now)).Invariant := by
  have hne : segment ≠ 0 := h.root ▸ hroot
  have hother : ∀ a, a ≠ segment →
      (nrSegmentSetTiming s.txn segment start duration).segment a = s.txn.segment a :=
    fun a ha => SegmentTxn.modify_segment_of_ne _ ha _
  have hself : (nrSegmentSetTiming s.txn segment start duration).segment segment =
      { s.txn.segment segment with startTime := start, stopTime := start + duration } :=
    SegmentTxn.modify_segment_self _ _ _
  refine ⟨h.recording, h.running, h.root, h.rootUsed, ?_, ?_, ?_, ?_⟩
  · show ((nrSegmentSetTiming s.txn segment start duration).segment 0).startTime = 0
    rw [hother 0 hne.symm]
    exact h.rootStart
  · intro a ha
    have ha' : a ≠ segment := (Nat.lt_of_lt_of_le hused ha).ne'
    exact (Function.update_of_ne ha' ..).trans (h.fresh a ha)
  · intro a start' duration' ha
    show _ ∧ ((nrSegmentSetTiming s.txn segment start duration).segment a).startTime = _ ∧
      ((nrSegmentSetTiming s.txn segment start duration).segment a).stopTime = _
    by_cases haeq : a = segment
    · subst haeq
      have ha' : Function.update s.given a (some (start, duration)) a = _ := ha
      rw [Function.update_self, Option.some.injEq, Prod.mk.injEq] at ha'
      obtain ⟨rfl, rfl⟩ := ha'
      rw [hself]
      refine ⟨hne, rfl, ?_⟩
      show start + duration = stopOf start duration (s.ended a)
      rw [stopOf, hopen]
      split_ifs with hzero
      · exact hzero
      · rfl
    · rw [hother a haeq]
      exact h.segment a start' duration' ((Function.update_of_ne haeq ..).symm.trans ha)
  · intro start' duration' hgiven
    show _ ∧ ((nrSegmentSetTiming s.txn segment start duration).segment 0).stopTime = _
    rw [hother 0 hne.symm]
    exact h.txn start' duration' hgiven

theorem Invariant.setTxnTimingCall (start duration now : ℕ) :
    (s.exec (.setTxnTiming start duration, now)).Invariant := by
  have hother : ∀ a, a ≠ 0 → (nrTxnSetTiming s.txn start duration).segment a = s.txn.segment a :=
    fun a ha => SegmentTxn.modify_segment_of_ne _ (h.root.symm ▸ ha) _
  have hself : (nrTxnSetTiming s.txn start duration).segment 0 =
      { s.txn.segment 0 with stopTime := duration } := by
    rw [nrTxnSetTiming, h.root]
    exact SegmentTxn.modify_segment_self _ _ _
  refine ⟨h.recording, h.running, h.root, h.rootUsed, ?_, h.fresh, ?_, ?_⟩
  · show ((nrTxnSetTiming s.txn start duration).segment 0).startTime = 0
    rw [hself]
    exact h.rootStart
  · intro a start' duration' ha
    obtain ⟨hne, htimes⟩ := h.segment a start' duration' ha
    show _ ∧ ((nrTxnSetTiming s.txn start duration).segment a).startTime = _ ∧
      ((nrTxnSetTiming s.txn start duration).segment a).stopTime = _
    rw [hother a hne]
    exact ⟨hne, htimes⟩
  · intro start' duration' hgiven
    have hgiven' : (start, duration) = (start', duration') := Option.some.inj hgiven
    obtain ⟨rfl, rfl⟩ := Prod.mk.inj hgiven'
    refine ⟨rfl, ?_⟩
    show ((nrTxnSetTiming s.txn start duration).segment 0).stopTime = duration
    rw [hself]

theorem Invariant.finishCall {segment : ℕ} (now : ℕ) (hroot : segment ≠ s.txn.segmentRoot)
    (hopen : s.ended segment = none) : (s.exec (.finish segment, now)).Invariant := by
  have hne : segment ≠ 0 := h.root ▸ hroot
  have hframe := nrSegmentEnd_frame s.txn segment now
  have hsegment := nrSegmentEnd_segment s.txn segment now
  refine ⟨hframe.recording.trans h.recording,
    ⟨hframe.complete.trans h.running.1, hframe.ignore.trans h.running.2⟩,
    hframe.segmentRoot.trans h.root, hframe.used.symm ▸ h.rootUsed, ?_, ?_, ?_, ?_⟩
  · show ((nrSegmentEnd s.txn segment now).segment 0).startTime = 0
    rw [hsegment]
    exact h.rootStart
  · intro a ha
    exact h.fresh a (hframe.used ▸ ha)
  · intro a start duration ha
    obtain ⟨ha0, hstart, hstop⟩ := h.segment a start duration ha
    show _ ∧ ((nrSegmentEnd s.txn segment now).segment a).startTime = _ ∧
      ((nrSegmentEnd s.txn segment now).segment a).stopTime =
        stopOf start duration (Function.update s.ended segment _ a)
    rw [hsegment]
    refine ⟨ha0, hstart, ?_⟩
    by_cases haeq : a = segment
    · subst haeq
      rw [Function.update_self]
      simp only [true_and, hstop, stopOf, hopen]
      by_cases hzero : start + duration = 0
      · simp only [hzero, if_true, Option.map_none, Option.getD_none, Option.map_some,
          Option.getD_some, TimingRun.Instant.time]
      · simp only [hzero, if_false]
    · rw [Function.update_of_ne haeq]
      simp only [haeq, false_and, if_false, hstop]
  · intro start duration hgiven
    obtain ⟨habs, hstop⟩ := h.txn start duration hgiven
    refine ⟨hframe.absStartTime.trans habs, ?_⟩
    show ((nrSegmentEnd s.txn segment now).segment 0).stopTime = duration
    rw [hsegment]
    simp only [hne.symm, false_and, if_false, hstop]

theorem Invariant.exec {call : ManualCall × ℕ} (hcall : s.Allowed call) :
    (s.exec call).Invariant := by
  obtain ⟨call, now⟩ := call
  cases call with
  | start parent asyncContext => exact h.startCall parent asyncContext now
  | setParent segment parent => exact h.setParentCall segment parent now
  | setSegmentTiming segment start duration =>
      exact h.setSegmentTimingCall start duration now hcall.1 hcall.2.1 hcall.2.2
  | setTxnTiming start duration => exact h.setTxnTimingCall start duration now
  | finish segment => exact h.finishCall now hcall.2.1 hcall.2.2

end Steps

theorem invariant_begin (absStartTime now : ℕ) : (begin absStartTime now).Invariant := by
  have hframe := nrSegmentInit_frame { emptyTxn absStartTime with used := 1 } 0 none none now
  have hroot : (nrTxnBegin absStartTime now).segmentRoot = 0 := hframe.segmentRoot
  refine ⟨hframe.recording, ⟨hframe.complete, hframe.ignore⟩, hroot, ?_, ?_, fun _ _ => rfl,
    nofun, nofun⟩
  · have hused : (nrTxnBegin absStartTime now).used = 1 := hframe.used
    show 0 < (nrTxnBegin absStartTime now).used
    rw [hused]
    exact Nat.one_pos
  · have hself : ((nrTxnBegin absStartTime now).segment
        (nrSegmentStart (emptyTxn absStartTime) none none now).2.segmentRoot).startTime = 0 := by
      simp only [nrTxnBegin, SegmentTxn.modify_segment_self]
    have hroot' : (nrSegmentStart (emptyTxn absStartTime) none none now).2.segmentRoot = 0 := hroot
    rw [hroot'] at hself
    exact hself

theorem invariant_of_run {absStartTime start : ℕ} {calls : List (ManualCall × ℕ)}
    (hcalls : Along exec Allowed (begin absStartTime start) calls) :
    (runFrom exec (begin absStartTime start) calls).Invariant :=
  (throughout_of_along (fun _ _ h hcall => h.exec hcall) (invariant_begin absStartTime start)
    hcalls).last

/-- The end of a running transaction times its root, unless that has a stop time. -/
theorem nrTxnEnd_root {txn : SegmentTxn} (hcomplete : txn.complete = false)
    (hignore : txn.ignore = false) (name now : ℕ) :
    (nrTxnEnd txn (some name) now).2.absStartTime = txn.absStartTime ∧
      (nrTxnEnd txn (some name) now).2.segmentRoot = txn.segmentRoot ∧
      ((nrTxnEnd txn (some name) now).2.segment txn.segmentRoot).startTime =
        (txn.segment txn.segmentRoot).startTime ∧
      ((nrTxnEnd txn (some name) now).2.segment txn.segmentRoot).stopTime =
        if (txn.segment txn.segmentRoot).stopTime = 0 then nrTimeDuration txn.absStartTime now
        else (txn.segment txn.segmentRoot).stopTime := by
  set named := nrSegmentSetName { txn with complete := true, recording := false } txn.segmentRoot name
    with hnamed
  have hend : nrTxnEnd txn (some name) now = (true, nrSegmentEnd named named.segmentRoot now) := by
    simp only [nrTxnEnd, hcomplete, hignore, Bool.false_eq_true, if_false, hnamed]
  have hroot : named.segment txn.segmentRoot = { txn.segment txn.segmentRoot with name := name } :=
    SegmentTxn.modify_segment_self _ _ _
  have hframe := nrSegmentEnd_frame named named.segmentRoot now
  rw [hend]
  refine ⟨hframe.absStartTime, hframe.segmentRoot, ?_, ?_⟩
  · rw [nrSegmentEnd_segment, hroot]
  · rw [nrSegmentEnd_segment]
    have hsame : named.segmentRoot = txn.segmentRoot := rfl
    rw [hsame, hroot]
    simp only [true_and]
    rfl

/-- What a segment that was ended reports is what it was given last, if and only if it was not
given zero for both, or the transaction had not begun by the clock; after the end of the
transaction it reports the same. What the transaction reports when it ended is what it was given
last, if and only if its duration was not given as zero, or it has not begun by the clock. -/
theorem manual_timing_wins_iff {absStartTime begun : ℕ} {calls : List (ManualCall × ℕ)}
    (hcalls : Along exec Allowed (begin absStartTime begun) calls) :
    let s := runFrom exec (begin absStartTime begun) calls
    (∀ a start duration ended, s.given a = some (start, duration) → s.ended a = some ended →
      (s.txn.reportedTimes a = (start, duration) ↔
        start + duration ≠ 0 ∨ ended.clock ≤ ended.absStartTime) ∧
      ∀ name now, (nrTxnEnd s.txn name now).2.reportedTimes a = s.txn.reportedTimes a) ∧
    ∀ start duration, s.txnGiven = some (start, duration) → ∀ name now,
      ((nrTxnEnd s.txn (some name) now).2.reportedTxnTimes = (start, duration) ↔
        duration ≠ 0 ∨ now ≤ start) := by
  intro s
  have h : s.Invariant := invariant_of_run hcalls
  refine ⟨fun a start duration ended hgiven hended => ?_, fun start duration hgiven name now => ?_⟩
  · obtain ⟨hne, hstart, hstop⟩ := h.segment a start duration hgiven
    refine ⟨?_, fun name now => ?_⟩
    · rw [SegmentTxn.reportedTimes, hstart, hstop, hended, stopOf, nrTimeDuration_eq,
        Prod.mk.injEq, Option.map_some, Option.getD_some, TimingRun.Instant.time, nrTimeDuration_eq]
      split_ifs with hzero <;> omega
    · obtain ⟨hstart', hstop'⟩ := TimingRun.nrTxnEnd_times s.txn name now (h.root.symm ▸ hne)
      rw [SegmentTxn.reportedTimes, SegmentTxn.reportedTimes, hstart', hstop']
  · obtain ⟨habs, hstop⟩ := h.txn start duration hgiven
    obtain ⟨habs', hroot', hstart', hstop'⟩ := nrTxnEnd_root h.running.1 h.running.2 name now
    rw [h.root] at hroot' hstart' hstop'
    rw [SegmentTxn.reportedTxnTimes, SegmentTxn.reportedTimes, hroot', hstart', hstop', habs',
      h.rootStart, hstop, habs, nrTimeDuration_eq, nrTimeDuration_eq, Prod.mk.injEq]
    split_ifs with hzero <;> omega

/-- A segment and the transaction are timed by hand, the segment with a duration of zero at the
start of the transaction. -/
def zeroCalls : List (ManualCall × ℕ) :=
  [(.start none none, 1100), (.setSegmentTiming 1 5 5, 1150), (.setSegmentTiming 1 0 0, 1200),
    (.setTxnTiming 1000 0, 1250), (.finish 1, 1300)]

theorem allowed_zeroCalls : Along exec Allowed (begin 1000 1000) zeroCalls :=
  ⟨trivial, ⟨by decide, by decide, rfl⟩, ⟨by decide, by decide, rfl⟩, trivial,
    ⟨by decide, by decide, rfl⟩, trivial⟩

/-- Both report what the clock says. -/
theorem zero_is_unset :
    let s := runFrom exec (begin 1000 1000) zeroCalls
    Along exec Allowed (begin 1000 1000) zeroCalls ∧
      s.given 1 = some (0, 0) ∧ s.txn.reportedTimes 1 = (0, 300) ∧
      s.txnGiven = some (1000, 0) ∧
      (nrTxnEnd s.txn (some 1) 1400).2.reportedTxnTimes = (1000, 400) :=
  ⟨allowed_zeroCalls, rfl, rfl, rfl, rfl⟩

/-- The same with times that are not zero. -/
def givenCalls : List (ManualCall × ℕ) :=
  [(.start none none, 1100), (.setSegmentTiming 1 5 0, 1200), (.setTxnTiming 900 7, 1250),
    (.finish 1, 1300)]

theorem manual_timing_wins_givenCalls :
    let s := runFrom exec (begin 1000 1000) givenCalls
    s.txn.reportedTimes 1 = (5, 0) ∧
      (nrTxnEnd s.txn (some 1) 1400).2.reportedTxnTimes = (900, 7) := by
  have hcalls : Along exec Allowed (begin 1000 1000) givenCalls :=
    ⟨trivial, ⟨by decide, by decide, rfl⟩, trivial, ⟨by decide, by decide, rfl⟩, trivial⟩
  obtain ⟨hsegments, htxn⟩ := manual_timing_wins_iff hcalls
  exact ⟨(hsegments 1 5 0 ⟨900, 1300⟩ rfl rfl).1.mpr (.inl (by decide)),
    (htxn 900 7 rfl 1 1400).mpr (.inl (by decide))⟩

end ManualRun

end AxiomDaemon.Axiom

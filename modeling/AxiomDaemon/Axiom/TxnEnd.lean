import AxiomDaemon.Axiom.ExclusiveTime
import AxiomDaemon.Axiom.SpanEventJson
import AxiomDaemon.Axiom.TxnDistributedTrace
import AxiomDaemon.Axiom.TxnNaming

/-!
The end of a transaction, as far as its name and the metrics of its duration go.

The name is frozen when it is asked for the first time, which may be long before
the end. The application is looked up for that; a freeze that does not find it
leaves a transaction that counts as frozen and has no name.
-/

namespace AxiomDaemon.Axiom

open AxiomDaemon.Lib AxiomDaemon.Util

/-- The fields of `nrtxn_t` that `nr_txn_end` and the metrics of the duration read and write. -/
structure EndTxn where
  named : NamedTxn
  complete : Bool
  distributedTracingEnabled : Bool
  distributedTrace : Option NrDistributedTrace
  /-- `segment_root->exclusive_time`. -/
  rootExclusiveTime : Option NrExclusiveTime
  intrinsics : NrObj

/-! ### The metrics of the duration -/

section Metrics

variable (txn : EndTxn) (duration totalTime : UInt64)

def EndTxn.rootExclusive : UInt64 := UInt64.ofNat (nrExclusiveTimeCalculate txn.rootExclusiveTime)

/-- The name with `TotalTime` behind its first segment. -/
def totalMetricName (name : Option Bytes) : Bytes :=
  let text := formatString name
  match name with
  | none => text ++ ascii "TotalTime"
  | some name =>
      name.takeWhile (· ≠ 0x2f) ++ ascii "TotalTime" ++ name.dropWhile (· ≠ 0x2f)

/-- What is added to the metric of the transaction's own name. -/
def ownMetricAdd : Option MetricAdd :=
  txn.named.name.map fun name => forceAddEx name duration txn.rootExclusive

/-- What is added to the metrics by caller. -/
def callerMetricAdds : List MetricAdd :=
  if txn.distributedTracingEnabled then
    dtMetricAdds txn.distributedTrace txn.named.status.background (ascii "DurationByCaller")
      (intOfTime duration)
  else []

/-- What `nr_txn_create_duration_metrics` adds, in its order. -/
def durationMetricAdds : List MetricAdd :=
  let background := txn.named.status.background
  let rollupMetric := ascii (if background then "OtherTransaction/all" else "WebTransaction")
  let rollupTotalMetric :=
    ascii (if background then "OtherTransactionTotalTime" else "WebTransactionTotalTime")
  (if background then [] else [forceAddEx (ascii "HttpDispatcher") duration 0]) ++
    (ownMetricAdd txn duration).toList ++
    [forceAddEx rollupMetric duration txn.rootExclusive,
      forceAddEx (totalMetricName txn.named.name) totalTime totalTime,
      forceAddEx rollupTotalMetric totalTime totalTime] ++
    callerMetricAdds txn duration

/-- `nr_txn_create_duration_metrics`. -/
def nrTxnCreateDurationMetrics : EndTxn :=
  { txn with
    named :=
      { txn.named with
        unscopedMetrics :=
          (durationMetricAdds txn duration totalTime).foldl NrmTable.add txn.named.unscopedMetrics }
    intrinsics :=
      nroSetHash txn.intrinsics (ascii "totalTime") (.double (secondsOf totalTime.toNat)) }

end Metrics

theorem toNat_timeOfInt_intOfTime (time : UInt64) :
    (timeOfInt (intOfTime time)).toNat =
      time.toNat % 2 ^ 32 + if 2 ^ 31 ≤ time.toNat % 2 ^ 32 then 2 ^ 64 - 2 ^ 32 else 0 := by
  have hbits : (timeOfInt (intOfTime time)).toBitVec = (time.toBitVec.setWidth 32).signExtend 64 :=
    rfl
  rw [← UInt64.toNat_toBitVec, hbits, BitVec.toNat_signExtend, BitVec.toNat_setWidth,
    BitVec.toNat_setWidth, BitVec.msb_eq_decide, BitVec.toNat_setWidth, UInt64.toNat_toBitVec]
  have hlt := time.toNat_lt
  simp only [decide_eq_true_eq]
  norm_num
  omega

/-- A time gets through an `int` when it is less than half of its range, or so much that the sign
puts back what was cut off. -/
theorem timeOfInt_intOfTime_eq_iff (time : UInt64) :
    timeOfInt (intOfTime time) = time ↔ time < 0x80000000 ∨ 0xffffffff80000000 ≤ time := by
  have hlow : (0x80000000 : UInt64).toNat = 2 ^ 31 := rfl
  have hhigh : (0xffffffff80000000 : UInt64).toNat = 2 ^ 64 - 2 ^ 31 := rfl
  rw [← UInt64.toNat_inj, toNat_timeOfInt_intOfTime, UInt64.lt_iff_toNat_lt,
    UInt64.le_iff_toNat_le, hlow, hhigh]
  have hlt := time.toNat_lt
  split_ifs <;> omega

/-- The metrics by caller get the total, the minimum and the maximum that the metric of the name
gets, if and only if the duration gets through an `int`. -/
theorem callerMetrics_carry_duration_iff (txn : EndTxn)
    (henabled : txn.distributedTracingEnabled = true) {name : Bytes}
    (hname : txn.named.name = some name) (duration totalTime : UInt64) :
    ∃ own callers, own.name = name ∧ ownMetricAdd txn duration = some own ∧
      callerMetricAdds txn duration = callers ∧ callers.length = 2 ∧
      own ∈ durationMetricAdds txn duration totalTime ∧
      callers <:+ durationMetricAdds txn duration totalTime ∧
      ((∀ caller ∈ callers,
          caller.total = own.total ∧ caller.min = own.min ∧ caller.max = own.max) ↔
        duration < 0x80000000 ∨ 0xffffffff80000000 ≤ duration) := by
  have hown : ownMetricAdd txn duration = some (forceAddEx name duration txn.rootExclusive) := by
    rw [ownMetricAdd, hname]
    rfl
  have hcallers : callerMetricAdds txn duration =
      dtMetricAdds txn.distributedTrace txn.named.status.background (ascii "DurationByCaller")
        (intOfTime duration) := if_pos henabled
  refine ⟨_, _, rfl, hown, hcallers, rfl, ?_, ?_, ?_⟩
  · rw [durationMetricAdds, hown]
    simp
  · rw [durationMetricAdds, ← hcallers]
    exact List.suffix_append _ _
  · simp only [dtMetricAdds, forceAddEx, List.forall_mem_cons, List.not_mem_nil, false_imp_iff,
      implies_true, and_true, and_self, timeOfInt_intOfTime_eq_iff]

section Hour

/-- A transaction that was begun, and named. -/
def hourTxn (name : Option Bytes) (pathIsFrozen : Bool) : EndTxn where
  named :=
    { status :=
        { pathIsFrozen, pathType := .unknown, background := true, ignore := false
          recording := true }
      path := none
      name
      options := { apdexT := 0, ttThreshold := 0, ttIsApdexF := false }
      unscopedMetrics := nrmTableCreate 100
      matchFilenames := none
      webTransactionsApdex := none }
  complete := false
  distributedTracingEnabled := true
  distributedTrace := none
  rootExclusiveTime := none
  intrinsics := .hash []

/-- A job of one hour, in microseconds: the metrics by caller get some 585 thousand years. -/
theorem hour_by_caller :
    let txn := hourTxn (some (ascii "OtherTransaction/php/job")) true
    txn.distributedTracingEnabled = true ∧
      (ownMetricAdd txn 3600000000).map MetricAdd.total = some 3600000000 ∧
      (callerMetricAdds txn 3600000000).map MetricAdd.total =
        [0xffffffffd693a400, 0xffffffffd693a400] ∧
      ¬ ∀ caller ∈ callerMetricAdds txn 3600000000, ∀ own ∈ ownMetricAdd txn 3600000000,
        caller.total = own.total ∧ caller.min = own.min ∧ caller.max = own.max := by
  refine ⟨rfl, rfl, rfl, fun h => ?_⟩
  have htotal := (h _ (List.mem_cons_self) _ rfl).1
  exact absurd htotal (by decide)

theorem callerMetrics_carry_duration_minute :
    ∃ own callers, own.name = ascii "OtherTransaction/php/job" ∧
      ownMetricAdd (hourTxn (some (ascii "OtherTransaction/php/job")) true) 60000000 = some own ∧
      callerMetricAdds (hourTxn (some (ascii "OtherTransaction/php/job")) true) 60000000 =
        callers ∧
      ∀ caller ∈ callers, caller.total = own.total ∧ caller.min = own.min ∧ caller.max = own.max :=
  let ⟨own, callers, hname, hown, hcallers, _, _, _, hiff⟩ :=
    callerMetrics_carry_duration_iff (hourTxn (some (ascii "OtherTransaction/php/job")) true)
      rfl rfl 60000000 60000000
  ⟨own, callers, hname, hown, hcallers, hiff.mpr (by decide)⟩

end Hour

/-! ### Freezing and ending -/

/-- `nr_txn_end`. With it what it added as the metrics of the duration, if it came so far; the
other metrics of the end of a transaction are left out. -/
def nrTxnEndMetrics (txn : EndTxn) (app : Option NamingApp) (duration totalTime : UInt64) :
    EndTxn × Option (List MetricAdd) :=
  if txn.complete then (txn, none)
  else
    let txn :=
      { txn with
        complete := true
        named := { txn.named with status := { txn.named.status with recording := false } } }
    if txn.named.status.ignore then (txn, none)
    else
      match nrTxnFreezeNameUpdateApdex txn.named app with
      | (named, .failure) => ({ txn with named }, none)
      | (named, .success) =>
          let txn := { txn with named }
          (nrTxnCreateDurationMetrics txn duration totalTime,
            some (durationMetricAdds txn duration totalTime))

/-- What happens before the end. -/
inductive EndCall
  | freeze
  /-- The agent run id is not valid any more. -/
  | invalidate
  deriving DecidableEq

/-- A transaction, and its application while the agent run id is valid. -/
structure EndRun where
  txn : EndTxn
  app : Option NamingApp

def EndRun.exec (s : EndRun) : EndCall → EndRun
  | .freeze =>
      { s with txn := { s.txn with named := (nrTxnFreezeNameUpdateApdex s.txn.named s.app).1 } }
  | .invalidate => { s with app := none }

/-- What a freeze answered, and the name afterwards. -/
structure FreezeReply where
  status : NrStatus
  name : Option Bytes

/-- The answers to the freezes of a run. -/
def freezeReplies (s : EndRun) : List EndCall → List FreezeReply
  | [] => []
  | .freeze :: calls =>
      { status := (nrTxnFreezeNameUpdateApdex s.txn.named s.app).2
        name := (nrTxnFreezeNameUpdateApdex s.txn.named s.app).1.name } ::
        freezeReplies (s.exec .freeze) calls
  | .invalidate :: calls => freezeReplies (s.exec .invalidate) calls

/-- Where a freeze succeeds there is a name; when one failed and left no name, later ones fail as
well, and no metrics of the duration are created at the end. -/
structure ReportedUnderName (s : EndRun) (calls : List EndCall) (duration totalTime : UInt64) :
    Prop where
  named : ∀ r ∈ freezeReplies s calls, r.status = .success → r.name ≠ none
  stays : (freezeReplies s calls).Pairwise fun r r' =>
    r.status = .failure → r.name = none → r'.status = .failure
  ended : ∀ adds,
    let final := runFrom EndRun.exec s calls
    (nrTxnEndMetrics final.txn final.app duration totalTime).2 = some adds →
      (nrTxnEndMetrics final.txn final.app duration totalTime).1.named.name ≠ none
  stopped : (∃ r ∈ freezeReplies s calls, r.status = .failure ∧ r.name = none) →
    let final := runFrom EndRun.exec s calls
    (nrTxnEndMetrics final.txn final.app duration totalTime).2 = none ∧
      (nrTxnEndMetrics final.txn final.app duration totalTime).1.named.unscopedMetrics =
        final.txn.named.unscopedMetrics

/-- The first freeze comes too late. -/
def invalidBeforeFreeze : List EndCall → Bool
  | [] => false
  | .freeze :: _ => false
  | .invalidate :: calls => .freeze ∈ calls

/-- As `nr_txn_begin` leaves it. -/
structure EndTxn.Begun (txn : EndTxn) : Prop where
  complete : txn.complete = false
  pathIsFrozen : txn.named.status.pathIsFrozen = false
  ignore : txn.named.status.ignore = false
  name : txn.named.name = none

/-! ### What a freeze leaves -/

section Freeze

variable {txn : NamedTxn}

theorem nrTxnApplyUrlRules_status (rules : Option (Bytes → NrRulesResult × Bytes)) :
    (nrTxnApplyUrlRules txn rules).2 = .success ∧
        (nrTxnApplyUrlRules txn rules).1.status = txn.status ∨
      (nrTxnApplyUrlRules txn rules).2 = .failure ∧
        (nrTxnApplyUrlRules txn rules).1.status.ignore = true := by
  unfold nrTxnApplyUrlRules
  split
  · simp only
    split
    · exact .inr ⟨rfl, rfl⟩
    · exact .inl ⟨rfl, rfl⟩
    · exact .inl ⟨rfl, rfl⟩
  · exact .inl ⟨rfl, rfl⟩

theorem nrTxnApplyTxnRules_status (hname : txn.name ≠ none)
    (rules : Option (Bytes → NrRulesResult × Bytes)) :
    (nrTxnApplyTxnRules txn rules).2 = .success ∧
        (nrTxnApplyTxnRules txn rules).1.status = txn.status ∧
        (nrTxnApplyTxnRules txn rules).1.name ≠ none ∨
      (nrTxnApplyTxnRules txn rules).2 = .failure ∧
        (nrTxnApplyTxnRules txn rules).1.status.ignore = true := by
  unfold nrTxnApplyTxnRules
  split
  · split
    · exact .inr ⟨rfl, rfl⟩
    · exact .inl ⟨rfl, rfl, Option.some_ne_none _⟩
    · exact .inl ⟨rfl, rfl, hname⟩
  · exact .inl ⟨rfl, rfl, hname⟩

theorem nrTxnApplySegmentTerms_name (hname : txn.name ≠ none) (terms : Bytes → Option Bytes) :
    (nrTxnApplySegmentTerms txn terms).status = txn.status ∧
      (nrTxnApplySegmentTerms txn terms).name ≠ none := by
  rw [nrTxnApplySegmentTerms]
  split
  · exact ⟨rfl, Option.some_ne_none _⟩
  · exact ⟨rfl, hname⟩

theorem nrTxnUpdateApdexIfKeyTxn_name (txn : NamedTxn) :
    (nrTxnUpdateApdexIfKeyTxn txn).status = txn.status ∧
      (nrTxnUpdateApdexIfKeyTxn txn).name = txn.name := by
  rw [nrTxnUpdateApdexIfKeyTxn]
  split <;> exact ⟨rfl, rfl⟩

theorem NamedTxn.dropSlash_status (txn : NamedTxn) : txn.dropSlash.status = txn.status := by
  rw [NamedTxn.dropSlash]
  split <;> rfl

/-- How a transaction stands after a freeze that found the application: it has a name, or is
ignored. -/
inductive Settled (txn : NamedTxn) : Prop
  | named (hfrozen : txn.status.pathIsFrozen = true) (hignore : txn.status.ignore = false)
      (hname : txn.name ≠ none)
  | ignored (hignore : txn.status.ignore = true)

theorem freeze_of_app (hignore : txn.status.ignore = false)
    (hfrozen : txn.status.pathIsFrozen = false) (app : NamingApp) :
    (nrTxnFreezeNameUpdateApdex txn (some app)).2 = .success ∧
        (nrTxnFreezeNameUpdateApdex txn (some app)).1.status.pathIsFrozen = true ∧
        (nrTxnFreezeNameUpdateApdex txn (some app)).1.status.ignore = false ∧
        (nrTxnFreezeNameUpdateApdex txn (some app)).1.name ≠ none ∨
      (nrTxnFreezeNameUpdateApdex txn (some app)).2 = .failure ∧
        (nrTxnFreezeNameUpdateApdex txn (some app)).1.status.ignore = true := by
  rw [nrTxnFreezeNameUpdateApdex, hignore, hfrozen]
  simp only [Bool.false_eq_true, if_false]
  set txn₀ : NamedTxn := { txn with status := { txn.status with pathIsFrozen := true } } with htxn₀
  have hpath : (txn₀.freezePath app).2 = .success ∧ (txn₀.freezePath app).1.status = txn₀.status ∨
      (txn₀.freezePath app).2 = .failure ∧ (txn₀.freezePath app).1.status.ignore = true := by
    rw [NamedTxn.freezePath]
    split
    · exact nrTxnApplyUrlRules_status app.urlRules
    · exact .inl ⟨rfl, rfl⟩
  rcases hresult : txn₀.freezePath app with ⟨txn₁, status₁⟩
  rw [hresult] at hpath
  rcases hpath with ⟨rfl, hstatus⟩ | ⟨rfl, hignored⟩
  · simp only
    have hrules := @nrTxnApplyTxnRules_status
      { txn₁.dropSlash with name := some txn₁.dropSlash.fullName }
      (Option.some_ne_none _) app.txnRules
    rcases hresult' : nrTxnApplyTxnRules
      { txn₁.dropSlash with name := some txn₁.dropSlash.fullName } app.txnRules with ⟨txn₂, status₂⟩
    rw [hresult'] at hrules
    rcases hrules with ⟨rfl, hstatus', hname⟩ | ⟨rfl, hignored⟩
    · simp only
      have hterms := nrTxnApplySegmentTerms_name hname app.segmentTerms
      have hapdex := nrTxnUpdateApdexIfKeyTxn_name (nrTxnApplySegmentTerms txn₂ app.segmentTerms)
      have hlast : (nrTxnUpdateApdexIfKeyTxn
          (nrTxnApplySegmentTerms txn₂ app.segmentTerms)).status = txn₀.status := by
        rw [hapdex.1, hterms.1, hstatus']
        exact (NamedTxn.dropSlash_status txn₁).trans hstatus
      refine .inl ⟨trivial, ?_, ?_, ?_⟩
      · rw [hlast]
      · rw [hlast]
        exact hignore
      · rw [hapdex.2]
        exact hterms.2
    · exact .inr ⟨rfl, hignored⟩
  · exact .inr ⟨rfl, hignored⟩

theorem Settled.freeze (h : Settled txn) (app : Option NamingApp) :
    (nrTxnFreezeNameUpdateApdex txn app).1 = txn ∧
      ((nrTxnFreezeNameUpdateApdex txn app).2 = .success ∧ txn.name ≠ none ∧
          txn.status.ignore = false ∨
        (nrTxnFreezeNameUpdateApdex txn app).2 = .failure ∧ txn.status.ignore = true) := by
  rw [nrTxnFreezeNameUpdateApdex]
  cases h with
  | named hfrozen hignore hname =>
      rw [hignore, hfrozen]
      exact ⟨rfl, .inl ⟨rfl, hname, rfl⟩⟩
  | ignored hignore =>
      rw [hignore]
      exact ⟨rfl, .inr ⟨rfl, rfl⟩⟩

end Freeze

/-! ### Runs -/

section Runs

variable {s : EndRun}

theorem Settled.exec (h : Settled s.txn.named) (call : EndCall) : (s.exec call).txn = s.txn := by
  cases call with
  | freeze =>
      have hsame := (h.freeze s.app).1
      simp only [EndRun.exec, hsame]
  | invalidate => rfl

theorem Settled.run (h : Settled s.txn.named) (calls : List EndCall) :
    (runFrom EndRun.exec s calls).txn = s.txn := by
  induction calls generalizing s with
  | nil => rfl
  | cons call calls ih =>
      have hstep := h.exec call
      have hrest := ih (s := s.exec call) (by rw [hstep]; exact h)
      exact hrest.trans hstep

theorem Settled.replies (h : Settled s.txn.named) {calls : List EndCall} {r : FreezeReply}
    (hr : r ∈ freezeReplies s calls) :
    r.status = .success ∧ r.name ≠ none ∧ s.txn.named.status.ignore = false ∨
      r.status = .failure ∧ s.txn.named.status.ignore = true := by
  induction calls generalizing s with
  | nil => cases hr
  | cons call calls ih =>
      have hstep := h.exec call
      have hrest : r ∈ freezeReplies (s.exec call) calls → _ := ih (s := s.exec call)
        (by rw [hstep]; exact h)
      rw [hstep] at hrest
      cases call with
      | freeze =>
          rcases List.mem_cons.mp hr with rfl | hr
          · obtain ⟨hsame, hstatus⟩ := h.freeze s.app
            simp only [hsame]
            exact hstatus
          · exact hrest hr
      | invalidate => exact hrest hr

theorem nrTxnEndMetrics_of_ignore {txn : EndTxn} (h : txn.named.status.ignore = true)
    (app : Option NamingApp) (duration totalTime : UInt64) :
    (nrTxnEndMetrics txn app duration totalTime).2 = none ∧
      (nrTxnEndMetrics txn app duration totalTime).1.named.unscopedMetrics =
        txn.named.unscopedMetrics := by
  rw [nrTxnEndMetrics]
  by_cases hcomplete : txn.complete = true
  · rw [if_pos hcomplete]
    exact ⟨rfl, rfl⟩
  · rw [if_neg hcomplete]
    simp only [h, if_true]
    exact ⟨trivial, trivial⟩

/-- A transaction that has a name by then, or is ignored, has one if metrics are created. -/
theorem Settled.ended {txn : EndTxn} (h : Settled txn.named) (app : Option NamingApp)
    {duration totalTime : UInt64} {adds : List MetricAdd}
    (hadds : (nrTxnEndMetrics txn app duration totalTime).2 = some adds) :
    (nrTxnEndMetrics txn app duration totalTime).1.named.name ≠ none := by
  rw [nrTxnEndMetrics] at hadds ⊢
  split_ifs at hadds ⊢ with hcomplete
  simp only at hadds ⊢
  split_ifs at hadds ⊢ with hignore
  have hsettled : Settled
      { txn.named with status := { txn.named.status with recording := false } } := by
    cases h with
    | named hfrozen hignore hname => exact .named hfrozen hignore hname
    | ignored hignore => exact .ignored hignore
  have hfreeze := hsettled.freeze app
  rcases hresult : nrTxnFreezeNameUpdateApdex
    { txn.named with status := { txn.named.status with recording := false } } app with ⟨named, status⟩
  rw [hresult] at hadds hfreeze
  obtain ⟨rfl, ⟨rfl, hname, -⟩ | ⟨rfl, -⟩⟩ := hfreeze
  · exact hname
  · cases hadds

/-- Where the name is settled before any of the calls, all is well. -/
theorem Settled.reportedUnderName (h : Settled s.txn.named) (calls : List EndCall)
    (duration totalTime : UInt64) : ReportedUnderName s calls duration totalTime where
  named := by
    intro r hr hsuccess
    rcases h.replies hr with ⟨-, hname, -⟩ | ⟨hfailure, -⟩
    · exact hname
    · rw [hsuccess] at hfailure
      cases hfailure
  stays := by
    refine List.pairwise_of_forall_mem_list fun r hr r' hr' hfailure _ => ?_
    rcases h.replies hr with ⟨hsuccess, -, -⟩ | ⟨-, hignore⟩
    · rw [hfailure] at hsuccess
      cases hsuccess
    · rcases h.replies hr' with ⟨-, -, hnot⟩ | ⟨hfailure', -⟩
      · rw [hignore] at hnot
        cases hnot
      · exact hfailure'
  ended := by
    intro adds final hadds
    have hfinal : Settled final.txn.named := by
      rw [h.run calls]
      exact h
    exact hfinal.ended final.app hadds
  stopped := by
    rintro ⟨r, hr, hfailure, -⟩ final
    refine nrTxnEndMetrics_of_ignore ?_ final.app duration totalTime
    rw [h.run calls]
    rcases h.replies hr with ⟨hsuccess, -, -⟩ | ⟨-, hignore⟩
    · rw [hfailure] at hsuccess
      cases hsuccess
    · exact hignore

theorem freezeReplies_of_notMem {calls : List EndCall} (h : .freeze ∉ calls) :
    freezeReplies s calls = [] ∧ (runFrom EndRun.exec s calls).txn = s.txn := by
  induction calls generalizing s with
  | nil => exact ⟨rfl, rfl⟩
  | cons call calls ih =>
      obtain ⟨hcall, hcalls⟩ := not_or.mp (mt List.mem_cons.mpr h)
      cases call with
      | freeze => exact absurd rfl hcall
      | invalidate => exact ih (s := s.exec .invalidate) hcalls

/-- A transaction whose application was not found. -/
structure Nameless (s : EndRun) : Prop where
  complete : s.txn.complete = false
  ignore : s.txn.named.status.ignore = false
  name : s.txn.named.name = none
  app : s.app = none

theorem Nameless.freeze (h : Nameless s) :
    Nameless (s.exec .freeze) ∧ (s.exec .freeze).txn.named.status.pathIsFrozen = true := by
  simp only [EndRun.exec, nrTxnFreezeNameUpdateApdex, h.ignore, h.app]
  cases hfrozen : s.txn.named.status.pathIsFrozen with
  | true => exact ⟨⟨h.complete, h.ignore, h.name, rfl⟩, hfrozen⟩
  | false => exact ⟨⟨h.complete, rfl, h.name, rfl⟩, rfl⟩

theorem Nameless.run (h : Nameless s) {calls : List EndCall}
    (hfreeze : s.txn.named.status.pathIsFrozen = true ∨ .freeze ∈ calls) :
    Nameless (runFrom EndRun.exec s calls) ∧
      (runFrom EndRun.exec s calls).txn.named.status.pathIsFrozen = true := by
  induction calls generalizing s with
  | nil => exact ⟨h, hfreeze.resolve_right List.not_mem_nil⟩
  | cons call calls ih =>
      cases call with
      | freeze => exact ih h.freeze.1 (.inl h.freeze.2)
      | invalidate =>
          refine ih (s := s.exec .invalidate) ⟨h.complete, h.ignore, h.name, rfl⟩ ?_
          rcases hfreeze with hfrozen | hmem
          · exact .inl hfrozen
          · exact .inr ((List.mem_cons.mp hmem).resolve_left nofun)

theorem Nameless.ended (h : Nameless s) (hfrozen : s.txn.named.status.pathIsFrozen = true)
    (duration totalTime : UInt64) :
    ∃ adds, (nrTxnEndMetrics s.txn s.app duration totalTime).2 = some adds ∧
      (nrTxnEndMetrics s.txn s.app duration totalTime).1.named.name = none := by
  simp only [nrTxnEndMetrics, nrTxnFreezeNameUpdateApdex, h.complete, h.ignore, hfrozen]
  exact ⟨_, rfl, h.name⟩

end Runs

theorem EndTxn.Begun.ended {txn : EndTxn} (h : txn.Begun) (app : Option NamingApp)
    {duration totalTime : UInt64} {adds : List MetricAdd}
    (hadds : (nrTxnEndMetrics txn app duration totalTime).2 = some adds) :
    (nrTxnEndMetrics txn app duration totalTime).1.named.name ≠ none := by
  have hnot : ¬txn.complete = true := Bool.eq_false_iff.mp h.complete
  have hnot' : ¬txn.named.status.ignore = true := Bool.eq_false_iff.mp h.ignore
  rw [nrTxnEndMetrics, if_neg hnot] at hadds ⊢
  simp only [if_neg hnot'] at hadds ⊢
  cases app with
  | none =>
      have hfreeze : (nrTxnFreezeNameUpdateApdex
          { txn.named with status := { txn.named.status with recording := false } } none).2 =
            .failure := by
        rw [nrTxnFreezeNameUpdateApdex]
        simp only [if_neg hnot', h.pathIsFrozen, Bool.false_eq_true, if_false]
      rcases hresult : nrTxnFreezeNameUpdateApdex
        { txn.named with status := { txn.named.status with recording := false } } none with
        ⟨named, status⟩
      rw [hresult] at hadds hfreeze
      obtain rfl : status = .failure := hfreeze
      cases hadds
  | some app =>
      have hfreeze := @freeze_of_app
        { txn.named with status := { txn.named.status with recording := false } }
        h.ignore h.pathIsFrozen app
      rcases hresult : nrTxnFreezeNameUpdateApdex
        { txn.named with status := { txn.named.status with recording := false } } (some app) with
        ⟨named, status⟩
      rw [hresult] at hadds hfreeze
      rcases hfreeze with ⟨rfl, -, -, hname⟩ | ⟨rfl, -⟩
      · exact hname
      · cases hadds

/-- Without a freeze before the end it is the one at the end that counts. -/
theorem reportedUnderName_of_notMem {s : EndRun} (hbegun : s.txn.Begun) {calls : List EndCall}
    (h : .freeze ∉ calls) (duration totalTime : UInt64) :
    ReportedUnderName s calls duration totalTime := by
  obtain ⟨hreplies, htxn⟩ := freezeReplies_of_notMem (s := s) h
  refine ⟨?_, ?_, ?_, ?_⟩
  · rw [hreplies]
    exact List.forall_mem_nil _
  · rw [hreplies]
    exact .nil
  · intro adds final hadds
    have hfinal : final.txn.Begun := by
      rw [htxn]
      exact hbegun
    exact hfinal.ended final.app hadds
  · rw [hreplies]
    rintro ⟨r, hr, -⟩
    cases hr

theorem reportedUnderName_of_app {txn : EndTxn} (hbegun : txn.Begun) (app : NamingApp)
    (calls : List EndCall) (duration totalTime : UInt64) :
    ReportedUnderName { txn, app := some app } (.freeze :: calls) duration totalTime := by
  set s : EndRun := { txn, app := some app } with hs
  have hfirst := freeze_of_app hbegun.ignore hbegun.pathIsFrozen app
  have hsettled : Settled (s.exec .freeze).txn.named := by
    rcases hfirst with ⟨-, hfrozen, hignore, hname⟩ | ⟨-, hignore⟩
    · exact .named hfrozen hignore hname
    · exact .ignored hignore
  have hrest := hsettled.reportedUnderName calls duration totalTime
  have hignored : (nrTxnFreezeNameUpdateApdex txn.named (some app)).2 = .failure →
      (s.exec .freeze).txn.named.status.ignore = true := by
    intro hfailure
    rcases hfirst with ⟨hsuccess, -⟩ | ⟨-, hignore⟩
    · rw [hfailure] at hsuccess
      cases hsuccess
    · exact hignore
  refine ⟨?_, ?_, hrest.ended, ?_⟩
  · rw [freezeReplies, List.forall_mem_cons]
    refine ⟨fun hsuccess => ?_, hrest.named⟩
    rcases hfirst with ⟨-, -, -, hname⟩ | ⟨hfailure, -⟩
    · exact hname
    · exact absurd (hsuccess.symm.trans hfailure) (by decide)
  · rw [freezeReplies, List.pairwise_cons]
    refine ⟨fun r hr hfailure _ => ?_, hrest.stays⟩
    rcases hsettled.replies hr with ⟨-, -, hnot⟩ | ⟨hfailure', -⟩
    · rw [hignored hfailure] at hnot
      cases hnot
    · exact hfailure'
  · rw [freezeReplies]
    rintro ⟨r, hr, hfailure, hnone⟩ final
    rcases List.mem_cons.mp hr with rfl | hr
    · refine nrTxnEndMetrics_of_ignore ?_ final.app duration totalTime
      have hfinal : final.txn = (s.exec .freeze).txn := hsettled.run calls
      rw [hfinal]
      exact hignored hfailure
    · exact hrest.stopped ⟨r, hr, hfailure, hnone⟩

/-- A transaction is reported only under a name, if and only if the application is not lost before
the first of the freezes that come before the end. -/
theorem reportedUnderName_iff (txn : EndTxn) (hbegun : txn.Begun) (app : NamingApp)
    (calls : List EndCall) (duration totalTime : UInt64) :
    ReportedUnderName { txn, app := some app } calls duration totalTime ↔
      invalidBeforeFreeze calls = false := by
  cases calls with
  | nil => exact iff_of_true (reportedUnderName_of_notMem hbegun List.not_mem_nil _ _) rfl
  | cons call calls =>
      cases call with
      | freeze => exact iff_of_true (reportedUnderName_of_app hbegun app calls _ _) rfl
      | invalidate =>
          rw [invalidBeforeFreeze, decide_eq_false_iff_not]
          constructor
          · intro h hmem
            have hlost : Nameless (EndRun.exec { txn, app := some app } .invalidate) :=
              ⟨hbegun.complete, hbegun.ignore, hbegun.name, rfl⟩
            obtain ⟨hnameless, hfrozen⟩ := hlost.run (.inr hmem)
            obtain ⟨adds, hadds, hname⟩ := hnameless.ended hfrozen duration totalTime
            exact h.ended adds hadds hname
          · intro hmem
            refine reportedUnderName_of_notMem hbegun (fun h => hmem ?_) duration totalTime
            exact (List.mem_cons.mp h).resolve_left nofun

/-- An application that keeps names as they are. -/
def plainApp : NamingApp where
  urlRules := none
  txnRules := none
  segmentTerms := fun _ => none

/-- The first freeze fails and leaves no name; the second one succeeds, and so does the one at the
end, so that metrics of the duration are created for a transaction without a name. -/
theorem reported_without_name :
    let s : EndRun := { txn := hourTxn none false, app := some plainApp }
    let calls : List EndCall := [.invalidate, .freeze, .freeze]
    (freezeReplies s calls).map (fun r => (r.status, r.name)) =
        [(.failure, none), (.success, none)] ∧
      (nrTxnEndMetrics (runFrom EndRun.exec s calls).txn none 5 5).2.isSome = true ∧
      ¬ ReportedUnderName s calls 5 5 := by
  refine ⟨rfl, rfl, fun h => ?_⟩
  exact h.named ⟨.success, none⟩ (List.mem_cons_of_mem _ List.mem_cons_self) rfl rfl

theorem reportedUnderName_of_freeze_first :
    ReportedUnderName { txn := hourTxn none false, app := some plainApp }
      [.freeze, .invalidate, .freeze] 5 5 :=
  (reportedUnderName_iff (hourTxn none false) ⟨rfl, rfl, rfl, rfl⟩ plainApp
    [.freeze, .invalidate, .freeze] 5 5).mpr rfl

end AxiomDaemon.Axiom

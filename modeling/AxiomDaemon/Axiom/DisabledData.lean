import AxiomDaemon.Axiom.TxnData
import AxiomDaemon.Lib.Transition
import AxiomDaemon.Util.MinmaxHeapOrder

/-!
What a transaction sends against what its options have turned off.

Every kind of data has a switch among the options. The switch of a kind is
honoured if the message has nothing of that kind whenever the switch is off. All
of them are, but for that of the trace, which nothing on the way of a trace asks
for.
-/

namespace AxiomDaemon.Axiom

open AxiomDaemon.Lib AxiomDaemon.Util

/-! ### The switches -/

/-- The kinds of data that can be turned off. -/
inductive DataKind
  | trace
  | error
  | txnEvent
  | errorEvent
  | customEvent
  | spanEvents
  | slowSqls

/-- The switch of a kind of data. -/
def Nrtxnopt.records (options : Nrtxnopt) : DataKind → Bool
  | .trace => options.ttEnabled
  | .error => options.errEnabled
  | .txnEvent => options.analyticsEventsEnabled
  | .errorEvent => options.errorEventsEnabled
  | .customEvent => options.customEventsEnabled
  | .spanEvents => options.spanEventsEnabled
  | .slowSqls => options.ttSlowsql

/-- The message has data of a kind. -/
def DataTxn.TxnMessage.Has (message : DataTxn.TxnMessage) : DataKind → Prop
  | .trace => message.trace ≠ none
  | .error => message.errors ≠ []
  | .txnEvent => message.txnEvent ≠ none
  | .errorEvent => message.errorEvents ≠ []
  | .customEvent => message.customEvents ≠ []
  | .spanEvents => message.spanEvents ≠ []
  | .slowSqls => message.slowSqls ≠ []

/-- The second options record nothing that the first do not. -/
def Nrtxnopt.Restricts (o o' : Nrtxnopt) : Prop :=
  ∀ kind, o'.records kind = true → o.records kind = true

theorem Nrtxnopt.Restricts.trans {o₁ o₂ o₃ : Nrtxnopt} (h : o₁.Restricts o₂)
    (h' : o₂.Restricts o₃) : o₁.Restricts o₃ := fun kind hkind => h kind (h' kind hkind)

theorem Nrtxnopt.restricts_of_eq {o o' : Nrtxnopt} (h : o'.records = o.records) :
    o.Restricts o' := fun _ hkind => h ▸ hkind

theorem Nrtxnopt.restricts_ite {o o' : Nrtxnopt} {p : Prop} [Decidable p] (h : o.Restricts o') :
    o.Restricts (if p then o' else o) := by
  split_ifs
  · exact h
  · exact fun _ hkind => hkind

theorem restricts_enforced (opts : Nrtxnopt) (connectReply secPolicies : Option NrObj) :
    opts.Restricts (nrTxnEnforceSecuritySettings opts connectReply secPolicies) := by
  unfold nrTxnEnforceSecuritySettings
  extract_lets o₁ o₂ o₃ o₄ o₅ o₆ o₇ o₈
  have h₁ : opts.Restricts o₁ := Nrtxnopt.restricts_of_eq (by funext kind; cases kind <;> rfl)
  have h₂ : o₁.Restricts o₂ :=
    Nrtxnopt.restricts_ite (Nrtxnopt.restricts_of_eq (by funext kind; cases kind <;> rfl))
  have h₃ : o₂.Restricts o₃ := by
    refine Nrtxnopt.restricts_ite fun kind hkind => ?_
    cases kind <;> first | exact hkind | cases hkind
  have h₄ : o₃.Restricts o₄ :=
    Nrtxnopt.restricts_ite (Nrtxnopt.restricts_of_eq (by funext kind; cases kind <;> rfl))
  have h₅ : o₄.Restricts o₅ := by
    refine Nrtxnopt.restricts_ite fun kind hkind => ?_
    cases kind <;> first | exact hkind | cases hkind
  have h₆ : o₅.Restricts o₆ := by
    refine Nrtxnopt.restricts_ite fun kind hkind => ?_
    cases kind <;> first | exact hkind | cases hkind
  have h₇ : o₆.Restricts o₇ := by
    refine Nrtxnopt.restricts_ite fun kind hkind => ?_
    cases kind <;> first | exact hkind | cases hkind
  have h₈ : o₇.Restricts o₈ := by
    refine Nrtxnopt.restricts_ite fun kind hkind => ?_
    cases kind <;> first | exact hkind | cases hkind
  refine ((((((((h₁.trans h₂).trans h₃).trans h₄).trans h₅).trans h₆).trans h₇).trans h₈).trans ?_)
  refine Nrtxnopt.restricts_ite fun kind hkind => ?_
  cases kind <;> first | exact hkind | cases hkind

/-- A new transaction records nothing that the local options have turned off. -/
theorem restricts_beginOptions (app : SecuredApp) (opts : Nrtxnopt) :
    opts.Restricts (beginOptions app opts) := by
  unfold beginOptions
  extract_lets o₁ o₂ o₃ o₄
  have h₁ : opts.Restricts o₁ := Nrtxnopt.restricts_of_eq (by funext kind; cases kind <;> rfl)
  have h₂ : o₁.Restricts o₂ :=
    Nrtxnopt.restricts_ite (Nrtxnopt.restricts_of_eq (by funext kind; cases kind <;> rfl))
  have h₃ : o₂.Restricts o₃ := by
    intro kind hkind
    cases kind <;> first | exact hkind | exact (Bool.and_eq_true_iff.mp hkind).1
  have h₄ : o₃.Restricts o₄ := restricts_enforced o₃ app.connectReply app.securityPolicies
  refine ((h₁.trans h₂).trans h₃).trans (h₄.trans (Nrtxnopt.restricts_ite ?_))
  exact Nrtxnopt.restricts_of_eq (by funext kind; cases kind <;> rfl)

/-- A new transaction has span events only where the application has room for some. -/
theorem beginOptions_spanEvents {app : SecuredApp} {opts : Nrtxnopt}
    (h : (beginOptions app opts).spanEventsEnabled = true) : app.limits.spanEvents ≠ 0 := by
  unfold beginOptions at h
  extract_lets o₁ o₂ o₃ o₄ at h
  have hsecured : o₄.spanEventsEnabled = true := by
    split at h <;> exact h
  have hlimited : o₃.spanEventsEnabled = true :=
    restricts_enforced o₃ app.connectReply app.securityPolicies .spanEvents hsecured
  exact of_decide_eq_true (Bool.and_eq_true_iff.mp hlimited).2

/-! ### The sample of the trace -/

theorem nrMinmaxHeapInsert_bounded {α : Type*} (comparator : α → α → ℤ) {k : ℕ} (hk : 0 < k)
    {heap : NrMinmaxHeap α} (hbound : heap.bound = k) (hused : heap.used ≤ k) (value : α) :
    (nrMinmaxHeapInsert comparator heap value).bound = k ∧
      (nrMinmaxHeapInsert comparator heap value).used ≤ k := by
  have hpush : ∀ heap : NrMinmaxHeap α,
      (NrMinmaxHeap.push comparator heap value).bound = heap.bound ∧
        (NrMinmaxHeap.push comparator heap value).used = heap.used + 1 := fun heap =>
    ⟨NrMinmaxHeap.bound_push heap value, (NrMinmaxHeap.perm_push comparator heap value).length_eq⟩
  rw [nrMinmaxHeapInsert]
  split_ifs with hfull
  · split
    · exact ⟨hbound, hused⟩
    · next least hleast =>
        split_ifs
        · exact ⟨hbound, hused⟩
        · have hpop := (perm_popMin comparator hleast).length_eq
          rw [List.length_cons] at hpop
          obtain ⟨hbound', hused'⟩ := hpush (nrMinmaxHeapPopMin comparator heap)
          refine ⟨hbound'.trans ((bound_popMin heap).trans hbound), ?_⟩
          show (NrMinmaxHeap.push comparator (nrMinmaxHeapPopMin comparator heap) value).used ≤ k
          rw [hused', NrMinmaxHeap.used, ← hpop]
          exact hused
  · obtain ⟨hbound', hused'⟩ := hpush heap
    refine ⟨hbound'.trans hbound, ?_⟩
    show (NrMinmaxHeap.push comparator heap value).used ≤ k
    omega

theorem adjustMainContext_traceHeap (m : TreeToHeapMetadata) (segment : NrSegment) :
    (m.adjustMainContext segment).traceHeap = m.traceHeap := by
  unfold TreeToHeapMetadata.adjustMainContext
  split <;> rfl

/-- The heap of the trace has a bound, and keeps to it. -/
def TraceBounded (m : TreeToHeapMetadata) : Prop :=
  ∀ heap ∈ m.traceHeap, heap.bound = nrMaxSegments ∧ heap.used ≤ nrMaxSegments

theorem traceBounded_callback (parent : Option NrSegment) (segment : NrSegment) (n : ℕ)
    (m : TreeToHeapMetadata) (hm : TraceBounded m) :
    TraceBounded (nrSegmentStohIteratorCallback parent segment n m).1 := by
  intro heap hheap
  -- what comes before the segment is put into the heap leaves the heap alone
  have hbefore : (((m.setUp segment n).adjustParent segment parent).adjustMainContext
      segment).traceHeap = m.traceHeap := by
    cases parent with
    | none => exact adjustMainContext_traceHeap _ segment
    | some parent =>
        rw [adjustMainContext_traceHeap, TreeToHeapMetadata.adjustParent]
        split <;> rfl
  have hinsert : heap ∈ m.traceHeap.map fun heap =>
      nrMinmaxHeapInsert nrSegmentDurationComparator heap segment := hbefore ▸ hheap
  obtain ⟨old, hold, rfl⟩ := Option.mem_map.mp hinsert
  obtain ⟨hbound, hused⟩ := hm old hold
  exact nrMinmaxHeapInsert_bounded _ (by decide) hbound hused segment

theorem traceBounded_firstPass (txn : NrTxn) (root : OrderedTree NrSegment) (spanLimit : ℕ) :
    TraceBounded (firstPass txn root nrMaxSegments spanLimit) := by
  have hstart : TraceBounded (firstPassStart txn nrMaxSegments spanLimit) := by
    intro heap hheap
    simp only [firstPassStart] at hheap
    split at hheap
    · obtain rfl : heap = { bound := nrMaxSegments, elements := [] } := by
        exact (Option.some.inj hheap).symm
      exact ⟨rfl, Nat.zero_le _⟩
    · cases hheap
  have hleave : ∀ segment m, TraceBounded m →
      TraceBounded (nrSegmentStohPostIteratorCallback segment m) := fun segment m hm => hm
  exact Forest.walk_invariant traceBounded_callback hleave root.toForest none hstart

/-! ### The second pass -/

section SecondPass

variable (txn : NrTxn) (guid : ℕ → Bytes) (absStartTime : ℕ)

/-- The segment does not stop before it starts. -/
def NrSegment.WellTimed (segment : NrSegment) : Prop := segment.startTime ≤ segment.stopTime

instance (segment : NrSegment) : Decidable segment.WellTimed :=
  inferInstanceAs (Decidable (segment.startTime ≤ segment.stopTime))

theorem stotIteratorCallback_success (parent : Option NrSegment) (segment : NrSegment) (n : ℕ)
    (u : NrSegmentUserdata) :
    (nrSegmentTracesStotIteratorCallback txn guid absStartTime parent segment n u).1.success =
      (u.success && decide segment.WellTimed) := by
  simp only [nrSegmentTracesStotIteratorCallback, NrSegment.WellTimed]
  split_ifs with heq hgt
  · simp [heq]
  · simp [Nat.not_le_of_gt hgt]
  · cases u.trace <;> simp [Nat.le_of_not_lt hgt]

theorem walk_success (f : Forest NrSegment) (parent : Option NrSegment) (u : NrSegmentUserdata) :
    (f.walk (nrSegmentTracesStotIteratorCallback txn guid absStartTime)
      nrSegmentTracesStotIteratorPostCallback parent u).success =
      (u.success && decide (∀ s ∈ f.labels, s.WellTimed)) := by
  induction f generalizing parent u with
  | nil => simp [Forest.walk]
  | node a children rest ihc ihr =>
      have hleave : ∀ (b : Bool) (u : NrSegmentUserdata),
          (if b then nrSegmentTracesStotIteratorPostCallback a u else u).success = u.success := by
        intro b u
        cases b <;> rfl
      rw [Forest.walk, ihr, hleave, ihc, stotIteratorCallback_success]
      simp [Bool.and_assoc, or_imp, forall_and]

/-- The pass makes a trace if it is given a buffer, and spans if it is to. -/
def Makes (trace spans : Bool) (u : NrSegmentUserdata) : Prop :=
  u.trace.isSome = trace ∧ u.spans.isSome = spans

theorem makes_callback {trace spans : Bool} (parent : Option NrSegment) (segment : NrSegment)
    (n : ℕ) (u : NrSegmentUserdata) (h : Makes trace spans u) :
    Makes trace spans
      (nrSegmentTracesStotIteratorCallback txn guid absStartTime parent segment n u).1 := by
  obtain ⟨htrace, hspans⟩ := h
  simp only [nrSegmentTracesStotIteratorCallback]
  split_ifs
  · exact ⟨htrace, hspans⟩
  · exact ⟨htrace, hspans⟩
  · cases hu : u.trace with
    | none =>
        rw [hu] at htrace
        exact ⟨htrace, by simpa using hspans⟩
    | some t =>
        rw [hu] at htrace
        exact ⟨htrace, by simpa using hspans⟩

theorem makes_postCallback {trace spans : Bool} (segment : NrSegment) (u : NrSegmentUserdata)
    (h : Makes trace spans u) :
    Makes trace spans (nrSegmentTracesStotIteratorPostCallback segment u) :=
  ⟨by simpa [nrSegmentTracesStotIteratorPostCallback] using h.1,
    by simpa [nrSegmentTracesStotIteratorPostCallback] using h.2⟩

theorem makes_printSegments (buf : Option Bytes) (createSpans : Bool)
    (traceSet spanSet : Option (List ℕ)) (root : OrderedTree NrSegment) (segmentNames : NrPool) :
    Makes buf.isSome createSpans (nrSegmentTracesJsonPrintSegments txn guid absStartTime buf
      createSpans traceSet spanSet root segmentNames) := by
  apply Forest.walk_invariant (makes_callback txn guid absStartTime) makes_postCallback _ none
  refine ⟨by simp, ?_⟩
  cases createSpans <;> rfl

end SecondPass

/-! ### Finalising -/

section Finalise

variable {txn : NrTxn} {root : OrderedTree NrSegment} (guid : ℕ → Bytes) (absStartTime : ℕ)
  (attributes : TraceAttributes) (spanLimit : ℕ)

/-- The sample of the trace is not too large for the second pass. -/
theorem traceSet_length_le (txn : NrTxn) (root : OrderedTree NrSegment) (spanLimit : ℕ) :
    (nrSegmentHeapToSet (firstPass txn root nrMaxSegments spanLimit).traceHeap).length ≤
      nrMaxSegments := by
  have hbounded := traceBounded_firstPass txn root spanLimit
  cases hheap : (firstPass txn root nrMaxSegments spanLimit).traceHeap with
  | none => exact Nat.zero_le _
  | some heap =>
      rw [nrSegmentHeapToSet, List.length_map]
      exact (hbounded heap hheap).2

theorem createData_traceJson_isSome (duration : ℕ) {traceSet : Option (List ℕ)}
    (hset : ∀ set ∈ traceSet, set.length ≤ nrMaxSegments) (spanSet : Option (List ℕ))
    (createTrace createSpans : Bool) :
    (nrSegmentTracesCreateData txn guid absStartTime root duration traceSet spanSet attributes
      createTrace createSpans).traceJson.isSome = true ↔
      createTrace = true ∧ txn.segmentCount ≠ 0 ∧ duration ≠ 0 ∧
        ∀ s ∈ root.labels, s.WellTimed := by
  have hsmall : (traceSet.any fun set => decide (nrMaxSegments < set.length)) = false := by
    cases traceSet with
    | none => rfl
    | some set => simpa using hset set rfl
  set u := nrSegmentTracesJsonPrintSegments txn guid absStartTime
    (if createTrace then some (traceHead duration) else none) createSpans traceSet spanSet root []
    with hu
  have hmakes : u.trace.isSome = createTrace := by
    rw [hu, (makes_printSegments txn guid absStartTime _ createSpans traceSet spanSet root []).1]
    cases createTrace <;> rfl
  have hsuccess : u.success = decide (∀ s ∈ root.labels, s.WellTimed) := by
    rw [hu, nrSegmentTracesJsonPrintSegments, nrSegmentIterate, walk_success]
    rfl
  simp only [nrSegmentTracesCreateData, hsmall, Bool.false_eq_true, or_false, ← hu]
  split
  · next hnone =>
      constructor
      · intro h
        cases h
      · rintro ⟨-, hcount, hduration, -⟩
        exact absurd hnone (not_or.mpr ⟨hcount, hduration⟩)
  · next hsome =>
      obtain ⟨hcount, hduration⟩ := not_or.mp hsome
      split
      · next hfail =>
          constructor
          · intro h
            cases h
          · rintro ⟨htrace, -, -, htimed⟩
            rw [hsuccess, htrace, decide_eq_true htimed] at hfail
            cases hfail
      · next hok =>
          have htimed : ∀ s ∈ root.labels, s.WellTimed := by
            by_contra hnot
            rw [hsuccess, decide_eq_false hnot] at hok
            exact hok rfl
          rw [Option.isSome_map, hmakes]
          exact ⟨fun h => ⟨h, hcount, hduration, htimed⟩, And.left⟩

theorem createData_spanEvents (duration : ℕ) (traceSet spanSet : Option (List ℕ))
    (createTrace : Bool) :
    (nrSegmentTracesCreateData txn guid absStartTime root duration traceSet spanSet attributes
      createTrace false).spanEvents = none := by
  set u := nrSegmentTracesJsonPrintSegments txn guid absStartTime
    (if createTrace then some (traceHead duration) else none) false traceSet spanSet root []
    with hu
  have hspans : u.spans = none := by
    have hmakes := (makes_printSegments txn guid absStartTime
      (if createTrace then some (traceHead duration) else none) false traceSet spanSet root []).2
    rwa [← hu, Option.isSome_eq_false_iff, Option.isNone_iff_eq_none] at hmakes
  simp only [nrSegmentTracesCreateData, ← hu]
  split
  · rfl
  · split
    · rfl
    · rw [hspans]
      rfl

theorem finalise_traceJson_isSome (hroot : txn.segmentRoot = some root) :
    (nrSegmentTreeFinalise txn guid absStartTime attributes nrMaxSegments
      spanLimit).2.traceJson.isSome = true ↔
      nrTxnShouldSaveTrace txn (nrTxnDuration txn) = true ∧ nrTxnDuration txn ≠ 0 ∧
        ∀ s ∈ root.labels, s.WellTimed := by
  have hcount : nrTxnShouldSaveTrace txn (nrTxnDuration txn) = true → txn.segmentCount ≠ 0 := by
    intro hsave hzero
    rw [nrTxnShouldSaveTrace, hzero] at hsave
    cases hsave
  have hset : ∀ set ∈ (if decide (txn.segmentCount > nrMaxSegments) then
      some (nrSegmentHeapToSet (firstPass txn root nrMaxSegments spanLimit).traceHeap) else none),
      set.length ≤ nrMaxSegments := by
    intro set hset
    split at hset
    · obtain rfl := Option.some.inj hset
      exact traceSet_length_le txn root spanLimit
    · cases hset
  have hlimit : decide (nrMaxSegments > 0) = true := rfl
  rw [nrSegmentTreeFinalise, hroot]
  simp only [hlimit, Bool.true_and]
  split
  · rw [createData_traceJson_isSome guid absStartTime attributes _ hset]
    tauto
  · next hneither =>
      constructor
      · intro h
        cases h
      · rintro ⟨hsave, -⟩
        rw [hsave] at hneither
        exact absurd (Bool.true_or _) hneither

theorem finalise_spanEvents (h : txn.spanEventsEnabled = false) :
    (nrSegmentTreeFinalise txn guid absStartTime attributes nrMaxSegments
      spanLimit).2.spanEvents = none := by
  have hspans : (decide (spanLimit > 0) && nrTxnShouldCreateSpanEvents txn) = false := by
    rw [nrTxnShouldCreateSpanEvents, h, Bool.and_false, Bool.and_false]
  rw [nrSegmentTreeFinalise]
  split
  · rfl
  · simp only [hspans]
    split
    · exact createData_spanEvents guid absStartTime attributes _ _ _ _
    · rfl

end Finalise

/-! ### A running transaction -/

/-- The flags of a transaction that is neither ended nor ignored. -/
def SegmentTxn.Open (txn : SegmentTxn) : Prop := txn.complete = false ∧ txn.ignore = false

theorem SegmentTxn.Frame.open {txn txn' : SegmentTxn} (hframe : txn.Frame txn') (h : txn.Open) :
    txn'.Open :=
  ⟨hframe.complete.trans h.1, hframe.ignore.trans h.2⟩

section Open

variable {txn : SegmentTxn} (h : txn.Open)

include h

theorem SegmentTxn.Open.start (parent asyncContext : Option ℕ) (now : ℕ) :
    (nrSegmentStart txn parent asyncContext now).2.Open := by
  cases hrecording : txn.recording with
  | false =>
      rw [nrSegmentStart_of_not_recording hrecording]
      exact h
  | true =>
      rw [nrSegmentStart_of_recording hrecording]
      exact (nrSegmentInit_frame { txn with used := txn.used + 1 } _ _ _ _).open h

theorem SegmentTxn.Open.externalEnd (segment : ℕ) (params : ExternalParams) (now : ℕ) :
    (nrSegmentExternalEnd txn segment params now).2.Open := by
  have hended : (externalEnded txn segment params now).Open :=
    (ended_externalEnded txn segment params now).frame.open h
  simp only [nrSegmentExternalEnd]
  split
  · rcases nrSegmentExternalRollup_cases (externalEnded txn segment params now) segment with
      hsame | ⟨p, txn', hrollup, -, hretains, -⟩
    · rw [hsame]
      exact hended
    · rw [hrollup]
      exact hretains.frame.open hended
  · exact hended

theorem SegmentTxn.Open.setParent (segment parent : ℕ) :
    (nrSegmentSetParent txn segment parent).2.Open := by
  simp only [nrSegmentSetParent]
  split
  · exact h
  · split
    · exact h
    · split <;> exact h

theorem SegmentTxn.Open.discard (segment : ℕ) : (nrSegmentDiscard txn segment).2.Open := by
  cases hparent : txn.links.parent segment with
  | none =>
      rw [nrSegmentDiscard_of_root hparent]
      exact h
  | some p => exact (nrSegmentDiscard_of_parent hparent).2.1.frame.open h

end Open

namespace DataTxn

/-- What holds in every state of a run: the options are those of the beginning, and
what their switches have turned off was not recorded. -/
structure Gated (options : Nrtxnopt) (txn : DataTxn) : Prop where
  options_eq : txn.options = options
  running : txn.segments.Open
  error : options.errEnabled = false → txn.error = none
  customEvents : options.customEventsEnabled = false →
    (txn.customEvents.map NrAnalyticsEvents.events).getD [] = []
  slowsqls : options.ttSlowsql = false → (txn.slowsqls.map NrSlowsqls.slowsqls).getD [] = []
  finalData : txn.finalData = { traceJson := none, spanEvents := none }

theorem gated_begin (b : TxnBegin) : Gated (nrTxnBegin b).options (nrTxnBegin b) where
  options_eq := rfl
  running :=
    have hempty : (emptyTxn b.absStartTime).Open := ⟨rfl, rfl⟩
    hempty.start none none b.now
  error := fun _ => rfl
  customEvents := by
    intro _
    simp only [nrTxnBegin, nrAnalyticsEventsCreate]
    split_ifs <;> rfl
  slowsqls := fun _ => rfl
  finalData := rfl

section Steps

variable {options : Nrtxnopt} {txn : DataTxn} (h : Gated options txn)

include h

theorem Gated.segments {segments : SegmentTxn} (hopen : segments.Open)
    (types : ℕ → NrSegmentType) (traceStrings : NrPool) :
    Gated options { txn with segments, types, traceStrings } :=
  ⟨h.options_eq, hopen, h.error, h.customEvents, h.slowsqls, h.finalData⟩

theorem Gated.datastoreEnd (calls : DatastoreCalls) (segment : ℕ)
    (params : SegmentDatastoreParams) (now : ℕ) :
    Gated options (txn.nrSegmentDatastoreEnd calls segment params now) := by
  unfold nrSegmentDatastoreEnd
  split
  · exact h
  · refine ⟨h.options_eq, (nrSegmentEnd_frame txn.segments segment now).open h.running, h.error,
      h.customEvents, fun hoff => ?_, h.finalData⟩
    have hnot : ∀ duration, nrSegmentPotentialSlowsql txn.datastoreTxn duration = false := by
      intro duration
      have hslow : txn.datastoreTxn.options.ttSlowsql = false := by
        rw [← h.options_eq] at hoff
        exact hoff
      rw [nrSegmentPotentialSlowsql, if_pos (Or.inr hslow)]
    simp only [endWithProduct, hnot, Bool.and_false, Bool.false_eq_true, if_false]
    exact h.slowsqls hoff

theorem Gated.recordError (priority : ℤ) (errmsg errclass stacktraceJson : Option Bytes)
    (now : ℕ) :
    Gated options (txn.nrTxnRecordError priority errmsg errclass stacktraceJson now) := by
  unfold nrTxnRecordError
  split
  · split
    · exact h
    · next hrecords =>
        split
        · exact h
        · refine ⟨h.options_eq, h.running, fun hoff => ?_, h.customEvents, h.slowsqls,
            h.finalData⟩
          rw [← h.options_eq] at hoff
          exact absurd (Or.inl hoff) hrecords
  · exact h

theorem Gated.recordCustomEvent (type event : Option Bytes) (range : ℕ → ℤ) :
    Gated options (txn.nrTxnRecordCustomEventInternal type event range) := by
  unfold nrTxnRecordCustomEventInternal
  split_ifs with hrecording hsecurity hevents
  · exact h
  · exact h
  · exact h
  · refine ⟨h.options_eq, h.running, h.error, fun hoff => ?_, h.slowsqls, h.finalData⟩
    rw [← h.options_eq] at hoff
    exact absurd hoff hevents

theorem Gated.exec (calls : DatastoreCalls) (call : DataCall) :
    Gated options (txn.exec calls call) := by
  cases call with
  | start parent asyncContext now =>
      simp only [DataTxn.exec, nrSegmentStart]
      split
      · exact h
      · cases asyncContext with
        | none => exact h.segments (h.running.start parent none now) _ _
        | some context => exact h.segments (h.running.start parent (some _) now) _ _
  | finish segment now =>
      exact h.segments ((nrSegmentEnd_frame txn.segments segment now).open h.running) _ _
  | finishExternal segment attributes metric doRollup now =>
      exact h.segments (h.running.externalEnd segment _ now) _ _
  | finishDatastore segment params now => exact h.datastoreEnd calls segment params now
  | setTiming segment start duration =>
      have hopen : (nrSegmentSetTiming txn.segments segment start duration).Open := h.running
      exact h.segments hopen _ _
  | setName segment name =>
      have hopen : (Axiom.nrSegmentSetName txn.segments segment
          (nrStringAdd txn.traceStrings name).2).Open := h.running
      exact h.segments hopen _ _
  | setParent segment parent => exact h.segments (h.running.setParent segment parent) _ _
  | discard segment => exact h.segments (h.running.discard segment) _ _
  | recordError priority errmsg errclass stacktraceJson now =>
      exact h.recordError priority errmsg errclass stacktraceJson now
  | recordCustomEvent type event range => exact h.recordCustomEvent type event range

end Steps

theorem gated_of_run (b : TxnBegin) (calls : DatastoreCalls) (run : List DataCall) :
    Gated (nrTxnBegin b).options (runFrom (exec calls) (nrTxnBegin b) run) := by
  have hstep : ∀ txn call, Gated (nrTxnBegin b).options txn → True →
      Gated (nrTxnBegin b).options (txn.exec calls call) := fun _ call h _ => h.exec calls call
  exact (throughout_of_along hstep (gated_begin b) (along_true _ run)).last

theorem appLimits_exec (calls : DatastoreCalls) (txn : DataTxn) (call : DataCall) :
    (txn.exec calls call).appLimits = txn.appLimits := by
  cases call with
  | start parent asyncContext now =>
      simp only [DataTxn.exec, nrSegmentStart]
      split
      · rfl
      · split <;> rfl
  | finishDatastore segment params now =>
      simp only [DataTxn.exec, nrSegmentDatastoreEnd]
      split <;> rfl
  | recordError priority errmsg errclass stacktraceJson now =>
      simp only [DataTxn.exec, nrTxnRecordError]
      split
      · split_ifs <;> rfl
      · rfl
  | recordCustomEvent type event range =>
      simp only [DataTxn.exec, nrTxnRecordCustomEventInternal]
      split_ifs <;> rfl
  | _ => rfl

theorem appLimits_of_run (b : TxnBegin) (calls : DatastoreCalls) (run : List DataCall) :
    (runFrom (exec calls) (nrTxnBegin b) run).appLimits = b.app.limits := by
  have hstep : ∀ (txn : DataTxn) call, txn.appLimits = b.app.limits → True →
      (txn.exec calls call).appLimits = b.app.limits := fun txn call h _ =>
    (appLimits_exec calls txn call).trans h
  exact (throughout_of_along hstep rfl (along_true _ run)).last

/-! ### The end -/

/-- The end of the transaction makes a trace: the name is frozen, the duration is
that of a trace, and no segment stops before it starts. -/
def SavesTrace (txn : DataTxn) (e : TxnEnd) : Prop :=
  ∃ f ∈ e.frozen,
    nrTxnShouldSaveTrace ((txn.named f e.now).nrTxn e)
      (nrTxnDuration ((txn.named f e.now).nrTxn e)) = true ∧
    nrTxnDuration ((txn.named f e.now).nrTxn e) ≠ 0 ∧
    ∀ s ∈ ((txn.named f e.now).tree e.details).labels, s.WellTimed

section End

variable {options : Nrtxnopt} {txn : DataTxn} (h : Gated options txn) (e : TxnEnd)

include h

/-- The end changes neither the switches nor what they are about, but for the final
data. -/
theorem Gated.end :
    (txn.nrTxnEnd e).options.records = options.records ∧
      (txn.nrTxnEnd e).error = txn.error ∧
      (txn.nrTxnEnd e).customEvents = txn.customEvents ∧
      (txn.nrTxnEnd e).slowsqls = txn.slowsqls := by
  have hrecords : txn.options.records = options.records := by
    rw [h.options_eq]
  unfold nrTxnEnd
  split
  · exact ⟨hrecords, rfl, rfl, rfl⟩
  · split
    · exact ⟨hrecords, rfl, rfl, rfl⟩
    · refine ⟨?_, rfl, rfl, rfl⟩
      rw [← hrecords]
      funext kind
      cases kind <;> rfl

theorem Gated.end_trace :
    (txn.nrTxnEnd e).finalData.traceJson.isSome = true ↔ txn.SavesTrace e := by
  obtain ⟨hcomplete, hignore⟩ := h.running
  rw [nrTxnEnd, hcomplete, hignore]
  simp only [Bool.or_self, Bool.false_eq_true, if_false]
  cases hfrozen : e.frozen with
  | none =>
      simp only [h.finalData, SavesTrace, hfrozen]
      simp
  | some f =>
      simp only [SavesTrace, hfrozen, Option.mem_def, Option.some.injEq, exists_eq_left']
      exact finalise_traceJson_isSome _ _ _ _ rfl

theorem Gated.end_spanEvents (hoff : options.spanEventsEnabled = false) :
    (txn.nrTxnEnd e).finalData.spanEvents = none := by
  unfold nrTxnEnd
  split
  · rw [h.finalData]
  · split
    · rw [h.finalData]
    · refine finalise_spanEvents _ _ _ _ ?_
      rw [← h.options_eq] at hoff
      exact hoff

omit h in
theorem appLimits_end : (txn.nrTxnEnd e).appLimits = txn.appLimits := by
  unfold nrTxnEnd
  split
  · rfl
  · split <;> rfl

theorem Gated.not_has (texts : MessageTexts) {kind : DataKind} (hkind : kind ≠ .trace)
    (hoff : options.records kind = false) :
    ¬ ((txn.nrTxnEnd e).nrTxndataEncode texts).Has kind := by
  obtain ⟨hrecords, herror, hcustomEvents, hslowsqls⟩ := h.end e
  have hrecords' : (txn.nrTxnEnd e).options.records kind = false := by
    rw [hrecords, hoff]
  cases kind with
  | trace => exact absurd rfl hkind
  | error => simp [TxnMessage.Has, nrTxndataEncode, herror, h.error hoff]
  | txnEvent =>
      have hswitch : (txn.nrTxnEnd e).options.analyticsEventsEnabled = false := hrecords'
      simp [TxnMessage.Has, nrTxndataEncode, nrTxnToEvent, hswitch]
  | errorEvent =>
      have hswitch : (txn.nrTxnEnd e).options.errorEventsEnabled = false := hrecords'
      simp [TxnMessage.Has, nrTxndataEncode, nrErrorToEvent, hswitch]
  | customEvent => simp [TxnMessage.Has, nrTxndataEncode, hcustomEvents, h.customEvents hoff]
  | spanEvents => simp [TxnMessage.Has, nrTxndataEncode, h.end_spanEvents e hoff]
  | slowSqls => simp [TxnMessage.Has, nrTxndataEncode, hslowsqls, h.slowsqls hoff]

theorem Gated.has_trace_iff (texts : MessageTexts) :
    ((txn.nrTxnEnd e).nrTxndataEncode texts).Has .trace ↔ txn.SavesTrace e := by
  rw [← h.end_trace e, Option.isSome_iff_ne_none]
  rfl

end End

end DataTxn

/-- When nothing leaves that the options have turned off. The message of a
transaction has data of a kind that is off if and only if the trace is off and the
end of the transaction makes one all the same. -/
theorem disabled_data_withheld_iff (b : TxnBegin) (calls : DatastoreCalls)
    (texts : DataTxn.MessageTexts) (run : List DataCall) (e : DataTxn.TxnEnd) :
    let txn := runFrom (DataTxn.exec calls) (DataTxn.nrTxnBegin b) run
    (∀ kind, (DataTxn.nrTxnBegin b).options.records kind = false →
      ¬ ((txn.nrTxnEnd e).nrTxndataEncode texts).Has kind) ↔
    ((DataTxn.nrTxnBegin b).options.ttEnabled = true ∨ ¬ txn.SavesTrace e) := by
  intro txn
  have h : DataTxn.Gated (DataTxn.nrTxnBegin b).options txn :=
    DataTxn.gated_of_run b calls run
  constructor
  · intro hwithheld
    by_cases hon : (DataTxn.nrTxnBegin b).options.ttEnabled = true
    · exact Or.inl hon
    · refine Or.inr fun hsaves => ?_
      exact hwithheld .trace (Bool.eq_false_of_not_eq_true hon)
        ((h.has_trace_iff e texts).mpr hsaves)
  · intro hcondition kind hoff
    by_cases hkind : kind = .trace
    · subst hkind
      rcases hcondition with hon | hnot
      · rw [show (DataTxn.nrTxnBegin b).options.ttEnabled = false from hoff] at hon
        cases hon
      · exact fun hhas => hnot ((h.has_trace_iff e texts).mp hhas)
    · exact h.not_has e texts hkind hoff

/-- An application of an account that collects no traces. -/
def untracedApp : SecuredApp :=
  { connectReply := some (.hash [(ascii "collect_traces", .boolean false)])
    securityPolicies := none
    securityPoliciesToken := none
    highSecurity := false
    limits := { analyticsEvents := 1, customEvents := 1, errorEvents := 1, spanEvents := 1 }
    apdexT := 500000 }

/-- A transaction of that application, which runs for three seconds. -/
def slowBegin : TxnBegin :=
  { app := untracedApp
    opts := nrTxnTestOptions
    noSqlParsing := false
    absStartTime := 1
    now := 1 }

def slowEnd : DataTxn.TxnEnd :=
  { frozen :=
      some { name := ascii "OtherTransaction/Custom/a", apdexT := 500000, ttThreshold := 2000000 }
    now := 3000001
    details := fun _ => { id := none, userAttributes := none, priority := 0 }
    isSynthetics := false
    sampled := false
    guid := fun _ => []
    attributes := { agentAttributes := none, userAttributes := none, intrinsics := none } }

/-- The texts of a transaction without errors: there is only that of its event. -/
def slowTexts : DataTxn.MessageTexts :=
  { errorEvent := fun _ _ => [], error := fun _ _ => [], txnEvent := fun _ => ascii "[{},{},{}]" }

/-- The trace is off, and sent. -/
theorem trace_sent_when_disabled :
    ¬ ∀ kind, (DataTxn.nrTxnBegin slowBegin).options.records kind = false →
      ¬ (((DataTxn.nrTxnBegin slowBegin).nrTxnEnd slowEnd).nrTxndataEncode slowTexts).Has kind := by
  intro hwithheld
  have h := DataTxn.gated_begin slowBegin
  have hsaves : (DataTxn.nrTxnBegin slowBegin).SavesTrace slowEnd :=
    ⟨_, rfl, by decide, by decide, by decide⟩
  exact hwithheld .trace (by decide) ((h.has_trace_iff slowEnd slowTexts).mpr hsaves)

end AxiomDaemon.Axiom

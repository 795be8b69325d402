import AxiomDaemon.Axiom.TraceJson
import AxiomDaemon.Util.MinmaxHeapOrder
import Mathlib.Data.Prod.Lex

/-!
Which segments the heaps of the first pass hold in the end. The duration
comparator ranks a segment by the difference of its times as unsigned numbers,
the priority comparator by its priority first. The second pass and everything
that is reported take a segment that stops before it starts to last no time,
while its unsigned difference is near the greatest there is.
-/

namespace AxiomDaemon.Axiom

open AxiomDaemon.Lib AxiomDaemon.Util

/-! ### Ranks -/

/-- `stop_time - start_time` of a segment, the way the comparator has it. -/
def unsignedDuration (segment : NrSegment) : ℕ :=
  (segment.stopTime + 2 ^ 64 - segment.startTime) % 2 ^ 64

/-- The duration of a segment as it is reported. -/
def reportedDuration (segment : NrSegment) : ℕ :=
  nrTimeDuration segment.startTime segment.stopTime

theorem durationComparator_le_iff (a b : NrSegment) :
    nrSegmentDurationComparator a b ≤ 0 ↔ unsignedDuration a ≤ unsignedDuration b := by
  simp only [nrSegmentDurationComparator, unsignedDuration]
  split_ifs <;> omega

theorem durationComparator_lt_iff (a b : NrSegment) :
    nrSegmentDurationComparator a b < 0 ↔ unsignedDuration a < unsignedDuration b := by
  simp only [nrSegmentDurationComparator, unsignedDuration]
  split_ifs <;> omega

theorem totalPreorderCmp_duration : TotalPreorderCmp nrSegmentDurationComparator :=
  .of_rank durationComparator_le_iff durationComparator_lt_iff

/-- The priority, and among equals the duration. -/
def spanRank (segment : NrSegment) : ℤ ×ₗ ℕ :=
  toLex (segment.priority, unsignedDuration segment)

theorem priorityComparator_le_iff (a b : NrSegment) :
    nrSegmentSpanPriorityComparator a b ≤ 0 ↔ spanRank a ≤ spanRank b := by
  rw [spanRank, spanRank, Prod.Lex.toLex_le_toLex, nrSegmentSpanPriorityComparator]
  have hduration := durationComparator_le_iff a b
  split_ifs <;> simp only <;> omega

theorem priorityComparator_lt_iff (a b : NrSegment) :
    nrSegmentSpanPriorityComparator a b < 0 ↔ spanRank a < spanRank b := by
  rw [spanRank, spanRank, Prod.Lex.toLex_lt_toLex, nrSegmentSpanPriorityComparator]
  have hduration := durationComparator_lt_iff a b
  split_ifs <;> simp only <;> omega

theorem totalPreorderCmp_priority : TotalPreorderCmp nrSegmentSpanPriorityComparator :=
  .of_rank priorityComparator_le_iff priorityComparator_lt_iff

theorem unsignedDuration_of_le {segment : NrSegment} (htimes : segment.startTime ≤ segment.stopTime)
    (hstop : segment.stopTime < 2 ^ 64) : unsignedDuration segment = reportedDuration segment := by
  rw [unsignedDuration, reportedDuration, nrTimeDuration_eq]
  omega

/-! ### The heaps of the first pass -/

section Heaps

variable {heap : NrMinmaxHeap NrSegment} {bound : ℕ}

theorem nrSegmentHeapCreate_of_two_le (hbound : 2 ≤ bound) :
    nrSegmentHeapCreate bound = some { bound, elements := [] } := by
  rw [nrSegmentHeapCreate, nrMinmaxHeapCreate, if_neg (by omega), Int.toNat_natCast]

theorem heaps_adjust (m : TreeToHeapMetadata) (parent : Option NrSegment)
    (segment : NrSegment) (childrenSize : ℕ) :
    (((m.setUp segment childrenSize).adjustParent segment parent).adjustMainContext
      segment).traceHeap = m.traceHeap ∧
    (((m.setUp segment childrenSize).adjustParent segment parent).adjustMainContext
      segment).spanHeap = m.spanHeap := by
  have hmain : ∀ m' : TreeToHeapMetadata, (m'.adjustMainContext segment).traceHeap = m'.traceHeap ∧
      (m'.adjustMainContext segment).spanHeap = m'.spanHeap := by
    intro m'
    rw [TreeToHeapMetadata.adjustMainContext]
    split
    · exact ⟨rfl, rfl⟩
    · exact ⟨rfl, rfl⟩
  have hparent : ∀ m' : TreeToHeapMetadata,
      (m'.adjustParent segment parent).traceHeap = m'.traceHeap ∧
      (m'.adjustParent segment parent).spanHeap = m'.spanHeap := by
    intro m'
    cases parent with
    | none => exact ⟨rfl, rfl⟩
    | some p =>
        rw [TreeToHeapMetadata.adjustParent]
        split
        · exact ⟨rfl, rfl⟩
        · exact ⟨rfl, rfl⟩
  exact ⟨(hmain _).1.trans (hparent _).1, (hmain _).2.trans (hparent _).2⟩

theorem foldl_map_insert (comparator : NrSegment → NrSegment → ℤ)
    (heap : Option (NrMinmaxHeap NrSegment)) (segments : List NrSegment) :
    segments.foldl (fun heap segment => heap.map fun h => nrMinmaxHeapInsert comparator h segment)
      heap = heap.map fun h => (insertAll comparator h segments).heap := by
  cases heap with
  | none =>
      induction segments with
      | nil => rfl
      | cons segment segments ih => exact ih
  | some h =>
      rw [Option.map_some, heap_insertAll]
      exact List.foldl_hom some fun _ _ => rfl

theorem firstPass_traceHeap (txn : NrTxn) (root : OrderedTree NrSegment)
    (traceLimit spanLimit : ℕ) :
    (firstPass txn root traceLimit spanLimit).traceHeap =
      (firstPassStart txn traceLimit spanLimit).traceHeap.map fun heap =>
        (insertAll nrSegmentDurationComparator heap root.labels).heap := by
  rw [← foldl_map_insert, firstPass, nrSegmentTreeToHeap, nrSegmentIterate]
  apply Forest.walk_foldl
  · intro parent segment n m
    simp only [nrSegmentStohIteratorCallback, TreeToHeapMetadata.insertSpan,
      TreeToHeapMetadata.insertTrace, (heaps_adjust m parent segment n).1]
  · exact fun _ _ => rfl

theorem firstPass_spanHeap (txn : NrTxn) (root : OrderedTree NrSegment)
    (traceLimit spanLimit : ℕ) :
    (firstPass txn root traceLimit spanLimit).spanHeap =
      (firstPassStart txn traceLimit spanLimit).spanHeap.map fun heap =>
        (insertAll nrSegmentSpanPriorityComparator heap root.labels).heap := by
  rw [← foldl_map_insert, firstPass, nrSegmentTreeToHeap, nrSegmentIterate]
  apply Forest.walk_foldl
  · intro parent segment n m
    simp only [nrSegmentStohIteratorCallback, TreeToHeapMetadata.insertSpan,
      TreeToHeapMetadata.insertTrace, (heaps_adjust m parent segment n).2]
  · exact fun _ _ => rfl

end Heaps

/-! ### The trace sample -/

/-- The transaction is saved as a trace and has more segments than the trace may
have. -/
structure SamplesTrace (txn : NrTxn) (root : OrderedTree NrSegment) (traceLimit : ℕ) : Prop where
  isRoot : txn.segmentRoot = some root
  limit : 2 ≤ traceLimit
  more : traceLimit < txn.segmentCount
  saved : nrTxnShouldSaveTrace txn (nrTxnDuration txn) = true

/-- No segment of the tree that is left out of the sample is reported to last
longer than one that is in it. -/
def HoldsSlowest (root : OrderedTree NrSegment) (sample : List ℕ) : Prop :=
  ∀ x ∈ root.labels, x.address ∉ sample → ∀ y ∈ root.labels, y.address ∈ sample →
    reportedDuration x ≤ reportedDuration y

/-- A segment that is exceeded by fewer segments than the limit, in unsigned
differences, is reported to last at least as long as one that is reached by more
than that. -/
def DifferencesAgree (root : OrderedTree NrSegment) (traceLimit : ℕ) : Prop :=
  ∀ x ∈ root.labels, MayDrop unsignedDuration traceLimit root.labels x →
    ∀ y ∈ root.labels, MayKeep unsignedDuration traceLimit root.labels y →
      reportedDuration x ≤ reportedDuration y

/-- Segments that the comparator cannot tell apart are reported to last equally
long: no unsigned difference of a segment that stops before it starts is the
duration of another one. -/
def NoAliasedDuration (root : OrderedTree NrSegment) : Prop :=
  ∀ x ∈ root.labels, ∀ y ∈ root.labels, unsignedDuration x = unsignedDuration y →
    reportedDuration x = reportedDuration y

section

variable {txn : NrTxn} {root : OrderedTree NrSegment} {traceLimit spanLimit : ℕ}

theorem exists_selects_traceSample (hsamples : SamplesTrace txn root traceLimit) (spanLimit : ℕ) :
    ∃ kept dropped, traceSample txn root traceLimit spanLimit = kept.map NrSegment.address ∧
      Selects unsignedDuration traceLimit root.labels kept dropped := by
  have hlimit := hsamples.limit
  have hheap : (firstPassStart txn traceLimit spanLimit).traceHeap =
      some { bound := traceLimit, elements := [] } := by
    simp only [firstPassStart, hsamples.saved, hsamples.more, gt_iff_lt,
      show 0 < traceLimit by omega, decide_true, Bool.and_self, if_true,
      nrSegmentHeapCreate_of_two_le hlimit]
  have hkeeps := keepsGreatest_of_empty totalPreorderCmp_duration hlimit root.labels
  refine ⟨_, _, ?_, hkeeps.selects durationComparator_le_iff⟩
  rw [traceSample, firstPass_traceHeap, hheap]
  rfl

theorem holdsSlowest_iff {kept dropped : List NrSegment}
    (hselects : Selects unsignedDuration traceLimit root.labels kept dropped)
    (hdistinct : (root.labels.map NrSegment.address).Nodup) :
    HoldsSlowest root (kept.map NrSegment.address) ↔
      ∀ x ∈ dropped, ∀ y ∈ kept, reportedDuration x ≤ reportedDuration y := by
  constructor
  · intro h x hx y hy
    have hxl := hselects.mem_iff.mpr (Or.inr hx)
    have hyl := hselects.mem_iff.mpr (Or.inl hy)
    exact h x hxl ((hselects.notMem_map_kept_iff hdistinct hxl).mpr hx) y hyl
      (List.mem_map_of_mem hy)
  · intro h x hxl hx y hyl hy
    exact h x ((hselects.notMem_map_kept_iff hdistinct hxl).mp hx) y
      ((hselects.mem_map_kept_iff hdistinct hyl).mp hy)

/-- The sample holds the slowest segments if the unsigned differences agree with
the reported durations at the limit, and only then, unless the limit falls
between segments that the comparator cannot tell apart. -/
theorem traceSample_holdsSlowest_iff (hsamples : SamplesTrace txn root traceLimit)
    (hdistinct : (root.labels.map NrSegment.address).Nodup) :
    (DifferencesAgree root traceLimit →
        HoldsSlowest root (traceSample txn root traceLimit spanLimit)) ∧
      (NoAliasedDuration root →
        (HoldsSlowest root (traceSample txn root traceLimit spanLimit) ↔
          DifferencesAgree root traceLimit)) := by
  obtain ⟨kept, dropped, hsample, hselects⟩ := exists_selects_traceSample hsamples spanLimit
  rw [hsample, holdsSlowest_iff hselects hdistinct]
  refine ⟨fun hagree x hx y hy => hselects.le_of_may hagree hx hy, fun halias => ?_⟩
  exact hselects.le_iff_may halias

/-- Without a segment that stops before it starts the two orders are one. -/
theorem differencesAgree_of_ordered (htimes : ∀ s ∈ root.labels, s.startTime ≤ s.stopTime)
    (hrange : ∀ s ∈ root.labels, s.stopTime < 2 ^ 64) : DifferencesAgree root traceLimit := by
  intro x hx hdrop y hy hkeep
  by_contra hlt
  rw [not_le, ← unsignedDuration_of_le (htimes x hx) (hrange x hx),
    ← unsignedDuration_of_le (htimes y hy) (hrange y hy)] at hlt
  -- all that reach `x` exceed `y`
  have hmono : (root.labels.countP fun z => unsignedDuration x ≤ unsignedDuration z) ≤
      root.labels.countP fun z => unsignedDuration y < unsignedDuration z := by
    refine List.countP_mono_left fun z _ hz => ?_
    exact decide_eq_true (hlt.trans_le (of_decide_eq_true hz))
  rw [MayDrop] at hdrop
  rw [MayKeep] at hkeep
  omega

end

/-! ### A segment that stops before it starts -/

/-- A root of 20 microseconds with a child of 10, and a child that stops 25
microseconds before it starts. -/
def backwardsTree : OrderedTree NrSegment :=
  ⟨plainSegment 0 0 0 20,
    .node (plainSegment 1 0 0 10) .nil (.node (plainSegment 2 0 30 5) .nil .nil)⟩

theorem samplesTrace_backwardsTree : SamplesTrace (tracedTxn backwardsTree) backwardsTree 2 :=
  ⟨rfl, le_refl 2, Nat.lt_succ_self 2, by decide⟩

theorem traceSample_backwardsTree :
    traceSample (tracedTxn backwardsTree) backwardsTree 2 0 = [0, 2] := by
  decide

/-- Of the three segments the one that lasts 10 microseconds is left out, and the
one that lasts none is kept. -/
theorem traceSample_backwards_not_slowest :
    SamplesTrace (tracedTxn backwardsTree) backwardsTree 2 ∧
      (backwardsTree.labels.map NrSegment.address).Nodup ∧
      ¬HoldsSlowest backwardsTree (traceSample (tracedTxn backwardsTree) backwardsTree 2 0) := by
  refine ⟨samplesTrace_backwardsTree, by decide, ?_⟩
  rw [traceSample_backwardsTree]
  intro h
  have hle := h (plainSegment 1 0 0 10) (by decide) (by decide) (plainSegment 2 0 30 5) (by decide)
    (by decide)
  exact absurd hle (by decide)

theorem traceSample_holdsSlowest_forked :
    HoldsSlowest (forkedTree 20000)
      (traceSample (tracedTxn (forkedTree 20000)) (forkedTree 20000) 2 0) := by
  have hroot := finishedTree_forkedTree 20000
  have hsamples : SamplesTrace (tracedTxn (forkedTree 20000)) (forkedTree 20000) 2 :=
    ⟨rfl, le_refl 2, Nat.lt_succ_self 2, by decide⟩
  exact (traceSample_holdsSlowest_iff hsamples hroot.distinct).1
    (differencesAgree_of_ordered hroot.times (by decide))

end AxiomDaemon.Axiom

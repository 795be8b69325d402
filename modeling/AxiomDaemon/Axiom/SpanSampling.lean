import AxiomDaemon.Axiom.SegmentSampling
import Mathlib.Data.Int.Bitwise

/-!
The span events of a transaction with more segments than may become events. The
heap of the first pass chooses by priority, which the flags of a segment make
up, and then by duration. The second pass has an event for every segment of the
choice that took any time, and finds the parent of each on the path of open
events. `nr_minmax_heap_create` refuses a bound of 1, and without a heap the
choice is empty.
-/

namespace AxiomDaemon.Axiom

open AxiomDaemon.Lib AxiomDaemon.Util

/-! ### Priorities -/

/-- `NR_SEGMENT_PRIORITY_ROOT`. -/
def nrSegmentPriorityRoot : ℕ := 1 <<< 16

/-- `NR_SEGMENT_PRIORITY_DT`. -/
def nrSegmentPriorityDt : ℕ := 1 <<< 15

/-- `NR_SEGMENT_PRIORITY_LOG`. -/
def nrSegmentPriorityLog : ℕ := 1 <<< 14

def nrSegmentSetPriorityFlag (segment : NrSegment) (flag : ℕ) : NrSegment :=
  { segment with priority := segment.priority.lor flag }

/-- The priority of a segment that was given the flags one after the other. -/
def priorityOf (flags : List ℕ) : ℤ :=
  (flags.foldl nrSegmentSetPriorityFlag (plainSegment 0 0 0 0)).priority

theorem priority_foldl (flags : List ℕ) (segment : NrSegment) {n : ℕ}
    (hpriority : segment.priority = n) :
    (flags.foldl nrSegmentSetPriorityFlag segment).priority =
      ((flags.foldl (· ||| ·) n : ℕ) : ℤ) := by
  induction flags generalizing segment n with
  | nil => exact hpriority
  | cons flag flags ih =>
      refine ih (nrSegmentSetPriorityFlag segment flag) ?_
      rw [nrSegmentSetPriorityFlag, hpriority]
      rfl

theorem priorityOf_eq (flags : List ℕ) :
    priorityOf flags = ((flags.foldl (· ||| ·) 0 : ℕ) : ℤ) :=
  priority_foldl flags _ rfl

theorem le_foldl_or (flags : List ℕ) (n : ℕ) : n ≤ flags.foldl (· ||| ·) n := by
  induction flags generalizing n with
  | nil => exact le_rfl
  | cons flag flags ih => exact Nat.left_le_or.trans (ih _)

theorem foldl_or_lt {k : ℕ} (flags : List ℕ) (hflags : ∀ flag ∈ flags, flag < 2 ^ k) {n : ℕ}
    (hn : n < 2 ^ k) : flags.foldl (· ||| ·) n < 2 ^ k := by
  induction flags generalizing n with
  | nil => exact hn
  | cons flag flags ih =>
      apply ih
      · exact fun f hf => hflags f (List.mem_cons_of_mem _ hf)
      · exact Nat.or_lt_two_pow hn (hflags flag List.mem_cons_self)

/-- A finished tree as the API leaves it: no segment stops before it starts, and
the root has taken some time. The root has its flag from the start; the other
flags are set when the id of a segment goes into a payload or a log message. -/
structure FlaggedTree (root : OrderedTree NrSegment) : Prop where
  times : ∀ s ∈ root.labels, s.startTime ≤ s.stopTime
  rootTime : root.root.startTime ≠ root.root.stopTime
  distinct : (root.labels.map NrSegment.address).Nodup
  rootFlags : ∃ flags, root.root.priority = priorityOf (nrSegmentPriorityRoot :: flags)
  flags : ∀ s ∈ root.children.labels, ∃ flags ⊆ [nrSegmentPriorityDt, nrSegmentPriorityLog],
    s.priority = priorityOf flags

theorem FlaggedTree.priority_lt {root : OrderedTree NrSegment} (h : FlaggedTree root)
    {s : NrSegment} (hs : s ∈ root.children.labels) : s.priority < root.root.priority := by
  obtain ⟨rootFlags, hroot⟩ := h.rootFlags
  obtain ⟨flags, hsub, hpriority⟩ := h.flags s hs
  have hle : nrSegmentPriorityRoot ≤ (nrSegmentPriorityRoot :: rootFlags).foldl (· ||| ·) 0 := by
    rw [List.foldl_cons, Nat.zero_or]
    exact le_foldl_or _ _
  have hlt : flags.foldl (· ||| ·) 0 < 2 ^ 16 := by
    apply foldl_or_lt
    · intro flag hflag
      have hmem := hsub hflag
      simp only [List.mem_cons, List.not_mem_nil, or_false] at hmem
      rcases hmem with rfl | rfl <;> decide
    · decide
  rw [hroot, hpriority, priorityOf_eq, priorityOf_eq]
  exact_mod_cast hlt.trans_le hle

/-! ### One segment -/

section Pass

variable {txn : NrTxn} {guid : ℕ → Bytes} {absStartTime : ℕ}

/-- A segment together with the event that was made of it. -/
abbrev SpanNode := NrSegment × NrSpanEvent

/-- The event says what the segment is. -/
structure Describes (txn : NrTxn) (absStartTime : ℕ) (node : SpanNode) : Prop where
  name : node.2.name = some (traceString txn node.1.name)
  timestamp : node.2.timestamp = (absStartTime + node.1.startTime) % 2 ^ 64
  duration : node.2.duration = reportedDuration node.1
  category : node.2.category = spanCategory node.1
  guid : ∀ id, node.1.id = some id → node.2.guid = some id

/-- An event is open: its segment and itself lead the two paths. -/
def SpanData.push (s : SpanData) (node : SpanNode) : SpanData :=
  { s with
    events := s.events ++ [node.2]
    currentPath := node.1 :: s.currentPath
    currentSpanPath := node.2 :: s.currentSpanPath }

variable (txn guid absStartTime) in
theorem passSpan_sampled {segment : NrSegment} {s : SpanData}
    (hsampled : isSampled s.sample segment = true) : ∃ span guidsCreated,
      nrSegmentIterationPassSpan guid absStartTime segment (traceString txn segment.name) s =
        { s.push (segment, span) with guidsCreated } ∧
      Describes txn absStartTime (segment, span) ∧
      span.parentGuid = s.currentSpanPath.head?.map NrSpanEvent.guid := by
  simp only [nrSegmentIterationPassSpan, hsampled, Bool.not_true, Bool.false_eq_true, if_false]
  exact ⟨_, _, rfl, ⟨rfl, rfl, rfl, rfl, fun id (hid : segment.id = some id) => by
    simp only [hid]⟩, rfl⟩

variable (txn guid absStartTime) in
theorem spans_callback_not_shown {segment : NrSegment} {u : NrSegmentUserdata} {s : SpanData}
    (hspans : u.spans = some s) (htimes : segment.startTime ≤ segment.stopTime)
    (hshown : shown s.sample segment = false) (parent : Option NrSegment) (childrenSize : ℕ) :
    let r := nrSegmentTracesStotIteratorCallback txn guid absStartTime parent segment childrenSize u
    r.1.spans = some s ∧ r.1.success = u.success := by
  simp only [nrSegmentTracesStotIteratorCallback]
  by_cases hzero : segment.startTime = segment.stopTime
  · rw [if_pos hzero]
    exact ⟨hspans, rfl⟩
  · have hsampled : isSampled s.sample segment = false := by
      simpa [shown, hzero] using hshown
    have hpass : u.spans.map (nrSegmentIterationPassSpan guid absStartTime segment
        (traceString txn segment.name)) = some s := by
      rw [hspans, Option.map_some, nrSegmentIterationPassSpan, hsampled, Bool.not_false, if_pos rfl]
    rw [if_neg hzero, if_neg (Nat.not_lt.mpr htimes), hpass]
    cases u.trace with
    | none => exact ⟨rfl, rfl⟩
    | some t => exact ⟨rfl, rfl⟩

variable (txn guid absStartTime) in
theorem spans_callback_shown {segment : NrSegment} {u : NrSegmentUserdata} {s : SpanData}
    (hspans : u.spans = some s) (htimes : segment.startTime ≤ segment.stopTime)
    (hshown : shown s.sample segment = true) (parent : Option NrSegment) (childrenSize : ℕ) :
    let r := nrSegmentTracesStotIteratorCallback txn guid absStartTime parent segment childrenSize u
    r.2 = true ∧ r.1.success = u.success ∧ ∃ span guidsCreated,
      r.1.spans = some { s.push (segment, span) with guidsCreated } ∧
      Describes txn absStartTime (segment, span) ∧
      span.parentGuid = s.currentSpanPath.head?.map NrSpanEvent.guid := by
  obtain ⟨hsampled, hzero⟩ : isSampled s.sample segment = true ∧
      segment.startTime ≠ segment.stopTime := by
    simpa [shown] using hshown
  obtain ⟨span, guidsCreated, hpass, hdescribes, hparent⟩ :=
    passSpan_sampled txn guid absStartTime hsampled
  simp only [nrSegmentTracesStotIteratorCallback]
  rw [if_neg hzero, if_neg (Nat.not_lt.mpr htimes), hspans, Option.map_some, hpass]
  refine ⟨rfl, ?_, span, guidsCreated, ?_, hdescribes, hparent⟩
  · cases u.trace with
    | none => rfl
    | some t => rfl
  · cases u.trace with
    | none => rfl
    | some t => rfl

/-- Closing a segment that does not lead the path changes nothing. -/
theorem SpanData.close_of_notMem_head {s : SpanData} {segment : NrSegment}
    (hnot : ∀ p ∈ s.currentPath.head?, p.address ≠ segment.address) : s.close segment = s := by
  rw [SpanData.close, isCurrent, if_neg]
  cases hhead : s.currentPath.head? with
  | none => simp
  | some p => simpa using hnot p hhead

/-! ### The pass over a forest -/

/-- What a part of the pass adds to the spans: an event for every node of the
forest `g`, each with the parent it has there; `q` is that of the roots. The
paths are the same afterwards. -/
structure Emits (txn : NrTxn) (absStartTime : ℕ) (f : Forest NrSegment) (q : Option SpanNode)
    (g : Forest SpanNode) (u u' : NrSegmentUserdata) (s s' : SpanData) : Prop where
  spans : u'.spans = some s'
  success : u'.success = u.success
  events : s'.events = s.events ++ g.labels.map Prod.snd
  sample : s'.sample = s.sample
  path : s'.currentPath = s.currentPath
  spanPath : s'.currentSpanPath = s.currentSpanPath
  forest : g.map Prod.fst = f
  describes : ∀ node ∈ g.labels, Describes txn absStartTime node
  parents : ∀ e ∈ g.edges q, e.2.2.parentGuid = e.1.map fun node => node.2.guid

theorem emits_nil {q : Option SpanNode} {u : NrSegmentUserdata} {s : SpanData}
    (hspans : u.spans = some s) : Emits txn absStartTime .nil q .nil u u s s where
  spans := hspans
  success := rfl
  events := by simp
  sample := rfl
  path := rfl
  spanPath := rfl
  forest := rfl
  describes := by simp
  parents := by simp [Forest.edges]

theorem Emits.append {f f' : Forest NrSegment} {q : Option SpanNode} {g g' : Forest SpanNode}
    {u u' u'' : NrSegmentUserdata} {s s' s'' : SpanData}
    (h : Emits txn absStartTime f q g u u' s s') (h' : Emits txn absStartTime f' q g' u' u'' s' s'') :
    Emits txn absStartTime (f.append f') q (g.append g') u u'' s s'' where
  spans := h'.spans
  success := h'.success.trans h.success
  events := by
    rw [h'.events, h.events, Forest.labels_append, List.map_append, List.append_assoc]
  sample := h'.sample.trans h.sample
  path := h'.path.trans h.path
  spanPath := h'.spanPath.trans h.spanPath
  forest := by rw [Forest.map_append, h.forest, h'.forest]
  describes := by
    intro node hnode
    rw [Forest.labels_append, List.mem_append] at hnode
    exact hnode.elim (h.describes node) (h'.describes node)
  parents := by
    intro e he
    rw [Forest.edges_append, List.mem_append] at he
    exact he.elim (h.parents e) (h'.parents e)

theorem Emits.leave {f : Forest NrSegment} {q : Option SpanNode} {g : Forest SpanNode}
    {u u' : NrSegmentUserdata} {s s' : SpanData} (h : Emits txn absStartTime f q g u u' s s')
    {segment : NrSegment} (hnot : ∀ p ∈ s.currentPath.head?, p.address ≠ segment.address)
    (registered : Bool) : Emits txn absStartTime f q g u
      (if registered then nrSegmentTracesStotIteratorPostCallback segment u' else u') s s' := by
  cases registered with
  | false => exact h
  | true =>
      have hclose : s'.close segment = s' := SpanData.close_of_notMem_head (h.path ▸ hnot)
      refine { h with spans := ?_ }
      rw [if_pos rfl, nrSegmentTracesStotIteratorPostCallback, h.spans, Option.map_some, hclose]

/-- A shown segment whose children were visited: its event, below the open one. -/
theorem emits_node {f : Forest NrSegment} {q : Option SpanNode} (node : SpanNode)
    {g : Forest SpanNode} {u v u' : NrSegmentUserdata} {s s' : SpanData} {guidsCreated : ℕ}
    (hdescribes : Describes txn absStartTime node)
    (hparent : node.2.parentGuid = q.map fun n => n.2.guid) (hsuccess : v.success = u.success)
    (h : Emits txn absStartTime f (some node) g v u' { s.push node with guidsCreated } s') :
    Emits txn absStartTime (.node node.1 f .nil) q (.node node g .nil) u
      (nrSegmentTracesStotIteratorPostCallback node.1 u') s (s'.close node.1) := by
  have hpath : s'.currentPath = node.1 :: s.currentPath := h.path
  have hspanPath : s'.currentSpanPath = node.2 :: s.currentSpanPath := h.spanPath
  have hclose : s'.close node.1 =
      { s' with currentPath := s.currentPath, currentSpanPath := s.currentSpanPath } := by
    rw [SpanData.close, isCurrent, hpath, hspanPath, if_pos (by simp)]
    rfl
  rw [hclose]
  constructor
  case spans => rw [nrSegmentTracesStotIteratorPostCallback, h.spans, Option.map_some, hclose]
  case success => exact h.success.trans hsuccess
  case events =>
    have hevents : s'.events = s.events ++ [node.2] ++ g.labels.map Prod.snd := h.events
    simp [hevents]
  case sample => exact h.sample
  case path => rfl
  case spanPath => rfl
  case forest => rw [Forest.map, h.forest, Forest.map]
  case describes =>
    intro n hn
    rw [Forest.labels_node, Forest.labels_nil, List.append_nil, List.mem_cons] at hn
    rcases hn with rfl | hbelow
    · exact hdescribes
    · exact h.describes n hbelow
  case parents =>
    intro e he
    rw [Forest.edges, Forest.edges, List.append_nil, List.mem_cons] at he
    rcases he with rfl | hbelow
    · exact hparent
    · exact h.parents e hbelow

variable (txn guid absStartTime) in
theorem walk_emits (f : Forest NrSegment) (parent : Option NrSegment) {q : Option SpanNode}
    {u : NrSegmentUserdata} {s : SpanData} (hspans : u.spans = some s)
    (hq : s.currentSpanPath.head? = q.map Prod.snd)
    (htimes : ∀ x ∈ f.labels, x.startTime ≤ x.stopTime)
    (hdistinct : (f.labels.map NrSegment.address).Nodup)
    (hhead : ∀ p ∈ s.currentPath.head?, p.address ∉ f.labels.map NrSegment.address) :
    ∃ g s', Emits txn absStartTime (f.keep (shown s.sample)) q g u
      (f.walk (nrSegmentTracesStotIteratorCallback txn guid absStartTime)
        nrSegmentTracesStotIteratorPostCallback parent u) s s' := by
  induction f generalizing parent q u s with
  | nil => exact ⟨.nil, s, emits_nil hspans⟩
  | node a children rest ihc ihr =>
      rw [Forest.labels_node, List.forall_mem_cons] at htimes
      obtain ⟨hatimes, htimes⟩ := htimes
      rw [List.forall_mem_append] at htimes
      rw [Forest.labels_node, List.map_cons, List.map_append] at hdistinct hhead
      rw [List.nodup_cons, List.mem_append, not_or, List.nodup_append] at hdistinct
      obtain ⟨hnotin, hcdistinct, hrdistinct, -⟩ := hdistinct
      have hheadNot : ∀ p ∈ s.currentPath.head?, p.address ≠ a.address ∧
          p.address ∉ children.labels.map NrSegment.address ∧
          p.address ∉ rest.labels.map NrSegment.address := by
        intro p hp
        simpa only [List.mem_cons, List.mem_append, not_or] using hhead p hp
      -- whatever was emitted below the node, the siblings after it can follow
      have hrest : ∀ {f' : Forest NrSegment} {g : Forest SpanNode} {u' : NrSegmentUserdata}
          {s' : SpanData}, Emits txn absStartTime f' q g u u' s s' →
          ∃ g' s'', Emits txn absStartTime (f'.append (rest.keep (shown s.sample))) q g' u
            (rest.walk (nrSegmentTracesStotIteratorCallback txn guid absStartTime)
              nrSegmentTracesStotIteratorPostCallback parent u') s s'' := by
        intro f' g u' s' h
        obtain ⟨g', s'', h'⟩ := ihr parent h.spans (h.spanPath ▸ hq) htimes.2 hrdistinct
          (h.path ▸ fun p hp => (hheadNot p hp).2.2)
        rw [h.sample] at h'
        exact ⟨g.append g', s'', h.append h'⟩
      rw [Forest.keep, Forest.walk]
      cases hshown : shown s.sample a with
      | false =>
          obtain ⟨hsame, hsuccess⟩ := spans_callback_not_shown txn guid absStartTime hspans hatimes
            hshown parent children.length
          rw [if_neg (by decide)]
          obtain ⟨g, s', h⟩ := ihc (some a) hsame hq htimes.1 hcdistinct
            (fun p hp => (hheadNot p hp).2.1)
          exact hrest ({ h with success := h.success.trans hsuccess }.leave
            (fun p hp => (hheadNot p hp).1) _)
      | true =>
          obtain ⟨hregistered, hsuccess, span, guidsCreated, hpushed, hdescribes, hparent⟩ :=
            spans_callback_shown txn guid absStartTime hspans hatimes hshown parent children.length
          rw [if_pos rfl]
          obtain ⟨g, s', h⟩ := ihc (some a) (q := some (a, span)) hpushed rfl htimes.1 hcdistinct
            (by
              intro p hp
              obtain rfl : a = p := by simpa [SpanData.push] using hp
              exact hnotin.1)
          have hguid : span.parentGuid = q.map fun n => n.2.guid := by
            rw [hparent, hq, Option.map_map]
            rfl
          have hnode := emits_node (a, span) hdescribes hguid hsuccess h
          simp only [hregistered, if_true]
          exact hrest hnode

end Pass

/-! ### The events of a transaction -/

/-- Span events are saved and sampled. The limit of the trace is at most the one
that `nr_txn_end` has, `NR_MAX_SEGMENTS`. -/
structure SamplesSpans (txn : NrTxn) (root : OrderedTree NrSegment)
    (traceLimit spanLimit : ℕ) : Prop where
  isRoot : txn.segmentRoot = some root
  limit : 1 ≤ spanLimit
  more : spanLimit < txn.segmentCount
  created : nrTxnShouldCreateSpanEvents txn = true
  traceLimit : traceLimit ≤ nrMaxSegments

/-- The events are those of a connected trace: at least one and no more than the
limit, one for each segment of the sample that took any time, below that of its
nearest ancestor of that kind. The root has one, the only one without a parent. No
segment is left out of the sample for one of lower priority. -/
structure ConnectedSpans (txn : NrTxn) (absStartTime : ℕ) (root : OrderedTree NrSegment)
    (spanLimit : ℕ) (sample : Option (List ℕ)) (events : List NrSpanEvent) : Prop where
  nonempty : events ≠ []
  bounded : events.length ≤ spanLimit
  tree : ∃ g : Forest SpanNode, events = g.labels.map Prod.snd ∧
    (g.map Prod.fst).labels = root.labels.filter (shown sample) ∧
    (g.map Prod.fst).edges none = root.toForest.nearestEdges (shown sample) none ∧
    (∀ node ∈ g.labels, Describes txn absStartTime node) ∧
    (∀ e ∈ g.edges none, e.2.2.parentGuid = e.1.map fun node => node.2.guid) ∧
    (∃ span, (root.root, span) ∈ g.labels) ∧
    ∀ e ∈ g.edges none, e.2.2.parentGuid = none ↔ e.2.1 = root.root
  priority : ∀ x ∈ root.labels, isSampled sample x = false →
    ∀ y ∈ root.labels, isSampled sample y = true → x.priority ≤ y.priority

section

variable {txn : NrTxn} {root : OrderedTree NrSegment} {traceLimit spanLimit : ℕ}

theorem length_traceSample_le (txn : NrTxn) (root : OrderedTree NrSegment)
    (traceLimit spanLimit : ℕ) :
    (traceSample txn root traceLimit spanLimit).length ≤ traceLimit := by
  rw [traceSample, firstPass_traceHeap, firstPassStart]
  by_cases hheap : (decide (traceLimit > 0) && nrTxnShouldSaveTrace txn (nrTxnDuration txn) &&
      decide (txn.segmentCount > traceLimit)) = true
  · simp only [hheap, if_true]
    have hpos : 0 < traceLimit := by
      simp only [Bool.and_eq_true, decide_eq_true_eq] at hheap
      exact hheap.1.1
    by_cases hone : traceLimit = 1
    · subst hone
      exact Nat.zero_le 1
    · have htwo : 2 ≤ traceLimit := by omega
      rw [nrSegmentHeapCreate_of_two_le htwo]
      have hkeeps := keepsGreatest_of_empty totalPreorderCmp_duration htwo root.labels
      simp only [Option.map_some, nrSegmentHeapToSet, List.length_map, hkeeps.length]
      exact Nat.min_le_right _ _
  · simp only [hheap]
    exact Nat.zero_le _

theorem spanHeap_start (hsamples : SamplesSpans txn root traceLimit spanLimit) :
    (firstPassStart txn traceLimit spanLimit).spanHeap = nrSegmentHeapCreate spanLimit := by
  have hlimit := hsamples.limit
  simp only [firstPassStart, hsamples.created, hsamples.more, gt_iff_lt,
    show 0 < spanLimit by omega, decide_true, Bool.and_self, if_true]

theorem spanSample_eq (hsamples : SamplesSpans txn root traceLimit spanLimit) :
    spanSample txn root traceLimit spanLimit =
      some (nrSegmentHeapToSet ((nrSegmentHeapCreate spanLimit).map fun heap =>
        (insertAll nrSegmentSpanPriorityComparator heap root.labels).heap)) := by
  rw [spanSample, if_pos hsamples.more, firstPass_spanHeap, spanHeap_start hsamples]

theorem spanSample_one (hsamples : SamplesSpans txn root traceLimit 1) :
    spanSample txn root traceLimit 1 = some [] := by
  rw [spanSample_eq hsamples]
  rfl

theorem exists_selects_spanSample (hsamples : SamplesSpans txn root traceLimit spanLimit)
    (htwo : 2 ≤ spanLimit) :
    ∃ kept dropped, spanSample txn root traceLimit spanLimit =
      some (kept.map NrSegment.address) ∧ Selects spanRank spanLimit root.labels kept dropped := by
  have hkeeps := keepsGreatest_of_empty totalPreorderCmp_priority htwo root.labels
  refine ⟨_, _, ?_, hkeeps.selects priorityComparator_le_iff⟩
  rw [spanSample_eq hsamples, nrSegmentHeapCreate_of_two_le htwo]
  rfl

theorem nrTxnDuration_ne_zero (hsamples : SamplesSpans txn root traceLimit spanLimit)
    (hroot : FlaggedTree root) : nrTxnDuration txn ≠ 0 := by
  have hle := hroot.times root.root (OrderedTree.mem_labels_iff.mpr (Or.inl rfl))
  have hne := hroot.rootTime
  simp only [nrTxnDuration, hsamples.isRoot, nrTimeDuration_eq]
  omega

theorem exists_spanEvents (hsamples : SamplesSpans txn root traceLimit spanLimit)
    (hroot : FlaggedTree root) (guid : ℕ → Bytes) (absStartTime : ℕ)
    (attributes : TraceAttributes) :
    ∃ g : Forest SpanNode, (nrSegmentTreeFinalise txn guid absStartTime attributes traceLimit
        spanLimit).2.spanEvents = some (g.labels.map Prod.snd) ∧
      g.map Prod.fst = root.toForest.keep (shown (spanSample txn root traceLimit spanLimit)) ∧
      (∀ node ∈ g.labels, Describes txn absStartTime node) ∧
      ∀ e ∈ g.edges none, e.2.2.parentGuid = e.1.map fun node => node.2.guid := by
  have hlimit := hsamples.limit
  have hmore := hsamples.more
  set saveTrace := decide (traceLimit > 0) && nrTxnShouldSaveTrace txn (nrTxnDuration txn)
    with hsaveTrace
  set traceSet := if decide (txn.segmentCount > traceLimit) = true then
    some (traceSample txn root traceLimit spanLimit) else none with htraceSet
  have hfinalise : (nrSegmentTreeFinalise txn guid absStartTime attributes traceLimit spanLimit).2 =
      nrSegmentTracesCreateData txn guid absStartTime root (nrTxnDuration txn) traceSet
        (spanSample txn root traceLimit spanLimit) attributes saveTrace true := by
    simp only [nrSegmentTreeFinalise, hsamples.isRoot, hsamples.created, hmore, gt_iff_lt,
      show 0 < spanLimit by omega, decide_true, Bool.and_self, Bool.or_true, if_true, spanSample]
    rfl
  have hsize : (traceSet.any fun set => decide (nrMaxSegments < set.length)) = false := by
    rw [htraceSet]
    split
    · have hle := length_traceSample_le txn root traceLimit spanLimit
      have hmax := hsamples.traceLimit
      simp only [Option.any_some, decide_eq_false_iff_not]
      omega
    · rfl
  have hcreate : ¬(txn.segmentCount = 0 ∨ nrTxnDuration txn = 0 ∨
      (traceSet.any fun set => decide (nrMaxSegments < set.length)) = true) := by
    rw [hsize]
    have hduration := nrTxnDuration_ne_zero hsamples hroot
    simp only [hduration, Bool.false_eq_true, or_false]
    omega
  obtain ⟨g, s', h⟩ := walk_emits txn guid absStartTime root.toForest none (q := none)
    (u := { segmentNames := []
            success := true
            trace := (if saveTrace then some (traceHead (nrTxnDuration txn)) else none).map
              fun buf => { buf, sample := traceSet, currentPath := []
                           sampledAncestorsWithChild := [] }
            spans := some { events := [], sample := spanSample txn root traceLimit spanLimit
                            currentPath := [], currentSpanPath := [], guidsCreated := 0 } })
    rfl rfl hroot.times hroot.distinct (by simp)
  refine ⟨g, ?_, h.forest, h.describes, h.parents⟩
  have hevents : s'.events = g.labels.map Prod.snd := h.events
  rw [hfinalise, nrSegmentTracesCreateData, if_neg hcreate]
  simp only [nrSegmentTracesJsonPrintSegments, if_true, nrSegmentIterate, h.success, h.spans,
    Bool.not_true, Bool.and_false, Bool.or_false, Bool.false_eq_true, if_false, Option.map_some,
    hevents]

theorem FlaggedTree.root_notMem (hroot : FlaggedTree root) :
    root.root ∉ root.children.labels := by
  intro hmem
  exact (hroot.priority_lt hmem).ne rfl

theorem FlaggedTree.root_mem_kept (hroot : FlaggedTree root) {kept dropped : List NrSegment}
    (hselects : Selects spanRank spanLimit root.labels kept dropped) (htwo : 2 ≤ spanLimit) :
    root.root ∈ kept := by
  have hmem : root.root ∈ root.labels := OrderedTree.mem_labels_iff.mpr (Or.inl rfl)
  refine (hselects.mem_iff.mp hmem).resolve_right fun hdropped => ?_
  -- what is chosen in its place has a lower priority
  have hlength := hselects.length_eq hdropped
  obtain ⟨y, hy⟩ := List.exists_mem_of_length_pos (show 0 < kept.length by omega)
  have hnodup := hselects.perm.nodup_iff.mpr (List.Nodup.of_map _ hroot.distinct)
  have hne : y ≠ root.root := (List.nodup_append.mp hnodup).2.2 y hy root.root hdropped
  have hchild := (OrderedTree.mem_labels_iff.mp
    (hselects.mem_iff.mpr (Or.inl hy))).resolve_left hne
  have hle := hselects.greatest root.root hdropped y hy
  rw [spanRank, spanRank, Prod.Lex.toLex_le_toLex] at hle
  have hlt := hroot.priority_lt hchild
  simp only at hle
  omega

/-- A forest of events over a tree whose root is shown: the event of the root
alone has no parent. -/
theorem parentGuid_eq_none_iff (hroot : FlaggedTree root) {p : NrSegment → Bool}
    (hshown : p root.root = true) {g : Forest SpanNode}
    (hforest : g.map Prod.fst = root.toForest.keep p)
    (hparents : ∀ e ∈ g.edges none, e.2.2.parentGuid = e.1.map fun node => node.2.guid) :
    (∃ span, (root.root, span) ∈ g.labels) ∧
      ∀ e ∈ g.edges none, e.2.2.parentGuid = none ↔ e.2.1 = root.root := by
  rw [OrderedTree.toForest, Forest.keep, if_pos hshown, Forest.keep] at hforest
  cases g with
  | nil => cases hforest
  | node node children rest =>
      rw [Forest.map, Forest.node.injEq] at hforest
      obtain ⟨hnode, hchildren, hrest⟩ := hforest
      obtain rfl : rest = .nil := by
        cases rest with
        | nil => rfl
        | node => cases hrest
      refine ⟨⟨node.2, hnode ▸ List.mem_cons_self⟩, fun e he => ?_⟩
      rw [hparents e he]
      rw [Forest.edges, Forest.edges, List.append_nil, List.mem_cons] at he
      rcases he with rfl | hbelow
      · exact iff_of_true rfl hnode
      · have hparent := Forest.edges_some_fst hbelow
        have hlabel : e.2.1 ∈ (children.map Prod.fst).labels := by
          rw [Forest.labels_map, ← Forest.snd_edges (some node), List.map_map]
          exact List.mem_map_of_mem hbelow
        rw [hchildren, Forest.labels_keep] at hlabel
        apply iff_of_false
        · exact fun hnone => hparent (Option.map_eq_none_iff.mp hnone)
        · exact fun heq => hroot.root_notMem (heq ▸ List.mem_of_mem_filter hlabel)

/-- The events are those of a connected trace exactly if the limit is not 1. -/
theorem finalise_connectedSpans_iff (hsamples : SamplesSpans txn root traceLimit spanLimit)
    (hroot : FlaggedTree root) (guid : ℕ → Bytes) (absStartTime : ℕ)
    (attributes : TraceAttributes) :
    (∃ events, (nrSegmentTreeFinalise txn guid absStartTime attributes traceLimit
        spanLimit).2.spanEvents = some events ∧
      ConnectedSpans txn absStartTime root spanLimit (spanSample txn root traceLimit spanLimit)
        events) ↔ 2 ≤ spanLimit := by
  obtain ⟨g, hevents, hforest, hdescribes, hparents⟩ :=
    exists_spanEvents hsamples hroot guid absStartTime attributes
  have hlabels := congrArg Forest.labels hforest
  rw [Forest.labels_map, Forest.labels_keep] at hlabels
  have hlength := congrArg List.length hlabels
  rw [List.length_map] at hlength
  constructor
  · rintro ⟨events, hsome, hconnected⟩
    obtain rfl := Option.some.inj (hevents.symm.trans hsome)
    by_contra hlt
    obtain rfl : spanLimit = 1 := by
      have := hsamples.limit
      omega
    -- nothing is shown of an empty sample
    have hnone : root.toForest.labels.filter (shown (some [])) = [] := by
      refine List.filter_eq_nil_iff.mpr fun s _ => ?_
      simp [shown, isSampled]
    rw [spanSample_one hsamples, hnone, List.length_nil] at hlength
    refine hconnected.nonempty ?_
    rw [List.length_eq_zero_iff.mp hlength, List.map_nil]
  · intro htwo
    obtain ⟨kept, dropped, hsample, hselects⟩ := exists_selects_spanSample hsamples htwo
    have hkept := hroot.root_mem_kept hselects htwo
    have hshown : shown (spanSample txn root traceLimit spanLimit) root.root = true := by
      rw [hsample, shown, isSampled, decide_eq_true (List.mem_map_of_mem hkept), Bool.true_and]
      exact decide_eq_true hroot.rootTime
    obtain ⟨hspan, honly⟩ := parentGuid_eq_none_iff hroot hshown hforest hparents
    refine ⟨_, hevents, ?_⟩
    constructor
    case nonempty =>
      obtain ⟨span, hmem⟩ := hspan
      exact List.ne_nil_of_mem (List.mem_map_of_mem hmem)
    case bounded =>
      rw [List.length_map, hlength]
      have hsub : root.labels.filter (shown (spanSample txn root traceLimit spanLimit)) ⊆ kept := by
        intro s hs
        obtain ⟨hmem, hs⟩ := List.mem_filter.mp hs
        rw [shown, Bool.and_eq_true, hsample, isSampled, decide_eq_true_eq] at hs
        exact (hselects.mem_map_kept_iff hroot.distinct hmem).mp hs.1
      have hnodup : (root.labels.filter
          (shown (spanSample txn root traceLimit spanLimit))).Nodup :=
        (List.Nodup.of_map _ hroot.distinct).filter _
      exact (hnodup.subperm hsub).length_le.trans hselects.length_le
    case tree =>
      refine ⟨g, rfl, ?_, ?_, hdescribes, hparents, hspan, honly⟩
      · rw [hforest, Forest.labels_keep]
        rfl
      · rw [hforest, Forest.edges_keep]
    case priority =>
      intro x hx hnot y hy hsampled
      rw [hsample, isSampled, decide_eq_false_iff_not] at hnot
      rw [hsample, isSampled, decide_eq_true_eq] at hsampled
      have hle := hselects.greatest x ((hselects.notMem_map_kept_iff hroot.distinct hx).mp hnot) y
        ((hselects.mem_map_kept_iff hroot.distinct hy).mp hsampled)
      rw [spanRank, spanRank, Prod.Lex.toLex_le_toLex] at hle
      exact hle.elim le_of_lt fun h => h.1.le

end

/-! ### A limit of one event -/

/-- A root and a child whose id went into a payload. -/
def payloadTree : OrderedTree NrSegment :=
  ⟨nrSegmentSetPriorityFlag (plainSegment 0 0 0 20) nrSegmentPriorityRoot,
    .node (nrSegmentSetPriorityFlag (plainSegment 1 0 5 15) nrSegmentPriorityDt) .nil
      (.node (plainSegment 2 0 16 17) .nil .nil)⟩

/-- A transaction of three segments with span events. -/
def spanTxn : NrTxn :=
  { tracedTxn payloadTree with
    distributedTraceSampled := true
    distributedTracingEnabled := true
    spanEventsEnabled := true }

theorem flaggedTree_payloadTree : FlaggedTree payloadTree where
  times := by decide
  rootTime := by decide
  distinct := by decide
  rootFlags := ⟨[], rfl⟩
  flags := by
    have hlabels : payloadTree.children.labels =
        [nrSegmentSetPriorityFlag (plainSegment 1 0 5 15) nrSegmentPriorityDt,
          plainSegment 2 0 16 17] := rfl
    rw [hlabels, List.forall_mem_cons, List.forall_mem_cons]
    exact ⟨⟨[nrSegmentPriorityDt], by simp, rfl⟩, ⟨[], by simp, rfl⟩, by simp⟩

theorem samplesSpans_spanTxn {spanLimit : ℕ} (hlimit : 1 ≤ spanLimit) (hmore : spanLimit < 3) :
    SamplesSpans spanTxn payloadTree nrMaxSegments spanLimit :=
  ⟨rfl, hlimit, hmore, rfl, le_rfl⟩

/-- With a limit of 2 the root and the segment of the payload have an event. -/
theorem finalise_connectedSpans_two :
    ∃ events, (nrSegmentTreeFinalise spanTxn (fun _ => []) 0 ⟨none, none, none⟩ nrMaxSegments
        2).2.spanEvents = some events ∧
      ConnectedSpans spanTxn 0 payloadTree 2 (spanSample spanTxn payloadTree nrMaxSegments 2)
        events :=
  (finalise_connectedSpans_iff (samplesSpans_spanTxn (by decide) (by decide))
    flaggedTree_payloadTree (fun _ => []) 0 ⟨none, none, none⟩).mpr le_rfl

/-- With a limit of 1 there is no event at all. -/
theorem finalise_no_spans_one :
    SamplesSpans spanTxn payloadTree nrMaxSegments 1 ∧ FlaggedTree payloadTree ∧
      (nrSegmentTreeFinalise spanTxn (fun _ => []) 0 ⟨none, none, none⟩ nrMaxSegments
        1).2.spanEvents = some [] ∧
      ¬∃ events, (nrSegmentTreeFinalise spanTxn (fun _ => []) 0 ⟨none, none, none⟩ nrMaxSegments
          1).2.spanEvents = some events ∧
        ConnectedSpans spanTxn 0 payloadTree 1 (spanSample spanTxn payloadTree nrMaxSegments 1)
          events := by
  have hevents : (nrSegmentTreeFinalise spanTxn (fun _ => []) 0 ⟨none, none, none⟩ nrMaxSegments
      1).2.spanEvents = some [] := by
    decide
  refine ⟨samplesSpans_spanTxn le_rfl (by decide), flaggedTree_payloadTree, hevents, ?_⟩
  rintro ⟨events, hsome, hconnected⟩
  rw [hevents] at hsome
  exact hconnected.nonempty (Option.some.inj hsome).symm

end AxiomDaemon.Axiom

import AxiomDaemon.Axiom.ExclusiveTime
import AxiomDaemon.Lib.Forest
import AxiomDaemon.Lib.Text
import AxiomDaemon.Util.MinmaxHeap

/-!
Segments and the first pass over the tree of a finished transaction,
`nr_segment.c` and the first half of `nr_segment_tree.c`.

The first pass sets up the exclusive time of every segment on the way down,
adds the segment to its parent's and, for an asynchronous segment, to that of
the main context, and puts it into the heaps from which traces and span
events are sampled. On the way up it adds the exclusive time of the segment
to the total time of the transaction.
-/

namespace AxiomDaemon.Axiom

open AxiomDaemon.Lib AxiomDaemon.Util

structure NrDatastoreInstance where
  host : Option Bytes
  portPathOrId : Option Bytes
  databaseName : Option Bytes
  deriving DecidableEq

structure NrSegmentDatastore where
  component : Option Bytes
  sql : Option Bytes
  sqlObfuscated : Option Bytes
  inputQueryJson : Option Bytes
  backtraceJson : Option Bytes
  explainPlanJson : Option Bytes
  instance_ : NrDatastoreInstance
  deriving DecidableEq

structure NrSegmentExternal where
  transactionGuid : Option Bytes
  uri : Option Bytes
  library : Option Bytes
  procedure : Option Bytes
  deriving DecidableEq

/-- `nr_segment_type_t` with the member of the union that goes with it. -/
inductive NrSegmentType
  | custom
  | datastore (attributes : NrSegmentDatastore)
  | external (attributes : NrSegmentExternal)
  deriving DecidableEq

/-- `nr_segment_t` without the links to other segments, which the tree holds.
The address stands for the pointer to the segment. -/
structure NrSegment where
  address : ℕ
  type : NrSegmentType
  startTime : ℕ
  stopTime : ℕ
  name : ℕ
  asyncContext : ℕ
  id : Option Bytes
  /-- The text `nro_to_json` makes of the user attributes. -/
  userAttributes : Option Bytes
  priority : ℤ
  deriving DecidableEq

/-- A segment with nothing but its times and its context. -/
def plainSegment (address asyncContext startTime stopTime : ℕ) : NrSegment :=
  { address, type := .custom, startTime, stopTime, name := 0, asyncContext, id := none
    userAttributes := none, priority := 0 }

/-- What the passes over the tree read of `nrtxn_t`. -/
structure NrTxn where
  segmentRoot : Option (OrderedTree NrSegment)
  segmentCount : ℕ
  traceStrings : List Bytes
  discountMainContextBlocking : Bool
  ttThreshold : ℕ
  isSynthetics : Bool
  distributedTraceSampled : Bool
  distributedTracingEnabled : Bool
  spanEventsEnabled : Bool
  deriving DecidableEq

/-! ### Comparing and heaping segments -/

/-- The durations are differences of unsigned numbers. -/
def nrSegmentDurationComparator (a b : NrSegment) : ℤ :=
  let durationA := (a.stopTime + 2 ^ 64 - a.startTime) % 2 ^ 64
  let durationB := (b.stopTime + 2 ^ 64 - b.startTime) % 2 ^ 64
  if durationA < durationB then -1 else if durationA > durationB then 1 else 0

def nrSegmentSpanPriorityComparator (a b : NrSegment) : ℤ :=
  if a.priority > b.priority then 1
  else if a.priority < b.priority then -1
  else nrSegmentDurationComparator a b

def nrSegmentHeapCreate (bound : ℕ) : Option (NrMinmaxHeap NrSegment) :=
  nrMinmaxHeapCreate bound

/-! ### The first pass -/

/-- `nr_segment_tree_to_heap_metadata_t`, together with the field
`exclusive_time` of the segments by address and the values that the calls of
`nr_exclusive_time_add_child` returned so far, which the source drops. -/
structure TreeToHeapMetadata where
  traceHeap : Option (NrMinmaxHeap NrSegment)
  spanHeap : Option (NrMinmaxHeap NrSegment)
  totalTime : ℕ
  mainContext : Option NrExclusiveTime
  exclusiveTime : ℕ → Option NrExclusiveTime
  addChildResults : List Bool

namespace TreeToHeapMetadata

/-- Set up the exclusive time so that children can adjust it. -/
def setUp (m : TreeToHeapMetadata) (segment : NrSegment) (childrenSize : ℕ) :
    TreeToHeapMetadata :=
  { m with
    exclusiveTime := Function.update m.exclusiveTime segment.address
      (nrExclusiveTimeCreate childrenSize segment.startTime segment.stopTime) }

/-- `nr_exclusive_time_add_child (parent->exclusive_time, ...)`. -/
def addToParent (m : TreeToHeapMetadata) (parent segment : NrSegment) : TreeToHeapMetadata :=
  let (result, et) := nrExclusiveTimeAddChild (m.exclusiveTime parent.address)
    segment.startTime segment.stopTime
  { m with
    exclusiveTime := Function.update m.exclusiveTime parent.address et
    addChildResults := m.addChildResults ++ [result] }

/-- `nr_exclusive_time_add_child (metadata->main_context, ...)`. -/
def addToMainContext (m : TreeToHeapMetadata) (segment : NrSegment) : TreeToHeapMetadata :=
  let (result, et) := nrExclusiveTimeAddChild m.mainContext segment.startTime segment.stopTime
  { m with mainContext := et, addChildResults := m.addChildResults ++ [result] }

/-- Adjust the parent's exclusive time. -/
def adjustParent (m : TreeToHeapMetadata) (segment : NrSegment) :
    Option NrSegment → TreeToHeapMetadata
  | none => m
  | some parent =>
      if parent.asyncContext = segment.asyncContext then m.addToParent parent segment else m

/-- Adjust the main context exclusive time if necessary. -/
def adjustMainContext (m : TreeToHeapMetadata) (segment : NrSegment) : TreeToHeapMetadata :=
  if segment.asyncContext ≠ 0 ∧ m.mainContext.isSome then m.addToMainContext segment else m

def insertTrace (m : TreeToHeapMetadata) (segment : NrSegment) : TreeToHeapMetadata :=
  { m with traceHeap := m.traceHeap.map fun heap =>
      nrMinmaxHeapInsert nrSegmentDurationComparator heap segment }

def insertSpan (m : TreeToHeapMetadata) (segment : NrSegment) : TreeToHeapMetadata :=
  { m with spanHeap := m.spanHeap.map fun heap =>
      nrMinmaxHeapInsert nrSegmentSpanPriorityComparator heap segment }

end TreeToHeapMetadata

def nrSegmentStohIteratorCallback (parent : Option NrSegment) (segment : NrSegment)
    (childrenSize : ℕ) (m : TreeToHeapMetadata) : TreeToHeapMetadata × Bool :=
  let m := m.setUp segment childrenSize
  let m := m.adjustParent segment parent
  let m := m.adjustMainContext segment
  ((m.insertTrace segment).insertSpan segment, true)

/-- The metrics that the source adds here are left out. -/
def nrSegmentStohPostIteratorCallback (segment : NrSegment) (m : TreeToHeapMetadata) :
    TreeToHeapMetadata :=
  { m with totalTime :=
      (m.totalTime + nrExclusiveTimeCalculate (m.exclusiveTime segment.address)) % 2 ^ 64 }

/-- `nr_segment_iterate` on a tree. The colours of the segments only keep the
iteration from meeting a segment twice, which a tree excludes. -/
def nrSegmentIterate {σ : Type*} (callback : Option NrSegment → NrSegment → ℕ → σ → σ × Bool)
    (postCallback : NrSegment → σ → σ) (root : OrderedTree NrSegment) (userdata : σ) : σ :=
  root.toForest.walk callback postCallback none userdata

def nrSegmentTreeToHeap (root : OrderedTree NrSegment) (metadata : TreeToHeapMetadata) :
    TreeToHeapMetadata :=
  nrSegmentIterate nrSegmentStohIteratorCallback nrSegmentStohPostIteratorCallback root metadata

/-! ### The total time, `nr_segment_tree_finalise` -/

/-- `nr_txn_duration`. -/
def nrTxnDuration (txn : NrTxn) : ℕ :=
  match txn.segmentRoot with
  | none => 0
  | some root => nrTimeDuration root.root.startTime root.root.stopTime

def nrTxnShouldSaveTrace (txn : NrTxn) (duration : ℕ) : Bool :=
  if txn.segmentCount < 1 then false
  else if txn.isSynthetics then true
  else duration ≥ txn.ttThreshold

def nrTxnShouldCreateSpanEvents (txn : NrTxn) : Bool :=
  txn.distributedTraceSampled && txn.distributedTracingEnabled && txn.spanEventsEnabled

/-- `first_pass_metadata` before the first pass. -/
def firstPassStart (txn : NrTxn) (traceLimit spanLimit : ℕ) : TreeToHeapMetadata :=
  let duration := nrTxnDuration txn
  let shouldSaveTrace := decide (traceLimit > 0) && nrTxnShouldSaveTrace txn duration
  let shouldSampleTrace := decide (txn.segmentCount > traceLimit)
  let shouldSaveSpans := decide (spanLimit > 0) && nrTxnShouldCreateSpanEvents txn
  let shouldSampleSpans := decide (txn.segmentCount > spanLimit)
  { traceHeap := if shouldSaveTrace && shouldSampleTrace then nrSegmentHeapCreate traceLimit
      else none
    spanHeap := if shouldSaveSpans && shouldSampleSpans then nrSegmentHeapCreate spanLimit
      else none
    totalTime := 0
    mainContext :=
      if txn.discountMainContextBlocking then nrExclusiveTimeCreate txn.segmentCount 0 duration
      else none
    exclusiveTime := fun _ => none
    addChildResults := [] }

/-- `first_pass_metadata` after the first pass over the tree at `root`. -/
def firstPass (txn : NrTxn) (root : OrderedTree NrSegment) (traceLimit spanLimit : ℕ) :
    TreeToHeapMetadata :=
  nrSegmentTreeToHeap root (firstPassStart txn traceLimit spanLimit)

/-- `main_blocked`, computed from the structure of the main context. -/
def mainBlocked (txn : NrTxn) (mainContext : Option NrExclusiveTime) : ℕ :=
  (nrTxnDuration txn + 2 ^ 64 - nrExclusiveTimeCalculate mainContext) % 2 ^ 64

/-- `result.total_time` of `nr_segment_tree_finalise`. -/
def finaliseTotalTime (txn : NrTxn) (metadata : TreeToHeapMetadata) : ℕ :=
  if txn.discountMainContextBlocking then
    (metadata.totalTime + 2 ^ 64 - mainBlocked txn metadata.mainContext) % 2 ^ 64
  else metadata.totalTime

end AxiomDaemon.Axiom

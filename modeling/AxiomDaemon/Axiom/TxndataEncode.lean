import AxiomDaemon.Axiom.CommandMessage
import AxiomDaemon.Axiom.SpanEventJson
import AxiomDaemon.Axiom.TxnData
import AxiomDaemon.Axiom.TxndataMetric

/-!
The message of a transaction, `cmd_txndata_transmit.c`.

What is in the message is `DataTxn.nrTxndataEncode`, as far as the transaction is modelled.
Here it is how the message is written, with the metrics and with what other calls have left
in the transaction.
-/

namespace AxiomDaemon.Axiom

open AxiomDaemon.Lib AxiomDaemon.Lib.Flatbuffers AxiomDaemon.Util

/-! ### The fields -/

def eventFieldData : ℕ := 0

def eventNumFields : ℕ := 1

def errorFieldPriority : ℕ := 0

def errorFieldData : ℕ := 1

def errorNumFields : ℕ := 2

def slowsqlFieldId : ℕ := 0

def slowsqlFieldCount : ℕ := 1

def slowsqlFieldTotalMicros : ℕ := 2

def slowsqlFieldMinMicros : ℕ := 3

def slowsqlFieldMaxMicros : ℕ := 4

def slowsqlFieldMetric : ℕ := 5

def slowsqlFieldQuery : ℕ := 6

def slowsqlFieldParams : ℕ := 7

def slowsqlNumFields : ℕ := 8

def traceFieldTimestamp : ℕ := 0

def traceFieldDuration : ℕ := 1

def traceFieldGuid : ℕ := 2

def traceFieldForcePersist : ℕ := 3

def traceFieldData : ℕ := 4

def traceNumFields : ℕ := 5

def transactionFieldName : ℕ := 0

def transactionFieldUri : ℕ := 1

def transactionFieldSyntheticsResourceId : ℕ := 2

def transactionFieldPid : ℕ := 3

def transactionFieldTxnEvent : ℕ := 4

def transactionFieldMetrics : ℕ := 5

def transactionFieldErrors : ℕ := 6

def transactionFieldSlowSqls : ℕ := 7

def transactionFieldCustomEvents : ℕ := 8

def transactionFieldTrace : ℕ := 9

def transactionFieldErrorEvents : ℕ := 10

def transactionFieldSamplingPriority : ℕ := 11

def transactionFieldSpanEvents : ℕ := 12

def transactionNumFields : ℕ := 13

/-! ### What is sent -/

/-- What is sent of a transaction beside what `DataTxn` has: what `nr_txn_should_force_persist`
says of it, its metrics, its names, and the process that it ran in. -/
structure TxndataRest where
  distributedTrace : NrDistributedTrace
  forcePersist : Bool
  unscopedMetrics : NrmintTable
  scopedMetrics : NrmintTable
  syntheticsResourceId : Option Bytes
  requestUri : Option Bytes
  name : Option Bytes
  agentRunId : Option Bytes
  pid : BitVec 32

/-- A metric with its name, and whether it is in the table of the scoped metrics. -/
structure SentMetric where
  name : Option Bytes
  metric : NrmintMetric
  isScoped : Bool

/-- The metrics of a table. -/
def sentMetrics (table : NrmintTable) (isScoped : Bool) : List SentMetric :=
  (List.range table.number).map fun i =>
    { name := nrmGetName table i, metric := table.metric i, isScoped }

/-- The metrics of a transaction, in the order in which they are written. -/
def TxndataRest.metrics (rest : TxndataRest) : List SentMetric :=
  sentMetrics rest.unscopedMetrics false ++ sentMetrics rest.scopedMetrics true

/-- The trace of a transaction, with the numbers of its object. -/
structure SentTrace where
  data : Bytes
  guid : Option Bytes
  forcePersist : Bool
  durationMs : Double
  timestampMs : Double

/-- `NR_TIME_DIVISOR_MS_D`. -/
def nrTimeDivisorMsD : ℕ := 1000

/-- The trace, if there is one. The guid is `nr_txn_get_guid`. -/
def sentTrace (txn : DataTxn) (rest : TxndataRest) : Option SentTrace :=
  txn.finalData.traceJson.map fun data =>
    let root := txn.segments.segment txn.segments.segmentRoot
    { data
      guid := rest.distributedTrace.txnId
      forcePersist := rest.forcePersist
      durationMs :=
        (nrtimeToDouble (.ofNat (nrTimeDuration root.startTime root.stopTime))).div nrTimeDivisorMsD
      timestampMs := (nrtimeToDouble (.ofNat txn.segments.absStartTime)).div nrTimeDivisorMsD }

/-! ### The objects -/

def eventFields (data : ℕ) : List FieldWrite := [.uoffset eventFieldData data]

def errorFields (data : ℕ) (priority : ℤ) : List FieldWrite :=
  [.uoffset errorFieldData data, .scalar errorFieldPriority .i32 (.ofInt 32 priority)]

/-- The times are divided by `NR_TIME_DIVISOR_US`, which is 1. -/
def slowsqlFields (slow : NrSlowsql) (params query metric : ℕ) : List FieldWrite :=
  [.uoffset slowsqlFieldParams params, .uoffset slowsqlFieldQuery query,
    .uoffset slowsqlFieldMetric metric,
    .scalar slowsqlFieldMaxMicros .u64 slow.maxTime.toBitVec,
    .scalar slowsqlFieldMinMicros .u64 slow.minTime.toBitVec,
    .scalar slowsqlFieldTotalMicros .u64 slow.total.toBitVec,
    .scalar slowsqlFieldCount .i32 slow.count.toBitVec,
    .scalar slowsqlFieldId .u32 slow.sqlId.toBitVec]

def traceFields (trace : SentTrace) (data guid : ℕ) : List FieldWrite :=
  [.uoffset traceFieldData data, .uoffset traceFieldGuid guid,
    .bool traceFieldForcePersist trace.forcePersist,
    .scalar traceFieldDuration .f64 (doubleBits trace.durationMs),
    .scalar traceFieldTimestamp .f64 (doubleBits trace.timestampMs)]

/-- The offsets of the parts of a transaction. -/
structure TxnOffsets where
  trace : ℕ
  spanEvents : ℕ
  errorEvents : ℕ
  customEvents : ℕ
  slowsqls : ℕ
  errors : ℕ
  metrics : ℕ
  txnEvent : ℕ
  resourceId : ℕ
  requestUri : ℕ
  name : ℕ

/-- The fields of a transaction, in the order in which they are written. -/
def txnFields (rest : TxndataRest) (off : TxnOffsets) : List FieldWrite :=
  [.scalar transactionFieldSamplingPriority .f64 (doubleBits rest.distributedTrace.priority),
    .uoffset transactionFieldErrorEvents off.errorEvents,
    .uoffset transactionFieldTrace off.trace,
    .uoffset transactionFieldCustomEvents off.customEvents,
    .uoffset transactionFieldSlowSqls off.slowsqls,
    .uoffset transactionFieldErrors off.errors,
    .uoffset transactionFieldMetrics off.metrics,
    .uoffset transactionFieldTxnEvent off.txnEvent,
    .scalar transactionFieldPid .i32 rest.pid,
    .uoffset transactionFieldSyntheticsResourceId off.resourceId,
    .uoffset transactionFieldUri off.requestUri,
    .uoffset transactionFieldName off.name,
    .uoffset transactionFieldSpanEvents off.spanEvents]

section Write

variable (malloc : ℕ → ℕ)

/-- An event, given by its JSON text. -/
def prependEvent (json : Bytes) : Writing ℕ := do
  let data ← prependString malloc (some json)
  object malloc eventNumFields (eventFields data)

/-- `nr_txndata_prepend_custom_events`. -/
def nrTxndataPrependCustomEvents (customEvents : List Bytes) : Writing ℕ :=
  objectsReversed malloc (prependEvent malloc) customEvents.reverse

/-- The vector that `nr_txndata_prepend_span_events` makes of the texts. With a limit of 0
its last loop starts in front of the offsets. -/
def prependSpanEvents (dt : NrDistributedTrace) (spanEvents : List NrSpanEvent) (limit : ℕ) :
    Writing ℕ :=
  if spanEvents.length = 0 then pure 0
  else if limit = 0 then fun _ => none
  else objectsInOrder malloc (prependEvent malloc) (nrTxndataPrependSpanEvents dt spanEvents limit)

def prependError (error : Bytes × ℤ) : Writing ℕ := do
  let data ← prependString malloc (some error.1)
  object malloc errorNumFields (errorFields data error.2)

/-- `nr_txndata_prepend_errors`: there is one at most. -/
def nrTxndataPrependErrors (error : Option (Bytes × ℤ)) : Writing ℕ :=
  objectsInOrder malloc (prependError malloc) error.toList

/-- `nr_txndata_prepend_metrics`. -/
def nrTxndataPrependMetrics (metrics : List SentMetric) : Writing ℕ :=
  objectsReversed malloc (fun m => nrTxndataPrependMetric malloc m.name m.metric m.isScoped) metrics

def prependSlowsql (slow : NrSlowsql) : Writing ℕ := do
  let params ← prependString malloc (some (ascii slow.paramsJson))
  let query ← prependString malloc (some (ascii slow.sql))
  let metric ← prependString malloc (some (ascii slow.metricName))
  object malloc slowsqlNumFields (slowsqlFields slow params query metric)

/-- `nr_txndata_prepend_slowsqls`: the last one comes first in the vector. -/
def nrTxndataPrependSlowsqls (slowsqls : List NrSlowsql) : Writing ℕ :=
  objectsInOrder malloc (prependSlowsql malloc) slowsqls.reverse

/-- `nr_txndata_prepend_error_events`. -/
def nrTxndataPrependErrorEvents (event : Option Bytes) : Writing ℕ :=
  objectsInOrder malloc (prependEvent malloc) event.toList

def prependTrace (trace : SentTrace) : Writing ℕ := do
  let data ← prependString malloc (some trace.data)
  let guid ← prependString malloc trace.guid
  object malloc traceNumFields (traceFields trace data guid)

/-- `nr_txndata_prepend_trace_to_flatbuffer`. -/
def nrTxndataPrependTraceToFlatbuffer (trace : Option SentTrace) : Writing ℕ :=
  optionalObject (prependTrace malloc) trace

/-- `nr_txndata_prepend_txn_event`. -/
def nrTxndataPrependTxnEvent (event : Option Bytes) : Writing ℕ :=
  optionalObject (prependEvent malloc) event

/-- The text of `nr_txndata_prepend_request_uri`. -/
def sentRequestUri (requestUri : Option Bytes) : Bytes := requestUri.getD (ascii "<unknown>")

/-- The first lines of `nr_txndata_prepend_transaction`. -/
def prependTxnParts (texts : DataTxn.MessageTexts) (txn : DataTxn) (rest : TxndataRest) :
    Writing TxnOffsets := do
  let trace ← nrTxndataPrependTraceToFlatbuffer malloc (sentTrace txn rest)
  let spanEvents ← prependSpanEvents malloc rest.distributedTrace
    (txn.finalData.spanEvents.getD []) (txn.appLimits.spanEvents % 2 ^ 64).toNat
  let errorEvents ← nrTxndataPrependErrorEvents malloc (txn.nrErrorToEvent texts)
  let customEvents ← nrTxndataPrependCustomEvents malloc
    ((txn.customEvents.map NrAnalyticsEvents.events).getD [])
  let slowsqls ← nrTxndataPrependSlowsqls malloc
    ((txn.slowsqls.map NrSlowsqls.slowsqls).getD [])
  let errors ← nrTxndataPrependErrors malloc
    (txn.error.map fun error => (texts.error txn error, error.priority))
  let metrics ← nrTxndataPrependMetrics malloc rest.metrics
  let txnEvent ← nrTxndataPrependTxnEvent malloc (txn.nrTxnToEvent texts)
  let resourceId ← prependString malloc rest.syntheticsResourceId
  let requestUri ← prependString malloc (some (sentRequestUri rest.requestUri))
  let name ← prependString malloc rest.name
  pure
    { trace, spanEvents, errorEvents, customEvents, slowsqls, errors, metrics, txnEvent, resourceId
      requestUri, name }

/-- `nr_txndata_encode`, on the buffer that it creates. -/
def txndataMessage (texts : DataTxn.MessageTexts) (txn : DataTxn) (rest : TxndataRest) :
    Writing Unit := do
  let off ← prependTxnParts malloc texts txn rest
  let transaction ← object malloc transactionNumFields (txnFields rest off)
  let agentRunId ← prependString malloc rest.agentRunId
  finishMessage malloc messageBodyTxn transaction agentRunId

/-- `nr_txndata_encode`. -/
def nrTxndataEncode (texts : DataTxn.MessageTexts) (txn : DataTxn) (rest : TxndataRest) :
    Option Flatbuffer :=
  (txndataMessage malloc texts txn rest (nrFlatbuffersCreate malloc 0)).map Prod.snd

end Write

/-! ### What the message has -/

/-- The table of an object is at an offset. -/
def TableOf (fields : List FieldWrite) (off : ℕ) (buf : Bytes) : Prop :=
  (Piece.table (fieldsOf (fields.map FieldWrite.entry).reverse)).Holds buf off

def EventAt (json : Bytes) (off : ℕ) (buf : Bytes) : Prop :=
  ∃ data, TextIs buf data (some json) ∧ TableOf (eventFields data) off buf

def ErrorAt (error : Bytes × ℤ) (off : ℕ) (buf : Bytes) : Prop :=
  ∃ data, TextIs buf data (some error.1) ∧ TableOf (errorFields data error.2) off buf

def SlowsqlAt (slow : NrSlowsql) (off : ℕ) (buf : Bytes) : Prop :=
  ∃ params query metric, TextIs buf params (some (ascii slow.paramsJson)) ∧
    TextIs buf query (some (ascii slow.sql)) ∧ TextIs buf metric (some (ascii slow.metricName)) ∧
    TableOf (slowsqlFields slow params query metric) off buf

def TraceAt (trace : SentTrace) (off : ℕ) (buf : Bytes) : Prop :=
  ∃ data guid, TextIs buf data (some trace.data) ∧ TextIs buf guid trace.guid ∧
    TableOf (traceFields trace data guid) off buf

/-- The parts of a transaction are at their offsets. What is modelled of them is the abstract
message. -/
structure TxnParts (message : DataTxn.TxnMessage) (trace : Option SentTrace) (rest : TxndataRest)
    (off : TxnOffsets) (buf : Bytes) : Prop where
  trace : ObjectIs TraceAt trace off.trace buf
  spanEvents : ObjectsAre EventAt (message.spanEvents.map (spanEventText rest.distributedTrace))
    off.spanEvents buf
  errorEvents : ObjectsAre EventAt message.errorEvents off.errorEvents buf
  customEvents : ObjectsAre EventAt message.customEvents off.customEvents buf
  slowsqls : ObjectsAre SlowsqlAt message.slowSqls off.slowsqls buf
  errors : ObjectsAre ErrorAt message.errors off.errors buf
  metrics : ObjectsAre (fun m => MetricAt m.name m.metric m.isScoped) rest.metrics.reverse
    off.metrics buf
  txnEvent : ObjectIs EventAt message.txnEvent off.txnEvent buf
  resourceId : TextIs buf off.resourceId rest.syntheticsResourceId
  requestUri : TextIs buf off.requestUri (some (sentRequestUri rest.requestUri))
  name : TextIs buf off.name rest.name

/-- How much the objects add at most. -/
def eventCost (json : Bytes) : ℕ := textCost (some json) + 32

def errorCost (error : Bytes × ℤ) : ℕ := textCost (some error.1) + 44

def slowsqlCost (slow : NrSlowsql) : ℕ :=
  textCost (some (ascii slow.paramsJson)) + textCost (some (ascii slow.sql)) +
    textCost (some (ascii slow.metricName)) + 140

def traceCost (trace : SentTrace) : ℕ := textCost (some trace.data) + textCost trace.guid + 90

/-- How much room the parts of a transaction take at most. -/
def partsSize (message : DataTxn.TxnMessage) (trace : Option SentTrace) (rest : TxndataRest) : ℕ :=
  (trace.map traceCost).getD 0 +
    objectsCost eventCost (message.spanEvents.map (spanEventText rest.distributedTrace)) +
    objectsCost eventCost message.errorEvents + objectsCost eventCost message.customEvents.reverse +
    objectsCost slowsqlCost message.slowSqls + objectsCost errorCost message.errors +
    objectsCost (fun m => metricCost m.name) rest.metrics +
    (message.txnEvent.map eventCost).getD 0 + textCost rest.syntheticsResourceId +
    textCost (some (sentRequestUri rest.requestUri)) + textCost rest.name

/-- How much room a message takes at most. -/
def txndataSize (texts : DataTxn.MessageTexts) (txn : DataTxn) (rest : TxndataRest) : ℕ :=
  partsSize (txn.nrTxndataEncode texts) (sentTrace txn rest) rest + textCost rest.agentRunId + 270

section Rules

variable {malloc : ℕ → ℕ} (hmalloc : ∀ n, 4 ∣ malloc n) {fb : Flatbuffer}

include hmalloc

theorem reaches_closing (h : Ready fb) (numFields : ℕ) (indexes : List ℕ) (cost : ℕ)
    {fields : List FieldWrite} (hcount : numFields ≤ 32765)
    (hindexes : fields.map FieldWrite.index = indexes) (hnodup : indexes.Nodup)
    (hi : ∀ i ∈ indexes, i < numFields) (hcost : (fields.map FieldWrite.cost).sum = cost)
    (hshort : cost + 8 < 0xFFFF) (hx : ∀ w ∈ fields, w.offset ≤ fb.bytes.length) {top : ℕ}
    (htop : fb.bytes.length + (cost + (4 * numFields + 20)) ≤ top) (hlt : top < 2 ^ 30)
    {leaves : ℕ → Bytes → Prop} (hleaves : ∀ off buf, TableOf fields off buf → leaves off buf) :
    writing.Reaches top fb (object malloc numFields fields)
      (fun off fb' => Ready fb' ∧ off ≤ fb'.bytes.length) leaves :=
  (reaches_object hmalloc h numFields indexes cost hcount hindexes hnodup hi hcost hshort hx
    (htop.trans_lt hlt)).mono htop (fun _ _ _ ⟨hready, hoff, _⟩ => ⟨hready, hoff⟩) hleaves

theorem reaches_event (json : Bytes) (fb : Flatbuffer) (h : Ready fb)
    (hlt : fb.bytes.length + eventCost json < 2 ^ 30) :
    writing.Reaches (fb.bytes.length + eventCost json) fb (prependEvent malloc json)
      (fun off fb' => Ready fb' ∧ off ≤ fb'.bytes.length) (EventAt json) := by
  unfold eventCost at hlt ⊢
  refine reaches_prependString_bind hmalloc h _ (by omega) hlt fun data f1 h1 hdata _ l1 => ?_
  refine reaches_closing hmalloc h1 eventNumFields [0] 8 (by decide) rfl (by decide) (by decide)
    rfl (by decide) ?_ (show f1.bytes.length + 32 ≤ _ by omega) hlt ?_
  · simp [eventFields, FieldWrite.offset, hdata]
  · exact fun off buf htable htext => ⟨data, htext, htable⟩

theorem reaches_error (error : Bytes × ℤ) (fb : Flatbuffer) (h : Ready fb)
    (hlt : fb.bytes.length + errorCost error < 2 ^ 30) :
    writing.Reaches (fb.bytes.length + errorCost error) fb (prependError malloc error)
      (fun off fb' => Ready fb' ∧ off ≤ fb'.bytes.length) (ErrorAt error) := by
  unfold errorCost at hlt ⊢
  refine reaches_prependString_bind hmalloc h _ (by omega) hlt fun data f1 h1 hdata _ l1 => ?_
  refine reaches_closing hmalloc h1 errorNumFields [1, 0] 16 (by decide) rfl (by decide) (by decide)
    rfl (by decide) ?_ (show f1.bytes.length + 44 ≤ _ by omega) hlt ?_
  · simp [errorFields, FieldWrite.offset, hdata]
  · exact fun off buf htable htext => ⟨data, htext, htable⟩

theorem reaches_slowsql (slow : NrSlowsql) (fb : Flatbuffer) (h : Ready fb)
    (hlt : fb.bytes.length + slowsqlCost slow < 2 ^ 30) :
    writing.Reaches (fb.bytes.length + slowsqlCost slow) fb (prependSlowsql malloc slow)
      (fun off fb' => Ready fb' ∧ off ≤ fb'.bytes.length) (SlowsqlAt slow) := by
  unfold slowsqlCost at hlt ⊢
  refine reaches_prependString_bind hmalloc h _ (by omega) hlt fun params f1 h1 o1 a1 l1 => ?_
  refine reaches_prependString_bind hmalloc h1 _ (by omega) hlt fun query f2 h2 o2 a2 l2 => ?_
  refine reaches_prependString_bind hmalloc h2 _ (by omega) hlt fun metric f3 h3 o3 a3 l3 => ?_
  refine reaches_closing hmalloc h3 slowsqlNumFields [7, 6, 5, 4, 3, 2, 1, 0] 88 (by decide) rfl
    (by decide) (by decide) rfl (by decide) ?_ (show f3.bytes.length + 140 ≤ _ by omega) hlt ?_
  · simp [slowsqlFields, FieldWrite.offset]
    omega
  · exact fun off buf htable h3 h2 h1 => ⟨params, query, metric, h1, h2, h3, htable⟩

theorem reaches_trace (trace : SentTrace) (fb : Flatbuffer) (h : Ready fb)
    (hlt : fb.bytes.length + traceCost trace < 2 ^ 30) :
    writing.Reaches (fb.bytes.length + traceCost trace) fb (prependTrace malloc trace)
      (fun off fb' => Ready fb' ∧ off ≤ fb'.bytes.length) (TraceAt trace) := by
  unfold traceCost at hlt ⊢
  refine reaches_prependString_bind hmalloc h _ (by omega) hlt fun data f1 h1 o1 a1 l1 => ?_
  refine reaches_prependString_bind hmalloc h1 _ (by omega) hlt fun guid f2 h2 o2 a2 l2 => ?_
  refine reaches_closing hmalloc h2 traceNumFields [4, 2, 3, 1, 0] 50 (by decide) rfl (by decide)
    (by decide) rfl (by decide) ?_ (show f2.bytes.length + 90 ≤ _ by omega) hlt ?_
  · simp [traceFields, FieldWrite.offset]
    omega
  · exact fun off buf htable h2 h1 => ⟨data, guid, h1, h2, htable⟩

/-- There may be no span events, or room for some of them. -/
def SpanLimitOk (txn : DataTxn) : Prop :=
  txn.finalData.spanEvents.getD [] = [] ∨ txn.appLimits.spanEvents % 2 ^ 64 ≠ 0

theorem reaches_spanEvents (texts : DataTxn.MessageTexts) {txn : DataTxn} (hlimit : SpanLimitOk txn)
    (dt : NrDistributedTrace) (h : Ready fb)
    (hlt : fb.bytes.length + objectsCost eventCost
      ((txn.nrTxndataEncode texts).spanEvents.map (spanEventText dt)) < 2 ^ 30) :
    writing.Reaches (fb.bytes.length + objectsCost eventCost
        ((txn.nrTxndataEncode texts).spanEvents.map (spanEventText dt))) fb
      (prependSpanEvents malloc dt (txn.finalData.spanEvents.getD [])
        (txn.appLimits.spanEvents % 2 ^ 64).toNat)
      (fun off fb' => Ready fb' ∧ off ≤ fb'.bytes.length)
      (ObjectsAre EventAt ((txn.nrTxndataEncode texts).spanEvents.map (spanEventText dt))) := by
  have hall := reaches_objectsInOrder hmalloc (reaches_event hmalloc) h _ hlt
  unfold prependSpanEvents
  by_cases hnone : txn.finalData.spanEvents.getD [] = []
  · have hspans : (txn.nrTxndataEncode texts).spanEvents = [] := by
      show (txn.finalData.spanEvents.getD []).take _ = []
      rw [hnone, List.take_nil]
    rw [hspans] at hall ⊢
    rw [hnone]
    exact hall
  · have hne := hlimit.resolve_left hnone
    rw [if_neg fun hzero => hnone (List.length_eq_zero_iff.mp hzero), if_neg (by omega)]
    exact hall

theorem reaches_prependTxnParts (h : Ready fb) (texts : DataTxn.MessageTexts) {txn : DataTxn}
    (rest : TxndataRest) (hlimit : SpanLimitOk txn)
    (hlt : fb.bytes.length + partsSize (txn.nrTxndataEncode texts) (sentTrace txn rest) rest <
      2 ^ 30) :
    writing.Reaches
      (fb.bytes.length + partsSize (txn.nrTxndataEncode texts) (sentTrace txn rest) rest) fb
      (prependTxnParts malloc texts txn rest)
      (fun off fb' => Ready fb' ∧ ∀ w ∈ txnFields rest off, w.offset ≤ fb'.bytes.length)
      (TxnParts (txn.nrTxndataEncode texts) (sentTrace txn rest) rest) := by
  unfold partsSize at hlt ⊢
  have hevents := reaches_event hmalloc
  refine reaches_part (reaches_optionalObject (reaches_trace hmalloc) h _) (by omega) hlt
    fun o1 f1 h1 l1 a1 b1 => ?_
  refine reaches_part (reaches_spanEvents hmalloc texts hlimit _ h1) (by omega) hlt
    fun o2 f2 h2 l2 a2 b2 => ?_
  refine reaches_part (reaches_objectsInOrder hmalloc hevents h2
    (txn.nrTxndataEncode texts).errorEvents) (by omega) hlt fun o3 f3 h3 l3 a3 b3 => ?_
  refine reaches_part (reaches_objectsReversed hmalloc hevents h3
    (txn.nrTxndataEncode texts).customEvents.reverse) (by omega) hlt fun o4 f4 h4 l4 a4 b4 => ?_
  refine reaches_part (reaches_objectsInOrder hmalloc (reaches_slowsql hmalloc) h4
    (txn.nrTxndataEncode texts).slowSqls) (by omega) hlt fun o5 f5 h5 l5 a5 b5 => ?_
  refine reaches_part (reaches_objectsInOrder hmalloc (reaches_error hmalloc) h5
    (txn.nrTxndataEncode texts).errors) (by omega) hlt fun o6 f6 h6 l6 a6 b6 => ?_
  refine reaches_part (reaches_objectsReversed hmalloc (fun m fb h => reaches_metric hmalloc h
    m.name m.metric m.isScoped) h6 rest.metrics) (by omega) hlt fun o7 f7 h7 l7 a7 b7 => ?_
  refine reaches_part (reaches_optionalObject hevents h7
    (txn.nrTxndataEncode texts).txnEvent) (by omega) hlt fun o8 f8 h8 l8 a8 b8 => ?_
  refine reaches_prependString_bind hmalloc h8 _ (by omega) hlt fun o9 f9 h9 l9 a9 b9 => ?_
  refine reaches_prependString_bind hmalloc h9 _ (by omega) hlt fun o10 f10 h10 l10 a10 b10 => ?_
  refine reaches_prependString_bind hmalloc h10 _ (by omega) hlt fun o11 f11 h11 l11 a11 b11 => ?_
  refine Growth.Reaches.pure (by show f11.bytes.length ≤ _; omega) ⟨h11, ?_⟩ ?_
  · simp only [txnFields, List.forall_mem_cons, FieldWrite.offset, List.not_mem_nil,
      IsEmpty.forall_iff, implies_true, and_true]
    omega
  · intro buf t11 t10 t9 t8 t7 t6 t5 t4 t3 t2 t1
    rw [List.reverse_reverse] at t4
    exact ⟨t1, t2, t3, t4, t5, t6, t7, t8, t9, t10, t11⟩

end Rules

/-- A buffer that holds the message of a transaction. -/
structure SentTransaction (texts : DataTxn.MessageTexts) (txn : DataTxn) (rest : TxndataRest)
    (buf : Bytes) (root transaction runId : ℕ) (off : TxnOffsets) : Prop where
  long : minFlatbufferSize < root
  message : MessageAt buf root
    (fieldsOf ((messageFields messageBodyTxn transaction runId).map FieldWrite.entry).reverse)
  transaction : TableOf (txnFields rest off) transaction buf
  parts : TxnParts (txn.nrTxndataEncode texts) (sentTrace txn rest) rest off buf
  runId : TextIs buf runId rest.agentRunId

theorem nrTxndataEncode_spec {malloc : ℕ → ℕ} (hmalloc : ∀ n, 4 ∣ malloc n)
    {texts : DataTxn.MessageTexts} {txn : DataTxn} {rest : TxndataRest} (hlimit : SpanLimitOk txn)
    (hsize : txndataSize texts txn rest < 2 ^ 30) :
    ∃ message, nrTxndataEncode malloc texts txn rest = some message ∧
      message.bytes.length ≤ txndataSize texts txn rest ∧
      ∃ root transaction runId off,
        SentTransaction texts txn rest message.bytes root transaction runId off := by
  unfold txndataSize at hsize ⊢
  set size := partsSize (txn.nrTxndataEncode texts) (sentTrace txn rest) rest
  have hcreate : (nrFlatbuffersCreate malloc 0).bytes.length = 0 := rfl
  obtain ⟨off, f1, hrun1, _, b1, ⟨h1, hoffsets⟩, hview1⟩ := reaches_prependTxnParts hmalloc
    (ready_create malloc) texts rest hlimit (by omega)
  have b1 : f1.bytes.length ≤ 0 + size := b1
  obtain ⟨transaction, f2, hrun2, _, b2, ⟨h2, l2, _, _, hlong⟩, hview2⟩ := reaches_object hmalloc h1
    transactionNumFields [11, 10, 9, 8, 7, 6, 5, 4, 3, 2, 1, 0, 12] 112 (by decide) rfl (by decide)
    (by decide) rfl (by decide) hoffsets (show f1.bytes.length + 184 < 2 ^ 30 by omega)
  have b2 : f2.bytes.length ≤ f1.bytes.length + 184 := b2
  have hlong : 2 * 13 + 4 ≤ f2.bytes.length := hlong
  obtain ⟨runId, f3, hrun3, a3, b3, ⟨h3, l3⟩, hview3⟩ := reaches_prependString hmalloc h2
    rest.agentRunId (by omega)
  have a3 : f2.bytes.length ≤ f3.bytes.length := a3
  have b3 : f3.bytes.length ≤ f2.bytes.length + textCost rest.agentRunId := b3
  obtain ⟨_, message, hrun4, _, b4, ⟨root, hroot, hmessage⟩, hview4⟩ := reaches_finishMessage
    hmalloc h3 messageBodyTxn (l2.trans a3) l3 (by omega)
  have b4 : message.bytes.length ≤ f3.bytes.length + 70 := b4
  have hrun : txndataMessage malloc texts txn rest (nrFlatbuffersCreate malloc 0) =
      some ((), message) := by
    show (prependTxnParts malloc texts txn rest _).bind _ = _
    rw [hrun1]
    show (object malloc transactionNumFields _ f1).bind _ = _
    rw [hrun2]
    show (prependString malloc _ f2).bind _ = _
    rw [hrun3]
    exact hrun4
  have hsuffix3 := (hview4 message.bytes List.suffix_rfl).1
  have hsuffix2 := hview3 message.bytes hsuffix3
  have hsuffix1 := hview2 message.bytes hsuffix2.1
  refine ⟨message, ?_, by omega, root, transaction, runId, off, ?_, hmessage, hsuffix1.2,
    (hview1 message.bytes hsuffix1.1).2, hsuffix2.2⟩
  · unfold nrTxndataEncode
    rw [hrun]
    rfl
  · unfold minFlatbufferSize
    omega

end AxiomDaemon.Axiom

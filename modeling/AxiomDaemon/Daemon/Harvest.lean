import AxiomDaemon.Daemon.Collections
import AxiomDaemon.Daemon.MetricTable

/-!
The harvest of one application: what a transaction adds to it
(`commands.go`), the metrics that are derived from it (`harvest.go`), and the
payloads that a trigger makes of it (`processor.go`).

A payload is a pointer to a collection. Most collections are replaced in the
harvest when they become a payload, so that nothing refers to them any more
than the payload; they are held by value. The span events of a harvest that
is triggered for its default data are sent without being replaced, and are
from then on the harvest's and the payload's at the same time. They are held
in a store, by reference.
-/

namespace AxiomDaemon.Daemon

open AxiomDaemon.Lib

variable {ι C : Type}

/-! ### The span event reservoirs -/

abbrev SpanRef := Nat

/-- The reservoirs of span events that were made so far. -/
structure SpanStore (ι : Type) where
  reservoir : SpanRef → AnalyticsEvents ι
  next : SpanRef

namespace SpanStore

/-- `NewSpanEvents`; the new reservoir is at `next`. -/
def alloc (store : SpanStore ι) (max : Nat) : SpanStore ι where
  reservoir := Function.update store.reservoir store.next (newAnalyticsEvents max)
  next := store.next + 1

def modify (store : SpanStore ι) (r : SpanRef) (f : AnalyticsEvents ι → AnalyticsEvents ι) :
    SpanStore ι :=
  { store with reservoir := Function.update store.reservoir r (f (store.reservoir r)) }

/-- The loop of `Merge` between two reservoirs that may be the same one: the
number of rounds is fixed at the start, the events are read as they are by
then. -/
def mergeLoop (dst src : SpanRef) : List Nat → SpanStore ι → SpanStore ι
  | [], store => store
  | i :: is, store =>
      match (store.reservoir src).events[i]? with
      | none => mergeLoop dst src is store
      | some e => mergeLoop dst src is (store.modify dst fun evs => evs.addEvent e)

/-- `Merge`. -/
def merge (store : SpanStore ι) (dst src : SpanRef) : SpanStore ι :=
  let allSeen := (store.reservoir dst).numSeen + (store.reservoir src).numSeen
  (mergeLoop dst src (List.range (store.reservoir src).events.length) store).modify dst
    fun evs => { evs with numSeen := allSeen }

/-- `MergeFailed`. -/
def mergeFailed (store : SpanStore ι) (dst src : SpanRef) : SpanStore ι :=
  let fails := (store.reservoir src).failedHarvests + 1
  if fails > failedEventsAttemptsLimit then store
  else (store.modify dst fun evs => { evs with failedHarvests := fails }).merge dst src

end SpanStore

/-! ### The harvest -/

/-- The limits of `collector.EventConfigs`. -/
structure EventConfigs where
  errorEventLimit : Nat
  analyticEventLimit : Nat
  customEventLimit : Nat
  spanEventLimit : Nat

inductive SystemCertPoolState
  | missing
  | available
  | ignored
deriving DecidableEq, Repr

/-- What the connect reply and the daemon's set-up say about the harvests of
an application. -/
structure HarvestConfig where
  reportPeriod : Nat
  eventConfigs : EventConfigs
  rules : MetricRules
  splitLargePayloads : Bool
  certPoolState : SystemCertPoolState

structure Harvest (ι C : Type) where
  metrics : MetricTable (MetricData Float)
  errors : ErrorHeap ι
  slowSQLs : SlowSQLs C
  txnTraces : TxnTraces ι
  txnEvents : AnalyticsEvents ι
  customEvents : AnalyticsEvents ι
  errorEvents : AnalyticsEvents ι
  spanEvents : SpanRef
  commandsProcessed : Nat
  pidSet : List Int

/-- `NewHarvest`. -/
def newHarvest (now : Int) (hl : EventConfigs) (spanEvents : SpanRef) : Harvest ι C where
  metrics := newMetricTable maxMetrics now
  errors := newErrorHeap maxErrors
  slowSQLs := newSlowSQLs maxSlowSQLs
  txnTraces := newTxnTraces
  txnEvents := newAnalyticsEvents hl.analyticEventLimit
  customEvents := newAnalyticsEvents hl.customEventLimit
  errorEvents := newAnalyticsEvents hl.errorEventLimit
  spanEvents := spanEvents
  commandsProcessed := 0
  pidSet := []

/-! ### Metrics by value and by count -/

namespace MetricTable

/-- `AddCount`. -/
def addCount (mt : MetricTable (MetricData Float)) (name scope : String) (count : Float)
    (force : MetricForce) : MetricTable (MetricData Float) :=
  mt.mergeMetric ⟨name, scope⟩ ⟨force,
    { countSatisfied := count, totalTolerated := 0, exclusiveFailed := 0, min := 0, max := 0,
      sumSquares := 0 }⟩

/-- `AddValue`. -/
def addValue (mt : MetricTable (MetricData Float)) (name scope : String) (value : Float)
    (force : MetricForce) : MetricTable (MetricData Float) :=
  mt.mergeMetric ⟨name, scope⟩ ⟨force,
    { countSatisfied := 1, totalTolerated := value, exclusiveFailed := 0, min := value,
      max := value, sumSquares := value * value }⟩

end MetricTable

namespace Harvest

def empty (h : Harvest ι C) (store : SpanStore ι) : Bool :=
  h.pidSet.isEmpty && h.customEvents.empty && h.errorEvents.empty &&
    (store.reservoir h.spanEvents).empty && h.errors.empty && h.metrics.empty &&
    h.slowSQLs.empty && h.txnEvents.empty && h.txnTraces.empty

/-- The metric that tells whether the system's certificates were found. -/
def addCertificates (mt : MetricTable (MetricData Float)) :
    SystemCertPoolState → MetricTable (MetricData Float)
  | .missing => mt.addCount "Supportability/PHP/SystemCertificates/Unavailable" "" 1 .forced
  | .available => mt.addCount "Supportability/PHP/SystemCertificates/Available" "" 1 .forced
  | .ignored => mt

/-- `createFinalMetrics`. -/
def createFinalMetrics (h : Harvest ι C) (store : SpanStore ι) (cfg : HarvestConfig) :
    Harvest ι C :=
  if h.empty store then h
  else
    let spanEvents := store.reservoir h.spanEvents
    let pidSetSize := if 0 = h.pidSet.length then 1 else h.pidSet.length
    let count := fun (mt : MetricTable (MetricData Float)) (name : String) (n : Nat) =>
      mt.addCount name "" (Float.ofNat n) .forced
    let mt := count h.metrics "Instance/Reporting" pidSetSize
    let mt := count mt "Supportability/Events/Customer/Seen" h.customEvents.numSeen
    let mt := count mt "Supportability/Events/Customer/Sent" h.customEvents.events.length
    let mt := count mt "Supportability/AnalyticsEvents/TotalEventsSeen" h.txnEvents.numSeen
    let mt := count mt "Supportability/AnalyticsEvents/TotalEventsSent" h.txnEvents.events.length
    let mt := count mt "Supportability/Events/TransactionError/Seen" h.errorEvents.numSeen
    let mt := count mt "Supportability/Events/TransactionError/Sent" h.errorEvents.events.length
    let mt :=
      if mt.numDropped > 0 then count mt "Supportability/MetricsDropped" mt.numDropped else mt
    let mt := count mt "Supportability/SpanEvent/TotalEventsSeen" spanEvents.numSeen
    let mt := count mt "Supportability/SpanEvent/TotalEventsSent" spanEvents.events.length
    let mt := addCertificates mt cfg.certPoolState
    let mt := count mt "Supportability/EventHarvest/ReportPeriod" cfg.reportPeriod
    let mt := count mt "Supportability/EventHarvest/AnalyticEventData/HarvestLimit"
      cfg.eventConfigs.analyticEventLimit
    let mt := count mt "Supportability/EventHarvest/CustomEventData/HarvestLimit"
      cfg.eventConfigs.customEventLimit
    let mt := count mt "Supportability/EventHarvest/ErrorEventData/HarvestLimit"
      cfg.eventConfigs.errorEventLimit
    let mt := count mt "Supportability/EventHarvest/SpanEventData/HarvestLimit"
      cfg.eventConfigs.spanEventLimit
    { h with metrics := mt }

end Harvest

/-! ### Transactions -/

/-- A metric of a transaction; a scoped one is added twice. -/
structure FlatMetric where
  name : String
  data : MetricData Float
  forced : Bool
  isScoped : Bool

/-- The trace of a transaction; `size` is the length of its data. -/
structure FlatTrace (ι : Type) where
  size : Nat
  durationMillis : Float
  forcePersist : Bool
  data : ι

/-- `FlatTxn`: a transaction as the agent sent it, decoded. The statements of
`slowSQLs` get the transaction's name and URI when they are observed. -/
structure FlatTxn (ι C : Type) where
  size : Nat
  name : String
  uri : String
  samplingPriority : Float
  syntheticsResourceID : String
  pid : Int
  txnEvent : Option ι
  metrics : List FlatMetric
  errors : List (TracedError ι)
  slowSQLs : List (SlowSQL C)
  customEvents : List ι
  spanEvents : List ι
  trace : Option (FlatTrace ι)
  errorEvents : List ι

namespace FlatTxn

/-- The events of a list, all with the priority of the transaction. -/
def events (t : FlatTxn ι C) (data : List ι) : List (AnalyticsEvent ι) :=
  data.map fun d => ⟨t.samplingPriority, d⟩

/-- The supportability metrics of every transaction. -/
def sizeMetrics (t : FlatTxn ι C) (mt : MetricTable (MetricData Float)) :
    MetricTable (MetricData Float) :=
  let value := fun (mt : MetricTable (MetricData Float)) (name : String) (n : Nat) =>
    mt.addValue name "" (Float.ofNat n) .forced
  let mt := value mt "Supportability/TxnData/Size" t.size
  let mt := value mt "Supportability/TxnData/CustomEvents" t.customEvents.length
  let mt := value mt "Supportability/TxnData/Metrics" t.metrics.length
  value mt "Supportability/TxnData/SlowSQL" t.slowSQLs.length

/-- `aggregateMetrics`. -/
def aggregateMetrics (t : FlatTxn ι C) (mt : MetricTable (MetricData Float)) :
    MetricTable (MetricData Float) :=
  t.metrics.foldl (fun mt m =>
    let metric : Metric (MetricData Float) := ⟨if m.forced then .forced else .unforced, m.data⟩
    let mt := mt.mergeMetric ⟨m.name, ""⟩ metric
    if m.isScoped then mt.mergeMetric ⟨m.name, t.name⟩ metric else mt) mt

/-- The event of the transaction. One of a synthetics transaction outranks
every other. -/
def aggregateTxnEvent (t : FlatTxn ι C) (evs : AnalyticsEvents ι) : AnalyticsEvents ι :=
  match t.txnEvent with
  | none => evs
  | some data =>
      if t.syntheticsResourceID = "" then evs.addEvent ⟨t.samplingPriority, data⟩
      else evs.addEvent ⟨2 + t.samplingPriority, data⟩

def aggregateSlowSQLs [Add C] (t : FlatTxn ι C) (slows : SlowSQLs C) : SlowSQLs C :=
  t.slowSQLs.foldl (fun slows slow =>
    slows.observe { slow with txnName := t.name, txnURL := t.uri }) slows

/-- The trace as the daemon keeps it. -/
def txnTrace (t : FlatTxn ι C) (trace : FlatTrace ι) : TxnTrace ι where
  durationMillis := trace.durationMillis
  data := trace.data
  forcePersist := trace.forcePersist
  syntheticsResourceID := t.syntheticsResourceID

def aggregateTrace (t : FlatTxn ι C) (traces : TxnTraces ι) : TxnTraces ι :=
  match t.trace with
  | none => traces
  | some trace =>
      if traces.isKeeper (t.txnTrace trace) then traces.addTxnTrace (t.txnTrace trace) else traces

def traceSizeMetric (t : FlatTxn ι C) (mt : MetricTable (MetricData Float)) :
    MetricTable (MetricData Float) :=
  match t.trace with
  | none => mt
  | some trace =>
      mt.addValue "Supportability/TxnData/TraceSize" "" (Float.ofNat trace.size) .forced

/-- `AggregateInto`, except the span events. -/
def aggregateInto [Add C] (t : FlatTxn ι C) (h : Harvest ι C) : Harvest ι C :=
  { h with
    metrics := t.traceSizeMetric (t.aggregateMetrics (t.sizeMetrics h.metrics))
    pidSet := if t.pid ∈ h.pidSet then h.pidSet else t.pid :: h.pidSet
    txnEvents := t.aggregateTxnEvent h.txnEvents
    errors := t.errors.foldl ErrorHeap.addError h.errors
    slowSQLs := t.aggregateSlowSQLs h.slowSQLs
    customEvents := h.customEvents.addEvents (t.events t.customEvents)
    txnTraces := t.aggregateTrace h.txnTraces
    errorEvents := h.errorEvents.addEvents (t.events t.errorEvents) }

end FlatTxn

/-! ### Payloads -/

/-- `PayloadCreator`: a collection that is sent to the collector. -/
inductive Payload (ι C : Type)
  | metrics (mt : MetricTable (MetricData Float))
  | customEvents (evs : AnalyticsEvents ι)
  | errorEvents (evs : AnalyticsEvents ι)
  | errors (h : ErrorHeap ι)
  | slowSQLs (slows : SlowSQLs C)
  | txnTraces (traces : TxnTraces ι)
  | txnEvents (evs : AnalyticsEvents ι)
  | spanEvents (r : SpanRef)

/-- `Empty`. -/
def Payload.empty (store : SpanStore ι) : Payload ι C → Bool
  | .metrics mt => mt.empty
  | .customEvents evs => evs.empty
  | .errorEvents evs => evs.empty
  | .errors h => h.empty
  | .slowSQLs slows => slows.empty
  | .txnTraces traces => traces.empty
  | .txnEvents evs => evs.empty
  | .spanEvents r => (store.reservoir r).empty

/-- `considerHarvestPayload`: the requests it starts. -/
def considerHarvestPayload (store : SpanStore ι) (p : Payload ι C) : List (Payload ι C) :=
  if p.empty store then [] else [p]

/-- `limits.MaxTxnEvents`. -/
def maxTxnEvents : Nat := 10 * 1000

/-- `considerHarvestPayloadTxnEvents`. -/
def considerHarvestPayloadTxnEvents (cfg : HarvestConfig) (store : SpanStore ι)
    (evs : AnalyticsEvents ι) : List (Payload ι C) :=
  if cfg.splitLargePayloads && decide (evs.events.length ≥ maxTxnEvents / 2) then
    considerHarvestPayload store (.txnEvents evs.split.1) ++
      considerHarvestPayload store (.txnEvents evs.split.2)
  else considerHarvestPayload store (.txnEvents evs)

/-- The metrics of a harvest as they are sent: with the derived ones, and
renamed. -/
def finalMetrics (cfg : HarvestConfig) (order : MapOrder) (store : SpanStore ι)
    (h : Harvest ι C) : MetricTable (MetricData Float) :=
  (h.createFinalMetrics store cfg).metrics.applyRules cfg.rules order

/-- `harvestAll`. -/
def harvestAll (cfg : HarvestConfig) (order : MapOrder) (store : SpanStore ι)
    (h : Harvest ι C) : List (Payload ι C) :=
  considerHarvestPayload store (.metrics (finalMetrics cfg order store h)) ++
    considerHarvestPayload store (.customEvents h.customEvents) ++
    considerHarvestPayload store (.errorEvents h.errorEvents) ++
    considerHarvestPayload store (.errors h.errors) ++
    considerHarvestPayload store (.slowSQLs h.slowSQLs) ++
    considerHarvestPayload store (.txnTraces h.txnTraces) ++
    considerHarvestPayloadTxnEvents cfg store h.txnEvents ++
    considerHarvestPayload store (.spanEvents h.spanEvents)

/-! ### Harvesting by type -/

/-- `HarvestType`: a set of kinds of data. -/
abbrev HarvestType := BitVec 8

def harvestMetrics : HarvestType := 1 <<< 0
def harvestErrors : HarvestType := 1 <<< 1
def harvestSlowSQLs : HarvestType := 1 <<< 2
def harvestTxnTraces : HarvestType := 1 <<< 3
def harvestTxnEvents : HarvestType := 1 <<< 4
def harvestCustomEvents : HarvestType := 1 <<< 5
def harvestErrorEvents : HarvestType := 1 <<< 6
def harvestSpanEvents : HarvestType := 1 <<< 7

def harvestDefaultData : HarvestType :=
  harvestMetrics ||| harvestErrors ||| harvestSlowSQLs ||| harvestTxnTraces

def harvestAllTypes : HarvestType :=
  harvestDefaultData ||| harvestTxnEvents ||| harvestCustomEvents ||| harvestErrorEvents |||
    harvestSpanEvents

/-- `ht & kind == kind`. -/
def HarvestType.has (ht kind : HarvestType) : Bool := ht &&& kind == kind

/-- The data of one application: its live harvest, its span event reservoirs,
and the payloads that are under way. -/
structure AppData (ι C : Type) where
  harvest : Harvest ι C
  spans : SpanStore ι
  inflight : List (Payload ι C)

namespace AppData

/-- The requests for a list of payloads are started. -/
def send (d : AppData ι C) (ps : List (Payload ι C)) : AppData ι C :=
  { d with inflight := d.inflight ++ ps }

/-- Everything is harvested. -/
def harvestEverything (cfg : HarvestConfig) (now : Int) (order : MapOrder) (d : AppData ι C) :
    AppData ι C :=
  { d with
    harvest := newHarvest now cfg.eventConfigs d.spans.next
    spans := d.spans.alloc cfg.eventConfigs.spanEventLimit }.send
      (harvestAll cfg order d.spans d.harvest)

/-- The first type: data without a reporting period of its own. The span
events are sent too, and stay where they are. -/
def harvestDefault (cfg : HarvestConfig) (now : Int) (order : MapOrder) (d : AppData ι C) :
    AppData ι C :=
  let metrics := finalMetrics cfg order d.spans d.harvest
  { d with
    harvest := { d.harvest with
      metrics := newMetricTable maxMetrics now
      errors := newErrorHeap maxErrors
      slowSQLs := newSlowSQLs maxSlowSQLs
      txnTraces := newTxnTraces
      commandsProcessed := 0
      pidSet := [] } }.send
    (considerHarvestPayload d.spans (.metrics metrics) ++
      considerHarvestPayload d.spans (.errors d.harvest.errors) ++
      considerHarvestPayload d.spans (.slowSQLs d.harvest.slowSQLs) ++
      considerHarvestPayload d.spans (.txnTraces d.harvest.txnTraces) ++
      considerHarvestPayload d.spans (.spanEvents d.harvest.spanEvents))

def harvestCustom (cfg : HarvestConfig) (d : AppData ι C) : AppData ι C :=
  { d with harvest := { d.harvest with
      customEvents := newAnalyticsEvents cfg.eventConfigs.customEventLimit } }.send
    (considerHarvestPayload d.spans (.customEvents d.harvest.customEvents))

def harvestErrorEvts (cfg : HarvestConfig) (d : AppData ι C) : AppData ι C :=
  { d with harvest := { d.harvest with
      errorEvents := newAnalyticsEvents cfg.eventConfigs.errorEventLimit } }.send
    (considerHarvestPayload d.spans (.errorEvents d.harvest.errorEvents))

def harvestTxn (cfg : HarvestConfig) (d : AppData ι C) : AppData ι C :=
  { d with harvest := { d.harvest with
      txnEvents := newAnalyticsEvents cfg.eventConfigs.analyticEventLimit } }.send
    (considerHarvestPayloadTxnEvents cfg d.spans d.harvest.txnEvents)

def harvestSpans (cfg : HarvestConfig) (d : AppData ι C) : AppData ι C :=
  { d with
    harvest := { d.harvest with spanEvents := d.spans.next }
    spans := d.spans.alloc cfg.eventConfigs.spanEventLimit }.send
      (considerHarvestPayload d.spans (.spanEvents d.harvest.spanEvents))

/-- `harvestByType`. -/
def harvestByType (cfg : HarvestConfig) (now : Int) (order : MapOrder) (ht : HarvestType)
    (d : AppData ι C) : AppData ι C :=
  if ht.has harvestAllTypes then harvestEverything cfg now order d
  else
    let d := if ht.has harvestDefaultData then harvestDefault cfg now order d else d
    let d :=
      if ht.has harvestCustomEvents && decide (cfg.eventConfigs.customEventLimit ≠ 0)
      then harvestCustom cfg d else d
    let d :=
      if ht.has harvestErrorEvents && decide (cfg.eventConfigs.errorEventLimit ≠ 0)
      then harvestErrorEvts cfg d else d
    let d :=
      if ht.has harvestTxnEvents && decide (cfg.eventConfigs.analyticEventLimit ≠ 0)
      then harvestTxn cfg d else d
    if ht.has harvestSpanEvents && decide (cfg.eventConfigs.spanEventLimit ≠ 0)
    then harvestSpans cfg d else d

/-- `FailedHarvest` of a payload. Errors, slow SQLs and traces are discarded
after one failed attempt. -/
def failedHarvest (d : AppData ι C) (order : MapOrder) : Payload ι C → AppData ι C
  | .metrics mt =>
      { d with harvest := { d.harvest with metrics := d.harvest.metrics.mergeFailed mt order } }
  | .customEvents evs =>
      { d with harvest := { d.harvest with
          customEvents := d.harvest.customEvents.mergeFailed evs } }
  | .errorEvents evs =>
      { d with harvest := { d.harvest with errorEvents := d.harvest.errorEvents.mergeFailed evs } }
  | .txnEvents evs =>
      { d with harvest := { d.harvest with txnEvents := d.harvest.txnEvents.mergeFailed evs } }
  | .spanEvents r => { d with spans := d.spans.mergeFailed d.harvest.spanEvents r }
  | .errors _ => d
  | .slowSQLs _ => d
  | .txnTraces _ => d

/-- `processTxnData` and `AggregateInto`. -/
def aggregate [Add C] (d : AppData ι C) (t : FlatTxn ι C) : AppData ι C :=
  { d with
    harvest := { t.aggregateInto d.harvest with
      commandsProcessed := d.harvest.commandsProcessed + 1 }
    spans := d.spans.modify d.harvest.spanEvents fun evs =>
      evs.addEvents (t.events t.spanEvents) }

end AppData

end AxiomDaemon.Daemon

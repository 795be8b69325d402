import AxiomDaemon.Axiom.SegmentDatastore
import AxiomDaemon.Axiom.TxnSecurity
import AxiomDaemon.Axiom.TxnSegments

/-!
A transaction from `nr_txn_begin` to the message that `nr_txndata_encode` makes
of it: its segments, its error, its custom events and its slow statements.

Metrics are left out. The texts of events and errors are parameters, and so is
what the end of the transaction finds that is not modelled: the name that the
freeze makes, and what headers and other calls have left.
-/

namespace AxiomDaemon.Axiom

open AxiomDaemon.Lib AxiomDaemon.Util

/-! ### Errors and events -/

/-- `nr_error_t`. -/
structure NrError where
  priority : ℤ
  message : Bytes
  klass : Bytes
  stacktraceJson : Bytes
  when_ : ℕ
  deriving DecidableEq

/-- `NR_TXN_HIGH_SECURITY_ERROR_MESSAGE`. -/
def nrTxnHighSecurityErrorMessage : Bytes :=
  ascii "Message removed by New Relic high_security setting"

/-- `NR_TXN_ALLOW_RAW_EXCEPTION_MESSAGE`. -/
def nrTxnAllowRawExceptionMessage : Bytes :=
  ascii "Message removed by New Relic security settings"

/-- `nr_analytics_events_t`. An event is its JSON text. -/
structure NrAnalyticsEvents where
  eventsAllocated : ℕ
  eventsSeen : ℕ
  events : List Bytes
  deriving DecidableEq

/-- `nr_analytics_events_create`. -/
def nrAnalyticsEventsCreate (maxEvents : ℤ) : Option NrAnalyticsEvents :=
  if maxEvents ≤ 0 then none
  -- NR_ANALYTICS_EVENTS_MAX_EVENTS_SANITY_CHECK
  else if maxEvents > 10 * 1000 * 1000 then none
  else some { eventsAllocated := maxEvents.toNat, eventsSeen := 0, events := [] }

/-- `nr_analytics_events_add_event`; `range` is `nr_random_range`. -/
def nrAnalyticsEventsAddEvent (events : Option NrAnalyticsEvents) (event : Bytes)
    (range : ℕ → ℤ) : Option NrAnalyticsEvents :=
  events.map fun events =>
    let events := { events with eventsSeen := events.eventsSeen + 1 }
    if events.events.length < events.eventsAllocated then
      { events with events := events.events ++ [event] }
    else
      let replaceIdx := range events.eventsSeen
      if 0 ≤ replaceIdx ∧ replaceIdx < events.eventsAllocated then
        { events with events := events.events.set replaceIdx.toNat event }
      else events

/-- `nr_custom_event_valid_event_type_chars`. -/
def nrCustomEventValidEventTypeChars : Bytes :=
  ascii "abcdefghijklmnopqrstuvwxyzABCDEFGHIJKLMNOPQRSTUVWXYZ0123456789:_ "

/-- `nr_custom_events_valid_event_type`. -/
def nrCustomEventsValidEventType (type : Option Bytes) : Bool :=
  match type with
  | none => false
  -- NR_ATTRIBUTE_KEY_LENGTH_LIMIT
  | some type =>
      decide (type.length ≤ 255) && !type.isEmpty &&
        type.all fun b => b ∈ nrCustomEventValidEventTypeChars

/-- `nr_custom_events_add_event`. `event` is the text that the type and the
parameters make, `none` for parameters that are `NULL`. -/
def nrCustomEventsAddEvent (customEvents : Option NrAnalyticsEvents) (type event : Option Bytes)
    (range : ℕ → ℤ) : Option NrAnalyticsEvents :=
  match event with
  | none => customEvents
  | some event =>
      if !nrCustomEventsValidEventType type then customEvents
      else nrAnalyticsEventsAddEvent customEvents event range

/-! ### The transaction -/

/-- `nrtxn_t`. `types` has the type of a segment with the attributes that go with
it. -/
structure DataTxn where
  options : Nrtxnopt
  highSecurity : Bool
  noSqlParsing : Bool
  appLimits : NrAppLimits
  segments : SegmentTxn
  types : ℕ → NrSegmentType
  traceStrings : NrPool
  datastoreProducts : NrPool
  slowsqls : Option NrSlowsqls
  error : Option NrError
  customEvents : Option NrAnalyticsEvents
  finalData : FinalData

/-- What `nr_txn_begin` is called with, and what the clock says then. -/
structure TxnBegin where
  app : SecuredApp
  opts : Nrtxnopt
  noSqlParsing : Bool
  absStartTime : ℕ
  now : ℕ

namespace DataTxn

/-- `nr_txn_begin`, for an application that is connected. -/
def nrTxnBegin (b : TxnBegin) : DataTxn :=
  { options := beginOptions b.app b.opts
    highSecurity := b.app.highSecurity
    noSqlParsing := b.noSqlParsing
    appLimits := b.app.limits
    segments := Axiom.nrTxnBegin b.absStartTime b.now
    types := fun _ => .custom
    traceStrings := []
    datastoreProducts := []
    -- NR_TXN_MAX_SLOWSQLS
    slowsqls := nrSlowsqlsCreate 10
    error := none
    customEvents := nrAnalyticsEventsCreate b.app.limits.customEvents
    finalData := { traceJson := none, spanEvents := none } }

variable (txn : DataTxn)

/-! ### Calls on segments -/

/-- `nr_segment_start`. -/
def nrSegmentStart (parent : Option ℕ) (asyncContext : Option Bytes) (now : ℕ) : DataTxn :=
  if !txn.segments.recording then txn
  else
    match asyncContext with
    | none => { txn with segments := (Axiom.nrSegmentStart txn.segments parent none now).2 }
    | some context =>
        let (traceStrings, idx) := nrStringAdd txn.traceStrings context
        { txn with
          traceStrings
          segments := (Axiom.nrSegmentStart txn.segments parent (some idx) now).2 }

/-- `nr_segment_set_name`. -/
def nrSegmentSetName (segment : ℕ) (name : Bytes) : DataTxn :=
  let (traceStrings, idx) := nrStringAdd txn.traceStrings name
  { txn with traceStrings, segments := Axiom.nrSegmentSetName txn.segments segment idx }

/-- `nr_segment_external_end`. `metric` is the name of the metric of the call. -/
def nrSegmentExternalEnd (segment : ℕ) (attributes : NrSegmentExternal) (metric : Bytes)
    (doRollup : Bool) (now : ℕ) : DataTxn :=
  let (traceStrings, idx) := nrStringAdd txn.traceStrings metric
  { txn with
    traceStrings
    types := Function.update txn.types segment (.external attributes)
    segments :=
      (Axiom.nrSegmentExternalEnd txn.segments segment { doRollup, name := idx } now).2 }

/-- What `nr_segment_datastore_end` reads and writes of the transaction. -/
def datastoreTxn : DatastoreTxn :=
  { options := txn.options
    highSecurity := txn.highSecurity
    noSqlParsing := txn.noSqlParsing
    absStartTime := txn.segments.absStartTime
    traceStrings := txn.traceStrings
    datastoreProducts := txn.datastoreProducts
    unscopedMetrics := []
    slowsqls := txn.slowsqls }

/-- `nr_segment_datastore_end`. -/
def nrSegmentDatastoreEnd (calls : DatastoreCalls) (segment : ℕ) (params : SegmentDatastoreParams)
    (now : ℕ) : DataTxn :=
  match params.product with
  | none => txn
  | some product =>
      let s := txn.segments.segment segment
      let result := endWithProduct calls txn.datastoreTxn
        (plainSegment segment s.asyncContext s.startTime s.stopTime) params now product
      { txn with
        traceStrings := result.txn.traceStrings
        datastoreProducts := result.txn.datastoreProducts
        slowsqls := result.txn.slowsqls
        types := Function.update txn.types segment result.segment.type
        segments := (nrSegmentEnd txn.segments segment now).modify segment fun s =>
          { s with tag := .datastore, name := result.segment.name } }

/-! ### Errors and custom events -/

/-- `nr_txn_record_error`. -/
def nrTxnRecordError (priority : ℤ) (errmsg errclass stacktraceJson : Option Bytes) (now : ℕ) :
    DataTxn :=
  match errmsg, errclass, stacktraceJson with
  | some errmsg, some errclass, some stacktraceJson =>
      if txn.options.errEnabled = false ∨ txn.segments.recording = false ∨ errmsg = [] ∨
          errclass = [] then txn
      else if txn.error.any fun error => decide (priority < error.priority) then txn
      else
        let message :=
          if !txn.options.allowRawExceptionMessages then nrTxnAllowRawExceptionMessage
          else if txn.highSecurity then nrTxnHighSecurityErrorMessage
          else errmsg
        { txn with
          error := some { priority, message, klass := errclass, stacktraceJson, when_ := now } }
  | _, _, _ => txn

/-- `nr_txn_record_custom_event_internal`. -/
def nrTxnRecordCustomEventInternal (type event : Option Bytes) (range : ℕ → ℤ) : DataTxn :=
  if txn.segments.recording = false then txn
  else if txn.highSecurity then txn
  else if txn.options.customEventsEnabled = false then txn
  else { txn with customEvents := nrCustomEventsAddEvent txn.customEvents type event range }

/-! ### The end -/

/-- What the freeze of the name leaves in the transaction if it succeeds. -/
structure FrozenName where
  name : Bytes
  apdexT : UInt64
  ttThreshold : UInt64

/-- What a segment has beside its place, its times and its type. -/
structure SegmentDetails where
  id : Option Bytes
  userAttributes : Option Bytes
  priority : ℤ

/-- What the end of a transaction finds that is not modelled. -/
structure TxnEnd where
  frozen : Option FrozenName
  now : ℕ
  details : ℕ → SegmentDetails
  isSynthetics : Bool
  sampled : Bool
  guid : ℕ → Bytes
  attributes : TraceAttributes

/-- A segment as the passes over the tree see it. -/
def nrSegment (details : ℕ → SegmentDetails) (segment : ℕ) : NrSegment :=
  let s := txn.segments.segment segment
  { address := segment
    type := txn.types segment
    startTime := s.startTime
    stopTime := s.stopTime
    name := s.name
    asyncContext := s.asyncContext
    id := (details segment).id
    userAttributes := (details segment).userAttributes
    priority := (details segment).priority }

/-- The trees below segments. The fuel bounds the depth. -/
def forestOf (details : ℕ → SegmentDetails) : ℕ → List ℕ → Forest NrSegment
  | 0, _ => .nil
  | fuel + 1, segments =>
      segments.foldr
        (fun segment rest =>
          .node (txn.nrSegment details segment)
            (forestOf details fuel (txn.segments.segment segment).children) rest)
        .nil

/-- The tree of the transaction. No path down is longer than the number of
segments. -/
def tree (details : ℕ → SegmentDetails) : OrderedTree NrSegment :=
  let root := txn.segments.segmentRoot
  { root := txn.nrSegment details root
    children := txn.forestOf details txn.segments.used (txn.segments.segment root).children }

/-- The transaction as the passes over the tree see it. The count is an unsigned
number of 64 bits. -/
def nrTxn (e : TxnEnd) : NrTxn :=
  { segmentRoot := some (txn.tree e.details)
    segmentCount := (txn.segments.segmentCount % 2 ^ 64).toNat
    traceStrings := txn.traceStrings
    discountMainContextBlocking := txn.options.discountMainContextBlocking
    ttThreshold := txn.options.ttThreshold.toNat
    isSynthetics := e.isSynthetics
    distributedTraceSampled := e.sampled
    distributedTracingEnabled := txn.options.distributedTracingEnabled
    spanEventsEnabled := txn.options.spanEventsEnabled }

/-- `NR_MAX_SPAN_EVENTS`. -/
def nrMaxSpanEvents : ℕ := 1000

def spanLimit : ℕ :=
  if txn.options.maxSpanEvents ≠ 0 then txn.options.maxSpanEvents.toNat else nrMaxSpanEvents

/-- What `nr_txn_end` does before it finalises the tree. -/
def named (f : FrozenName) (now : ℕ) : DataTxn :=
  let (traceStrings, idx) := nrStringAdd txn.traceStrings f.name
  { txn with
    options := { txn.options with apdexT := f.apdexT, ttThreshold := f.ttThreshold }
    traceStrings
    segments := (nrTxnEnd txn.segments (some idx) now).2 }

/-- `nr_txn_end`. -/
def nrTxnEnd (e : TxnEnd) : DataTxn :=
  if txn.segments.complete || txn.segments.ignore then
    { txn with segments := (Axiom.nrTxnEnd txn.segments none e.now).2 }
  else
    match e.frozen with
    | none => { txn with segments := (Axiom.nrTxnEnd txn.segments none e.now).2 }
    | some f =>
        let txn := txn.named f e.now
        { txn with
          finalData := (nrSegmentTreeFinalise (txn.nrTxn e) e.guid txn.segments.absStartTime
            e.attributes nrMaxSegments txn.spanLimit).2 }

/-! ### The message -/

/-- The texts of the message that are not modelled. -/
structure MessageTexts where
  errorEvent : DataTxn → NrError → Bytes
  error : DataTxn → NrError → Bytes
  txnEvent : DataTxn → Bytes

/-- `nr_error_to_event`. -/
def nrErrorToEvent (texts : MessageTexts) : Option Bytes :=
  if txn.options.errorEventsEnabled = false then none else txn.error.map (texts.errorEvent txn)

/-- `nr_txn_to_event`. -/
def nrTxnToEvent (texts : MessageTexts) : Option Bytes :=
  if txn.options.analyticsEventsEnabled = false then none else some (texts.txnEvent txn)

/-- The table of a transaction, as far as it is modelled. A vector that has nothing
in it is left out of the message. -/
structure TxnMessage where
  trace : Option Bytes
  spanEvents : List NrSpanEvent
  errorEvents : List Bytes
  customEvents : List Bytes
  slowSqls : List NrSlowsql
  errors : List (Bytes × ℤ)
  txnEvent : Option Bytes

/-- `nr_txndata_encode`. -/
def nrTxndataEncode (texts : MessageTexts) : TxnMessage :=
  { trace := txn.finalData.traceJson
    spanEvents :=
      (txn.finalData.spanEvents.getD []).take (txn.appLimits.spanEvents % 2 ^ 64).toNat
    errorEvents := (txn.nrErrorToEvent texts).toList
    customEvents := (txn.customEvents.map NrAnalyticsEvents.events).getD []
    slowSqls := ((txn.slowsqls.map NrSlowsqls.slowsqls).getD []).reverse
    errors := (txn.error.map fun error => (texts.error txn error, error.priority)).toList
    txnEvent := txn.nrTxnToEvent texts }

end DataTxn

/-! ### Runs -/

/-- A call on a running transaction. -/
inductive DataCall
  | start (parent : Option ℕ) (asyncContext : Option Bytes) (now : ℕ)
  | finish (segment now : ℕ)
  | finishExternal (segment : ℕ) (attributes : NrSegmentExternal) (metric : Bytes)
      (doRollup : Bool) (now : ℕ)
  | finishDatastore (segment : ℕ) (params : SegmentDatastoreParams) (now : ℕ)
  | setTiming (segment start duration : ℕ)
  | setName (segment : ℕ) (name : Bytes)
  | setParent (segment parent : ℕ)
  | discard (segment : ℕ)
  | recordError (priority : ℤ) (errmsg errclass stacktraceJson : Option Bytes) (now : ℕ)
  | recordCustomEvent (type event : Option Bytes) (range : ℕ → ℤ)

def DataTxn.exec (calls : DatastoreCalls) (txn : DataTxn) : DataCall → DataTxn
  | .start parent asyncContext now => txn.nrSegmentStart parent asyncContext now
  | .finish segment now => { txn with segments := nrSegmentEnd txn.segments segment now }
  | .finishExternal segment attributes metric doRollup now =>
      txn.nrSegmentExternalEnd segment attributes metric doRollup now
  | .finishDatastore segment params now => txn.nrSegmentDatastoreEnd calls segment params now
  | .setTiming segment start duration =>
      { txn with segments := nrSegmentSetTiming txn.segments segment start duration }
  | .setName segment name => txn.nrSegmentSetName segment name
  | .setParent segment parent =>
      { txn with segments := (nrSegmentSetParent txn.segments segment parent).2 }
  | .discard segment => { txn with segments := (nrSegmentDiscard txn.segments segment).2 }
  | .recordError priority errmsg errclass stacktraceJson now =>
      txn.nrTxnRecordError priority errmsg errclass stacktraceJson now
  | .recordCustomEvent type event range => txn.nrTxnRecordCustomEventInternal type event range

end AxiomDaemon.Axiom

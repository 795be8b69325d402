import AxiomDaemon.Axiom.Segment
import AxiomDaemon.Util.JsonEscape

/-!
The second pass over the tree of a finished transaction,
`nr_segment_traces.c`. On the way down every sampled segment opens a node of
the trace and becomes a span event; on the way up the node is closed. Which
node a segment belongs to, and whether a comma is due before it, is found
from the path of open nodes and the set of nodes that already have a child.
-/

namespace AxiomDaemon.Axiom

open AxiomDaemon.Lib AxiomDaemon.Lib.Json AxiomDaemon.Util

/-! ### The string pool -/

/-- The strings of an `nrpool_t` in the order of their indices, which start
at 1. -/
abbrev NrPool := List Bytes

def nrStringGet (pool : NrPool) (idx : ℕ) : Option Bytes :=
  if idx = 0 then none else pool[idx - 1]?

/-- The pool afterwards, and the index of the string in it. -/
def nrStringAdd (pool : NrPool) (string : Bytes) : NrPool × ℕ :=
  if string ∈ pool then (pool, pool.idxOf string + 1)
  else (pool ++ [string], pool.length + 1)

/-- `nr_string_get (txn->trace_strings, idx)`, or a default. -/
def traceString (txn : NrTxn) (idx : ℕ) : Bytes :=
  (nrStringGet txn.traceStrings idx).getD (ascii "<unknown>")

/-! ### Attributes -/

/-- `nr_buffer_peek_end` on a buffer of which nothing was used. -/
def nrBufferPeekEnd (buf : Bytes) : UInt8 := buf.getLastD 0

def addHashKeyValueToBuffer (buf : Bytes) (key : Bytes) (value : Option Bytes)
    (rawJson : Bool) : Bytes :=
  match value with
  | none => buf
  | some value =>
      let buf := if nrBufferPeekEnd buf ≠ lbrace then buf ++ [comma] else buf
      let buf := buf ++ quote :: (key ++ [quote, colon])
      if rawJson then buf ++ value else buf ++ nrJsonEscape value

/-- The typed attributes of a segment in the order they are added: key, value
and whether the value is JSON already. -/
def typedAttributes (segment : NrSegment) : List (Bytes × Option Bytes × Bool) :=
  match segment.type with
  | .datastore data =>
      [(ascii "host", data.instance_.host, false),
        (ascii "database_name", data.instance_.databaseName, false),
        (ascii "port_path_or_id", data.instance_.portPathOrId, false),
        (ascii "backtrace", data.backtraceJson, true),
        (ascii "explain_plan", data.explainPlanJson, true),
        (ascii "sql", data.sql, false),
        (ascii "sql_obfuscated", data.sqlObfuscated, false),
        (ascii "input_query", data.inputQueryJson, true)]
  | .external ext =>
      [(ascii "uri", ext.uri, false), (ascii "library", ext.library, false),
        (ascii "procedure", ext.procedure, false),
        (ascii "transaction_guid", ext.transactionGuid, false)]
  | .custom => []

def addTypedAttributesToBuffer (buf : Bytes) (segment : NrSegment) : Bytes :=
  (typedAttributes segment).foldl (fun buf a => addHashKeyValueToBuffer buf a.1 a.2.1 a.2.2) buf

/-- A reference to the string pool: a backquote and the index from 0. -/
def poolReference (idx : ℕ) : Bytes := 0x60 :: decimal (idx - 1)

def addAsyncAttributeToBuffer (txn : NrTxn) (buf : Bytes) (segment : NrSegment)
    (segmentNames : NrPool) : Bytes × NrPool :=
  let (segmentNames, contextIdx) :=
    nrStringAdd segmentNames (traceString txn segment.asyncContext)
  (addHashKeyValueToBuffer buf (ascii "async_context") (some (poolReference contextIdx)) false,
    segmentNames)

/-- The hash is given by its JSON text, and added without its braces. -/
def addAttributeHashToBuffer (buf : Bytes) (attributes : Option Bytes) : Bytes :=
  match attributes with
  | none => buf
  | some json =>
      if json.length > 2 then
        let buf := if nrBufferPeekEnd buf ≠ lbrace then buf ++ [comma] else buf
        buf ++ (json.drop 1).take (json.length - 2)
      else buf

/-! ### Span events -/

/-- The fields of the union of a datastore span. -/
structure SpanDatastore where
  component : Option Bytes
  dbStatement : Option Bytes
  dbInstance : Option Bytes
  peerAddress : Option Bytes
  peerHostname : Option Bytes
  deriving DecidableEq

/-- The fields of the union of an external span. -/
structure SpanExternal where
  component : Option Bytes
  url : Option Bytes
  method : Option Bytes
  deriving DecidableEq

/-- `nr_span_category_t` with the member of the union that goes with it. -/
inductive SpanCategory
  | generic
  | datastore (fields : SpanDatastore)
  | http (fields : SpanExternal)
  deriving DecidableEq

/-- `nr_span_event_t`. The parent is only ever asked for its guid, which is
set when the parent is made and does not change. -/
structure NrSpanEvent where
  guid : Option Bytes
  parentGuid : Option (Option Bytes)
  timestamp : ℕ
  duration : ℕ
  name : Option Bytes
  category : SpanCategory
  deriving DecidableEq

/-- `nr_strdup`, which makes an empty string of `NULL`. -/
def nrStrdup (s : Option Bytes) : Bytes := s.getD []

def nrPopulateDatastoreSpans (data : NrSegmentDatastore) : SpanCategory :=
  let host := data.instance_.host.getD (ascii "unknown")
  let portPathOrId := data.instance_.portPathOrId.getD (ascii "unknown")
  .datastore
    { component := some (nrStrdup data.component)
      peerHostname := some (nrStrdup data.instance_.host)
      peerAddress := some (host ++ colon :: portPathOrId)
      dbInstance := some (nrStrdup data.instance_.databaseName)
      dbStatement := some (nrStrdup (data.sql.or data.sqlObfuscated)) }

/-- A field that is `NULL` is left as it is. -/
def nrPopulateHttpSpans (ext : NrSegmentExternal) : SpanCategory :=
  .http { method := ext.procedure, url := ext.uri, component := ext.library }

def spanCategory (segment : NrSegment) : SpanCategory :=
  match segment.type with
  | .custom => .generic
  | .datastore data => nrPopulateDatastoreSpans data
  | .external ext => nrPopulateHttpSpans ext

/-! ### The pass -/

/-- What the pass keeps for the trace. The path starts with the innermost
open node. -/
structure TraceData where
  buf : Bytes
  sample : Option (List ℕ)
  currentPath : List NrSegment
  sampledAncestorsWithChild : List ℕ
  deriving DecidableEq

/-- What the pass keeps for the span events, and how many guids it has made. -/
structure SpanData where
  events : List NrSpanEvent
  sample : Option (List ℕ)
  currentPath : List NrSegment
  currentSpanPath : List NrSpanEvent
  guidsCreated : ℕ
  deriving DecidableEq

/-- `nr_segment_userdata_t`. The trace is absent if its buffer is `NULL`, the
spans if the vector of events is. -/
structure NrSegmentUserdata where
  segmentNames : NrPool
  success : Bool
  trace : Option TraceData
  spans : Option SpanData
  deriving DecidableEq

/-- Whether a segment is part of the output; without a sample all are. -/
def isSampled (sample : Option (List ℕ)) (segment : NrSegment) : Bool :=
  match sample with
  | none => true
  | some set => segment.address ∈ set

/-- What precedes the children of a node. -/
def nodeHead (startMs stopMs idx : ℕ) : Bytes :=
  lbracket :: (decimal startMs ++ comma :: (decimal stopMs ++
    comma :: quote :: (poolReference idx ++ [quote, comma, lbrace])))

def nrSegmentIterationPassTrace (txn : NrTxn) (segment : NrSegment) (segmentName : Bytes)
    (segmentNames : NrPool) (t : TraceData) : NrPool × TraceData :=
  if !isSampled t.sample segment then (segmentNames, t)
  else
    let parent := t.currentPath.head?
    let currentPath := segment :: t.currentPath
    -- the set never holds NULL
    let hasSibling := parent.any fun p => p.address ∈ t.sampledAncestorsWithChild
    let buf := if hasSibling then t.buf ++ [comma] else t.buf
    let sampledAncestorsWithChild :=
      match parent with
      | none => t.sampledAncestorsWithChild
      | some p => p.address :: t.sampledAncestorsWithChild
    let (segmentNames, idx) := nrStringAdd segmentNames segmentName
    let startMs := segment.startTime / 1000
    let stopMs := segment.stopTime / 1000
    let stopMs := if startMs > stopMs then startMs else stopMs
    let buf := buf ++ nodeHead startMs stopMs idx
    let buf := addTypedAttributesToBuffer buf segment
    let (buf, segmentNames) :=
      if segment.asyncContext ≠ 0 then addAsyncAttributeToBuffer txn buf segment segmentNames
      else (buf, segmentNames)
    let buf := addAttributeHashToBuffer buf segment.userAttributes
    let buf := buf ++ [rbrace, comma, lbracket]
    (segmentNames, { t with buf, currentPath, sampledAncestorsWithChild })

/-- `guid n` is the `n`-th string that `nr_guid_create (txn->rnd)` makes, and
`absStartTime` the absolute start of the transaction. -/
def nrSegmentIterationPassSpan (guid : ℕ → Bytes) (absStartTime : ℕ) (segment : NrSegment)
    (segmentName : Bytes) (s : SpanData) : SpanData :=
  if !isSampled s.sample segment then s
  else
    let (guid, guidsCreated) :=
      match segment.id with
      | none => (guid s.guidsCreated, s.guidsCreated + 1)
      | some id => (id, s.guidsCreated)
    let span : NrSpanEvent :=
      { guid := some guid
        parentGuid := s.currentSpanPath.head?.map NrSpanEvent.guid
        timestamp := (absStartTime + segment.startTime) % 2 ^ 64
        duration := nrTimeDuration segment.startTime segment.stopTime
        name := some segmentName
        category := spanCategory segment }
    { s with
      events := s.events ++ [span]
      currentPath := segment :: s.currentPath
      currentSpanPath := span :: s.currentSpanPath
      guidsCreated }

section Callbacks

variable (txn : NrTxn) (guid : ℕ → Bytes) (absStartTime : ℕ)

def nrSegmentTracesStotIteratorCallback (_parent : Option NrSegment) (segment : NrSegment)
    (_childrenSize : ℕ) (u : NrSegmentUserdata) : NrSegmentUserdata × Bool :=
  let segmentName := traceString txn segment.name
  if segment.startTime = segment.stopTime then (u, false)
  else if segment.startTime > segment.stopTime then ({ u with success := false }, false)
  else
    let spans := u.spans.map (nrSegmentIterationPassSpan guid absStartTime segment segmentName)
    let u := { u with spans }
    let u :=
      match u.trace with
      | none => u
      | some t =>
          let (segmentNames, t) :=
            nrSegmentIterationPassTrace txn segment segmentName u.segmentNames t
          { u with segmentNames, trace := some t }
    (u, true)

/-- The segment is the innermost one of the path. -/
def isCurrent (path : List NrSegment) (segment : NrSegment) : Bool :=
  path.head?.any fun s => s.address = segment.address

def TraceData.close (t : TraceData) (segment : NrSegment) : TraceData :=
  if isCurrent t.currentPath segment then
    { t with buf := t.buf ++ [rbracket, rbracket], currentPath := t.currentPath.tail }
  else t

def SpanData.close (s : SpanData) (segment : NrSegment) : SpanData :=
  if isCurrent s.currentPath segment then
    { s with currentPath := s.currentPath.tail, currentSpanPath := s.currentSpanPath.tail }
  else s

def nrSegmentTracesStotIteratorPostCallback (segment : NrSegment) (u : NrSegmentUserdata) :
    NrSegmentUserdata :=
  { u with
    trace := u.trace.map fun t => t.close segment
    spans := u.spans.map fun s => s.close segment }

/-- `nr_segment_traces_json_print_segments`: the userdata after the pass. -/
def nrSegmentTracesJsonPrintSegments (buf : Option Bytes) (createSpans : Bool)
    (traceSet spanSet : Option (List ℕ)) (root : OrderedTree NrSegment)
    (segmentNames : NrPool) : NrSegmentUserdata :=
  nrSegmentIterate (nrSegmentTracesStotIteratorCallback txn guid absStartTime)
    nrSegmentTracesStotIteratorPostCallback root
    { segmentNames
      success := true
      trace := buf.map fun buf =>
        { buf, sample := traceSet, currentPath := [], sampledAncestorsWithChild := [] }
      spans :=
        if createSpans then
          some { events := [], sample := spanSet, currentPath := [], currentSpanPath := []
                 guidsCreated := 0 }
        else none }

end Callbacks

/-! ### The trace -/

/-- `NR_MAX_SEGMENTS`. -/
def nrMaxSegments : ℕ := 2000

/-- What comes before the nodes. -/
def traceHead (duration : ℕ) : Bytes :=
  ascii "[[0,{},{},[0," ++ (decimal (duration / 1000) ++ ascii ",\"ROOT\",{},[")

/-- The JSON text of the hash of the attributes that are there. -/
def attributesHash (agentAttributes userAttributes intrinsics : Option Bytes) : Bytes :=
  let member (key : Bytes) (value : Option Bytes) : List Bytes :=
    (value.map fun json => nrJsonEscape key ++ colon :: json).toList
  lbrace :: (commaJoin (member (ascii "agentAttributes") agentAttributes ++
    member (ascii "userAttributes") userAttributes ++
    member (ascii "intrinsics") intrinsics) ++ [rbrace])

/-- What comes after the nodes: the attributes and the string pool. -/
def traceTail (hash : Bytes) (segmentNames : NrPool) : Bytes :=
  [rbracket, rbracket, comma] ++ (addAttributeHashToBuffer [lbrace] (some hash) ++
    ([rbrace, rbracket, comma] ++
      (lbracket :: (commaJoin (segmentNames.map nrJsonEscape) ++ [rbracket]) ++ [rbracket])))

/-- `nrtxnfinal_t` without the total time. -/
structure FinalData where
  traceJson : Option Bytes
  spanEvents : Option (List NrSpanEvent)
  deriving DecidableEq

/-- The attributes are given by their JSON texts. -/
structure TraceAttributes where
  agentAttributes : Option Bytes
  userAttributes : Option Bytes
  intrinsics : Option Bytes
  deriving DecidableEq

def nrSegmentTracesCreateData (txn : NrTxn) (guid : ℕ → Bytes) (absStartTime : ℕ)
    (root : OrderedTree NrSegment) (duration : ℕ) (traceSet spanSet : Option (List ℕ))
    (attributes : TraceAttributes) (createTrace createSpans : Bool) : FinalData :=
  if txn.segmentCount = 0 ∨ duration = 0 ∨ (traceSet.any fun set => nrMaxSegments < set.length) then
    { traceJson := none, spanEvents := none }
  else
    let buf := if createTrace then some (traceHead duration) else none
    let u := nrSegmentTracesJsonPrintSegments txn guid absStartTime buf createSpans traceSet
      spanSet root []
    if !u.success || (!createTrace && !createSpans) then
      { traceJson := none, spanEvents := none }
    else
      { traceJson := u.trace.map fun t => t.buf ++
          traceTail (attributesHash attributes.agentAttributes attributes.userAttributes
            attributes.intrinsics) u.segmentNames
        spanEvents := u.spans.map SpanData.events }

/-! ### Finalising a transaction -/

/-- `nr_segment_heap_to_set`: the addresses of the segments in the heap. -/
def nrSegmentHeapToSet (heap : Option (NrMinmaxHeap NrSegment)) : List ℕ :=
  match heap with
  | none => []
  | some heap => heap.elements.map NrSegment.address

/-- `nr_segment_tree_finalise`: the total time and the output of the second
pass. The callback with the total time is left out. -/
def nrSegmentTreeFinalise (txn : NrTxn) (guid : ℕ → Bytes) (absStartTime : ℕ)
    (attributes : TraceAttributes) (traceLimit spanLimit : ℕ) : ℕ × FinalData :=
  match txn.segmentRoot with
  | none => (0, { traceJson := none, spanEvents := none })
  | some root =>
      let duration := nrTxnDuration txn
      let shouldSaveTrace := decide (traceLimit > 0) && nrTxnShouldSaveTrace txn duration
      let shouldSampleTrace := decide (txn.segmentCount > traceLimit)
      let shouldSaveSpans := decide (spanLimit > 0) && nrTxnShouldCreateSpanEvents txn
      let shouldSampleSpans := decide (txn.segmentCount > spanLimit)
      let metadata := firstPass txn root traceLimit spanLimit
      let traceSet :=
        if shouldSampleTrace then some (nrSegmentHeapToSet metadata.traceHeap) else none
      let spanSet :=
        if shouldSampleSpans then some (nrSegmentHeapToSet metadata.spanHeap) else none
      (finaliseTotalTime txn metadata,
        if shouldSaveTrace || shouldSaveSpans then
          nrSegmentTracesCreateData txn guid absStartTime root duration traceSet spanSet
            attributes shouldSaveTrace shouldSaveSpans
        else { traceJson := none, spanEvents := none })

end AxiomDaemon.Axiom

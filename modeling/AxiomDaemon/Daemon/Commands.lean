import AxiomDaemon.Daemon.Harvest
import AxiomDaemon.Daemon.Listener
import AxiomDaemon.Protocol.Accessors

/-!
What the daemon does with a binary message of an agent, `commands.go`.

A message is a flatbuffer. It is read without being verified first, by the goroutine of
its connection, and the data of a transaction are read once more by the goroutine of the
processor. Reading outside the message is a panic, which is no result here. The first of
the two goroutines recovers from it, the second does not.

Numbers of type `int` have 64 bits. A Go string is given by its bytes, each as a
character. JSON texts that come with an application are left as they are.
-/

namespace AxiomDaemon.Daemon

open AxiomDaemon.Lib AxiomDaemon.Lib.Flatbuffers

/-- `limits.MinFlatbufferSize`. -/
def minFlatbufferSize : ℕ := 12

/-- `string(b)`. -/
def goString (b : Option Bytes) : String :=
  String.ofList ((b.getD []).map fun c => Char.ofNat c.toNat)

/-! ### Transactions -/

/-- One round of `aggregateMetrics`. -/
def readMetric (m data : Table) : Option FlatMetric := do
  let countSatisfied ← Protocol.MetricData.count data
  let totalTolerated ← Protocol.MetricData.total data
  let exclusiveFailed ← Protocol.MetricData.exclusive data
  let min ← Protocol.MetricData.min data
  let max ← Protocol.MetricData.max data
  let sumSquares ← Protocol.MetricData.sumSquares data
  let forced ← Protocol.MetricData.forced data
  let name ← Protocol.Metric.name m
  let isScoped ← Protocol.MetricData.isScoped data
  some
    { name := goString name
      data := { countSatisfied, totalTolerated, exclusiveFailed, min, max, sumSquares }
      forced := forced ≠ 0
      isScoped := isScoped ≠ 0 }

/-- The loop of `aggregateMetrics`. The variables `m` and `data` are the same in all
rounds: a metric without data has the data of the one before it. -/
def readMetrics (txn : Table) : (m data : Table) → List ℕ → Option (List FlatMetric)
  | _, _, [] => some []
  | m, data, i :: is => do
      let m ← Protocol.Transaction.metrics txn m i
      let data ← Protocol.Metric.data m data
      let metric ← readMetric m data
      let rest ← readMetrics txn m data is
      some (metric :: rest)

def readError (e : Table) : Option (TracedError (Option Bytes)) := do
  let priority ← Protocol.Error.priority e
  let data ← Protocol.Error.data e
  some { priority := priority.toInt32.toInt, data := data }

/-- The name and the URI are those of the transaction. -/
def readSlowSQL (txnName txnURL : String) (slowSQL : Table) : Option (SlowSQL Int32) := do
  let id ← Protocol.SlowSQL.id slowSQL
  let count ← Protocol.SlowSQL.count slowSQL
  let totalMicros ← Protocol.SlowSQL.totalMicros slowSQL
  let minMicros ← Protocol.SlowSQL.minMicros slowSQL
  let maxMicros ← Protocol.SlowSQL.maxMicros slowSQL
  let metricName ← Protocol.SlowSQL.metric slowSQL
  let query ← Protocol.SlowSQL.query slowSQL
  let params ← Protocol.SlowSQL.params slowSQL
  some
    { id, totalMicros, minMicros, maxMicros, txnName, txnURL
      count := count.toInt32
      metricName := goString metricName
      query := goString query
      params := goString params }

/-- The timestamp and the GUID are read, but are not part of what a harvest does. -/
def readTrace (trace : Table) : Option (FlatTrace (Option Bytes)) := do
  let data ← Protocol.Trace.data trace
  let _timestamp ← Protocol.Trace.timestamp trace
  let duration ← Protocol.Trace.duration trace
  let _guid ← Protocol.Trace.guid trace
  let forcePersist ← Protocol.Trace.forcePersist trace
  some
    { size := (data.getD []).length
      durationMillis := duration
      forcePersist := forcePersist ≠ 0
      data := data }

/-- What `AggregateInto` reads of a transaction, in a message of the length `size`. -/
def readTransaction (size : ℕ) (txn : Table) : Option (FlatTxn (Option Bytes) Int32) := do
  let _customEvents ← Protocol.Transaction.customEventsLength txn
  let _metrics ← Protocol.Transaction.metricsLength txn
  let _slowSqls ← Protocol.Transaction.slowSqlsLength txn
  let name ← Protocol.Transaction.name txn
  let uri ← Protocol.Transaction.uri txn
  let samplingPriority ← Protocol.Transaction.samplingPriority txn
  let syntheticsResourceID ← Protocol.Transaction.syntheticsResourceId txn
  let pid ← Protocol.Transaction.pid txn
  let txnEvent ← Protocol.Transaction.txnEvent txn >>= fun event =>
    event.mapM Protocol.Event.data
  let metrics ← Protocol.Transaction.metricsLength txn >>= fun n =>
    readMetrics txn Table.zero Table.zero (List.range n)
  let errors ← Protocol.Transaction.errorsLength txn >>= fun n =>
    readElements (Protocol.Transaction.errors txn) readError Table.zero (List.range n)
  let slowSQLs ← Protocol.Transaction.slowSqlsLength txn >>= fun n =>
    readElements (Protocol.Transaction.slowSqls txn) (readSlowSQL (goString name) (goString uri))
      Table.zero (List.range n)
  let customEvents ← Protocol.Transaction.customEventsLength txn >>= fun n =>
    readElements (Protocol.Transaction.customEvents txn) Protocol.Event.data Table.zero
      (List.range n)
  let spanEvents ← Protocol.Transaction.spanEventsLength txn >>= fun n =>
    readElements (Protocol.Transaction.spanEvents txn) Protocol.Event.data Table.zero
      (List.range n)
  let trace ← Protocol.Transaction.trace txn >>= fun trace => trace.mapM readTrace
  let errorEvents ← Protocol.Transaction.errorEventsLength txn >>= fun n =>
    readElements (Protocol.Transaction.errorEvents txn) Protocol.Event.data Table.zero
      (List.range n)
  some
    { size := size
      name := goString name
      uri := goString uri
      samplingPriority := samplingPriority
      syntheticsResourceID := goString syntheticsResourceID
      pid := pid.toInt32.toInt
      txnEvent, metrics, errors, slowSQLs, customEvents, spanEvents, trace, errorEvents }

/-- What `AggregateInto` reads of a message. -/
def readTxn (t : Bytes) : Option (FlatTxn (Option Bytes) Int32) := do
  let msg ← Protocol.getRootAsMessage t 0
  let txn := (← Protocol.Message.data msg).getD Table.zero
  readTransaction t.length txn

/-- `FlatTxn.AggregateInto`. -/
def aggregateInto (t : Bytes) (d : AppData (Option Bytes) Int32) :
    Option (AppData (Option Bytes) Int32) := do
  some (d.aggregate (← readTxn t))

/-! ### Messages -/

/-- `AppInfo`, as it is in the message. -/
structure FlatAppInfo where
  supportedSecurityPolicies : Option Bytes
  license : String
  appname : String
  agentLanguage : String
  agentVersion : String
  redirectCollector : String
  environment : Option Bytes
  labels : Option Bytes
  hostname : String
  hostDisplayName : String
  securityPolicyToken : String
  settings : Option Bytes
  highSecurity : Bool

/-- `UnmarshalAppInfo`. -/
def unmarshalAppInfo (app : Table) : Option FlatAppInfo := do
  let supportedSecurityPolicies ← Protocol.App.supportedSecurityPolicies app
  let license ← Protocol.App.license app
  let appname ← Protocol.App.appName app
  let agentLanguage ← Protocol.App.agentLanguage app
  let agentVersion ← Protocol.App.agentVersion app
  let redirectCollector ← Protocol.App.redirectCollector app
  let environment ← Protocol.App.environment app
  let labels ← Protocol.App.labels app
  let hostname ← Protocol.App.host app
  let hostDisplayName ← Protocol.App.displayHost app
  let securityPolicyToken ← Protocol.App.securityPolicyToken app
  let settings ← Protocol.App.settings app
  let highSecurity ← Protocol.App.highSecurity app
  some
    { supportedSecurityPolicies, environment, labels, settings
      license := goString license
      appname := goString appname
      agentLanguage := goString agentLanguage
      agentVersion := goString agentVersion
      redirectCollector := goString redirectCollector
      hostname := goString hostname
      hostDisplayName := goString hostDisplayName
      securityPolicyToken := goString securityPolicyToken
      highSecurity := highSecurity ≠ 0 }

/-- What comes of a message. -/
inductive Processed
  | ignored
  | error (text : String)
  /-- The argument of `IncomingTxnData`. -/
  | txnData (id : Bytes) (sample : Bytes)
  /-- The argument of `IncomingAppInfo`. -/
  | appInfo (runID : Option Bytes) (info : FlatAppInfo)

/-- The body of a transaction message. -/
def processTransaction (data : Bytes) (msg : Table) : Option Processed := do
  match ← Protocol.Message.data msg with
  | none => some (.error "transaction missing message body")
  | some _ =>
      let id ← Protocol.Message.agentRunId msg
      if 0 < (id.getD []).length then some (.txnData (id.getD []) data)
      else some (.error "missing agent run id for txn data command")

/-- The body of an application message. -/
def processApp (msg : Table) : Option Processed := do
  match ← Protocol.Message.data msg with
  | none => some (.error "app missing message body")
  | some tbl =>
      let info ← unmarshalAppInfo tbl
      let id ← Protocol.Message.agentRunId msg
      some (.appInfo id info)

/-- The switch of `processBinary`. -/
def processMessage (data : Bytes) (msg : Table) : Option Processed := do
  let dataType ← Protocol.Message.dataType msg
  if dataType = Protocol.messageBodyTransaction then processTransaction data msg
  else if dataType = Protocol.messageBodyApp then processApp msg
  else if dataType = Protocol.messageBodyNone then some .ignored
  else if dataType = Protocol.messageBodyAppReply then some .ignored
  else some (.error "binary encoding not implemented")

/-- `processBinary`, up to the call of the handler. -/
def processBinary (data : Bytes) : Option Processed :=
  if data.length = 0 then some .ignored
  else do
    let offset ← getUint32 data
    if (data.length : ℤ) - minFlatbufferSize ≤ offset.toNat then
      some (.error ("offset is too large, len=" ++ toString offset.toNat))
    else processMessage data (← Protocol.getRootAsMessage data 0)

/-- No goroutine panics: not the one of the connection, and if it hands the message over
not the one of the processor, in whatever state the harvests are. -/
def Survives (result : Option Processed) : Prop :=
  ∃ processed, result = some processed ∧
    ∀ id sample, processed = .txnData id sample → ∀ d, (aggregateInto sample d).isSome = true

/-- The daemon survives the message. -/
def HandledSafely (data : Bytes) : Prop := Survives (processBinary data)

/-! ### Reads of a transaction -/

/-- The first of the metrics, if there are any, has data. -/
def FirstMetricHasData (buf : Bytes) (pos : UInt32) : Prop :=
  entry buf pos 14 ≠ 0 → word buf (target buf (place buf pos 14)) ≠ 0 →
    entry buf (target buf (elementAt (target buf (place buf pos 14)) 0)) 6 ≠ 0

/-- A transaction that can be aggregated: everything that the schema has is in the message
if it is there at all. -/
structure WellFormedTxn (buf : Bytes) (pos : UInt32) : Prop where
  schema : Protocol.Schema.transaction buf pos
  firstMetric : FirstMetricHasData buf pos

section Reads

variable {buf : Bytes} (hbuf : buf.length < 2 ^ 32)
include hbuf

theorem isSome_readEvent (pos : UInt32) :
    (Protocol.Event.data ⟨buf, pos⟩).isSome = true ↔ Protocol.Schema.event buf pos := by
  rw [Protocol.Schema.event, Verifier.table_cons, Verifier.table_nil, and_true]
  exact isSome_text hbuf 4

theorem isSome_readError (pos : UInt32) :
    (readError ⟨buf, pos⟩).isSome = true ↔ Protocol.Schema.error buf pos := by
  simp only [Protocol.Schema.error, Verifier.table_cons, Verifier.table_nil, and_true]
  exact isSome_bind_iff (isSome_number readsBytes_uint32) fun _ _ =>
    isSome_bind_some.trans (isSome_text hbuf 6)

theorem isSome_readSlowSQL (txnName txnURL : String) (pos : UInt32) :
    (readSlowSQL txnName txnURL ⟨buf, pos⟩).isSome = true ↔ Protocol.Schema.slowSQL buf pos := by
  simp only [Protocol.Schema.slowSQL, Verifier.table_cons, Verifier.table_nil, and_true]
  exact isSome_bind_iff (isSome_number readsBytes_uint32) fun _ _ =>
    isSome_bind_iff (isSome_number readsBytes_uint32) fun _ _ =>
    isSome_bind_iff (isSome_number readsBytes_uint64) fun _ _ =>
    isSome_bind_iff (isSome_number readsBytes_uint64) fun _ _ =>
    isSome_bind_iff (isSome_number readsBytes_uint64) fun _ _ =>
    isSome_bind_iff (isSome_text hbuf 14) fun _ _ =>
    isSome_bind_iff (isSome_text hbuf 16) fun _ _ =>
    isSome_bind_some.trans (isSome_text hbuf 18)

theorem isSome_readTrace (pos : UInt32) :
    (readTrace ⟨buf, pos⟩).isSome = true ↔ Protocol.Schema.trace buf pos := by
  have hread : (readTrace ⟨buf, pos⟩).isSome = true ↔
      Verifier.field 12 .text buf pos ∧ Verifier.field 4 (.number 8) buf pos ∧
        Verifier.field 6 (.number 8) buf pos ∧ Verifier.field 8 .text buf pos ∧
        Verifier.field 10 (.number 1) buf pos :=
    isSome_bind_iff (isSome_text hbuf 12) fun _ _ =>
      isSome_bind_iff (isSome_number readsBytes_float64) fun _ _ =>
      isSome_bind_iff (isSome_number readsBytes_float64) fun _ _ =>
      isSome_bind_iff (isSome_text hbuf 8) fun _ _ =>
      isSome_bind_some.trans (isSome_number readsBytes_uint8)
  simp only [hread, Protocol.Schema.trace, Verifier.table_cons, Verifier.table_nil, and_true]
  constructor
  · rintro ⟨h12, h4, h6, h8, h10⟩
    exact ⟨h4, h6, h8, h10, h12⟩
  · rintro ⟨h4, h6, h8, h10, h12⟩
    exact ⟨h12, h4, h6, h8, h10⟩

theorem isSome_unmarshalAppInfo (pos : UInt32) :
    (unmarshalAppInfo ⟨buf, pos⟩).isSome = true ↔ Protocol.Schema.app buf pos := by
  have hread : (unmarshalAppInfo ⟨buf, pos⟩).isSome = true ↔
      Verifier.field 26 .text buf pos ∧ Verifier.field 4 .text buf pos ∧
        Verifier.field 6 .text buf pos ∧ Verifier.field 8 .text buf pos ∧
        Verifier.field 10 .text buf pos ∧ Verifier.field 14 .text buf pos ∧
        Verifier.field 16 .text buf pos ∧ Verifier.field 20 .text buf pos ∧
        Verifier.field 28 .text buf pos ∧ Verifier.field 22 .text buf pos ∧
        Verifier.field 24 .text buf pos ∧ Verifier.field 18 .text buf pos ∧
        Verifier.field 12 (.number 1) buf pos :=
    isSome_bind_iff (isSome_text hbuf 26) fun _ _ =>
      isSome_bind_iff (isSome_text hbuf 4) fun _ _ =>
      isSome_bind_iff (isSome_text hbuf 6) fun _ _ =>
      isSome_bind_iff (isSome_text hbuf 8) fun _ _ =>
      isSome_bind_iff (isSome_text hbuf 10) fun _ _ =>
      isSome_bind_iff (isSome_text hbuf 14) fun _ _ =>
      isSome_bind_iff (isSome_text hbuf 16) fun _ _ =>
      isSome_bind_iff (isSome_text hbuf 20) fun _ _ =>
      isSome_bind_iff (isSome_text hbuf 28) fun _ _ =>
      isSome_bind_iff (isSome_text hbuf 22) fun _ _ =>
      isSome_bind_iff (isSome_text hbuf 24) fun _ _ =>
      isSome_bind_iff (isSome_text hbuf 18) fun _ _ =>
      isSome_bind_some.trans (isSome_number readsBytes_uint8)
  simp only [hread, Protocol.Schema.app, Verifier.table_cons, Verifier.table_nil, and_true]
  constructor
  · rintro ⟨h26, h4, h6, h8, h10, h14, h16, h20, h28, h22, h24, h18, h12⟩
    exact ⟨h4, h6, h8, h10, h12, h14, h16, h18, h20, h22, h24, h26, h28⟩
  · rintro ⟨h4, h6, h8, h10, h12, h14, h16, h18, h20, h22, h24, h26, h28⟩
    exact ⟨h26, h4, h6, h8, h10, h14, h16, h20, h28, h22, h24, h18, h12⟩

theorem inRange_metricData {pos : UInt32} :
    (InRange buf (pos + 0) 8 ∧ InRange buf (pos + 8) 8 ∧ InRange buf (pos + 16) 8 ∧
      InRange buf (pos + 24) 8 ∧ InRange buf (pos + 32) 8 ∧ InRange buf (pos + 40) 8 ∧
      InRange buf (pos + 49) 1 ∧ InRange buf (pos + 48) 1) ↔ InRange buf pos 50 := by
  have hadd : ∀ k : UInt32, (pos + k).toNat = (pos.toNat + k.toNat) % 2 ^ 32 :=
    fun k => UInt32.toNat_add pos k
  have hpos := pos.toNat_lt
  simp only [inRange_iff, hadd, UInt32.reduceToNat]
  omega

theorem isSome_readMetric (pos : UInt32) (m : Table) (hm : m.bytes.length < 2 ^ 32) :
    (readMetric m ⟨buf, pos⟩).isSome = true ↔
      InRange buf pos 50 ∧ Verifier.field 4 .text m.bytes m.pos := by
  have hread : (readMetric m ⟨buf, pos⟩).isSome = true ↔
      InRange buf (pos + 0) 8 ∧ InRange buf (pos + 8) 8 ∧ InRange buf (pos + 16) 8 ∧
        InRange buf (pos + 24) 8 ∧ InRange buf (pos + 32) 8 ∧ InRange buf (pos + 40) 8 ∧
        InRange buf (pos + 49) 1 ∧ Verifier.field 4 .text m.bytes m.pos ∧
        InRange buf (pos + 48) 1 :=
    isSome_bind_iff (isSome_get readsBytes_float64 _) fun _ _ =>
      isSome_bind_iff (isSome_get readsBytes_float64 _) fun _ _ =>
      isSome_bind_iff (isSome_get readsBytes_float64 _) fun _ _ =>
      isSome_bind_iff (isSome_get readsBytes_float64 _) fun _ _ =>
      isSome_bind_iff (isSome_get readsBytes_float64 _) fun _ _ =>
      isSome_bind_iff (isSome_get readsBytes_float64 _) fun _ _ =>
      isSome_bind_iff (isSome_get readsBytes_uint8 _) fun _ _ =>
      isSome_bind_iff (isSome_text hm 4) fun _ _ =>
      isSome_bind_some.trans (isSome_get readsBytes_uint8 _)
  rw [hread, ← inRange_metricData hbuf]
  constructor
  · rintro ⟨h0, h8, h16, h24, h32, h40, h49, hname, h48⟩
    exact ⟨⟨h0, h8, h16, h24, h32, h40, h49, h48⟩, hname⟩
  · rintro ⟨⟨h0, h8, h16, h24, h32, h40, h49, h48⟩, hname⟩
    exact ⟨h0, h8, h16, h24, h32, h40, h49, hname, h48⟩

/-- What a metric needs: its place in the vector, its name and its data. A metric without
data of its own needs the data that are left from before. -/
theorem isSome_metricRound {pos : UInt32} {data : Table} (hdata : data.bytes.length < 2 ^ 32)
    {f : Table → FlatMetric → Option (List FlatMetric)} {p : Prop}
    (hf : ∀ data' metric, data'.bytes.length < 2 ^ 32 → InRange data'.bytes data'.pos 50 →
      ((f data' metric).isSome = true ↔ p)) :
    (Protocol.Metric.data ⟨buf, pos⟩ data >>= fun data' =>
        readMetric ⟨buf, pos⟩ data' >>= fun metric => f data' metric).isSome = true ↔
      (Protocol.Schema.metric buf pos ∧ p) ∧
        (InRange data.bytes data.pos 50 ∨ entry buf pos 6 ≠ 0) := by
  have hread : ∀ data', data'.bytes.length < 2 ^ 32 →
      ((readMetric ⟨buf, pos⟩ data' >>= fun metric => f data' metric).isSome = true ↔
        (InRange data'.bytes data'.pos 50 ∧ Verifier.field 4 .text buf pos) ∧ p) := by
    intro data' hdata'
    refine isSome_bind_iff (isSome_readMetric hdata' data'.pos ⟨buf, pos⟩ hbuf) ?_
    intro metric hmetric
    have hin : InRange data'.bytes data'.pos 50 := by
      refine ((isSome_readMetric hdata' data'.pos ⟨buf, pos⟩ hbuf).mp ?_).1
      rw [hmetric]
      rfl
    exact hf data' metric hdata' hin
  have hdata' : ∀ data', Protocol.Metric.data ⟨buf, pos⟩ data = some data' →
      ((readMetric ⟨buf, pos⟩ data' >>= fun metric => f data' metric).isSome = true ↔
        (Verifier.field 4 .text buf pos ∧ p) ∧
          (entry buf pos 6 = 0 → InRange data.bytes data.pos 50) ∧
          (entry buf pos 6 ≠ 0 → InRange buf (place buf pos 6) 50)) := by
    intro data' hdata'
    obtain ⟨habsent, hpresent⟩ := inline_eq hdata'
    by_cases hzero : entry buf pos 6 = 0
    · rw [habsent hzero, hread data hdata, and_assoc]
      exact ⟨fun ⟨hin, h⟩ => ⟨h, fun _ => hin, fun hne => absurd hzero hne⟩,
        fun ⟨h, hin, _⟩ => ⟨hin hzero, h⟩⟩
    · rw [hpresent hzero, hread _ hbuf, and_assoc]
      exact ⟨fun ⟨hin, h⟩ => ⟨h, fun hz => absurd hz hzero, fun _ => hin⟩,
        fun ⟨h, _, hin⟩ => ⟨hin hzero, h⟩⟩
  refine (isSome_bind_iff (isSome_inline 6 data) hdata').trans ?_
  have hschema : Protocol.Schema.metric buf pos ↔ Verifier.field 4 .text buf pos ∧
      HasEntry buf pos 6 ∧ (entry buf pos 6 ≠ 0 → InRange buf (place buf pos 6) 50) := by
    simp only [Protocol.Schema.metric, Protocol.Schema.metricData, Verifier.table_cons,
      Verifier.table_nil, and_true]
    rfl
  rw [hschema]
  constructor
  · rintro ⟨hentry, ⟨hname, hp⟩, hold, hnew⟩
    refine ⟨⟨⟨hname, hentry, hnew⟩, hp⟩, ?_⟩
    by_cases hzero : entry buf pos 6 = 0
    · exact .inl (hold hzero)
    · exact .inr hzero
  · rintro ⟨⟨⟨hname, hentry, hnew⟩, hp⟩, hdata⟩
    exact ⟨hentry, ⟨hname, hp⟩, fun hzero => hdata.resolve_right fun hne => hne hzero, hnew⟩

theorem isSome_readMetrics {pos start : UInt32} (hentry : HasEntry buf pos 14)
    (hne : entry buf pos 14 ≠ 0) (hplace : InRange buf (place buf pos 14) 4)
    (hstart : start = target buf (place buf pos 14)) (m data : Table)
    (hdata : data.bytes.length < 2 ^ 32) (js : List ℕ) :
    (readMetrics ⟨buf, pos⟩ m data js).isSome = true ↔
      (∀ j ∈ js, InRange buf (elementAt start j) 4 ∧
        Protocol.Schema.metric buf (target buf (elementAt start j))) ∧
      (InRange data.bytes data.pos 50 ∨
        ∀ j ∈ js.head?, entry buf (target buf (elementAt start j)) 6 ≠ 0) := by
  subst hstart
  induction js generalizing m data with
  | nil => exact iff_of_true rfl ⟨nofun, .inr nofun⟩
  | cons j js ih =>
      let metric := target buf (elementAt (target buf (place buf pos 14)) j)
      have hround : ∀ child, Protocol.Transaction.metrics ⟨buf, pos⟩ m j = some child →
          ((Protocol.Metric.data child data >>= fun data' =>
              readMetric child data' >>= fun metric =>
                readMetrics ⟨buf, pos⟩ child data' js >>= fun rest =>
                  some (metric :: rest)).isSome = true ↔
            (Protocol.Schema.metric buf metric ∧
              ∀ j ∈ js, InRange buf (elementAt (target buf (place buf pos 14)) j) 4 ∧
                Protocol.Schema.metric buf
                  (target buf (elementAt (target buf (place buf pos 14)) j))) ∧
            (InRange data.bytes data.pos 50 ∨ entry buf metric 6 ≠ 0)) := by
        intro child hchild
        have hmetric : child = ⟨buf, metric⟩ := element_eq hchild hne
        rw [hmetric]
        refine isSome_metricRound hbuf hdata fun data' _ hdata' hin => ?_
        refine isSome_bind_some.trans ((ih _ data' hdata').trans ?_)
        exact and_iff_left (Or.inl hin)
      refine (isSome_bind_iff (isSome_element ⟨buf, pos⟩ hentry hne hplace m j) hround).trans ?_
      rw [List.forall_mem_cons, List.head?_cons]
      simp only [Option.mem_some_iff, forall_eq']
      rw [and_assoc, and_assoc, and_assoc]

theorem isSome_metricsLoop (pos : UInt32) :
    (Protocol.Transaction.metricsLength ⟨buf, pos⟩ >>= fun n =>
        readMetrics ⟨buf, pos⟩ Table.zero Table.zero (List.range n)).isSome = true ↔
      Verifier.field 14 (.vector Protocol.Schema.metric) buf pos ∧
        FirstMetricHasData buf pos := by
  have hzero : ¬ InRange Table.zero.bytes Table.zero.pos 50 := fun h => absurd h.le (by decide)
  let first := target buf (elementAt (target buf (place buf pos 14)) 0)
  have hhead : ∀ n : UInt32, (∀ j ∈ (List.range n.toNat).head?,
      entry buf (target buf (elementAt (target buf (place buf pos 14)) j)) 6 ≠ 0) ↔
        (n ≠ 0 → entry buf first 6 ≠ 0) := by
    intro n
    rw [List.head?_range, ne_eq, ← UInt32.toNat_inj]
    by_cases hn : n.toNat = 0
    · rw [if_pos hn]
      exact iff_of_true nofun fun hne => absurd hn hne
    · rw [if_neg hn]
      exact ⟨fun h _ => h 0 rfl, fun h j hj => Option.some.inj hj ▸ h hn⟩
  have hloop : HasEntry buf pos 14 → entry buf pos 14 ≠ 0 → InRange buf (place buf pos 14) 4 →
      ((readMetrics ⟨buf, pos⟩ Table.zero Table.zero
          (List.range (word buf (target buf (place buf pos 14))).toNat)).isSome = true ↔
        (∀ j < (word buf (target buf (place buf pos 14))).toNat,
          InRange buf (elementAt (target buf (place buf pos 14)) j) 4 ∧
            Protocol.Schema.metric buf
              (target buf (elementAt (target buf (place buf pos 14)) j))) ∧
        (word buf (target buf (place buf pos 14)) ≠ 0 → entry buf first 6 ≠ 0)) := by
    intro hentry hne hplace
    refine (isSome_readMetrics hbuf hentry hne hplace rfl Table.zero Table.zero (by decide)
      _).trans ?_
    rw [hhead, or_iff_right hzero]
    simp only [List.mem_range]
  refine (isSome_vectorLoop ⟨buf, pos⟩ rfl hloop).trans ?_
  rw [field_vector_iff hbuf, FirstMetricHasData, and_assoc, ← imp_and]

theorem field_head {pos : UInt32} {slot : UInt16} {verifier : Verifier}
    (h : Verifier.field slot (.vector verifier) buf pos) :
    Verifier.field slot .head buf pos :=
  ((field_vector_iff hbuf).mp h).1

theorem isSome_readTransaction (size : ℕ) (pos : UInt32) :
    (readTransaction size ⟨buf, pos⟩).isSome = true ↔ WellFormedTxn buf pos := by
  have hread : (readTransaction size ⟨buf, pos⟩).isSome = true ↔
      Verifier.field 20 .head buf pos ∧ Verifier.field 14 .head buf pos ∧
        Verifier.field 18 .head buf pos ∧ Verifier.field 4 .text buf pos ∧
        Verifier.field 6 .text buf pos ∧ Verifier.field 26 (.number 8) buf pos ∧
        Verifier.field 8 .text buf pos ∧ Verifier.field 10 (.number 4) buf pos ∧
        Verifier.field 12 (.child Protocol.Schema.event) buf pos ∧
        (Verifier.field 14 (.vector Protocol.Schema.metric) buf pos ∧
          FirstMetricHasData buf pos) ∧
        Verifier.field 16 (.vector Protocol.Schema.error) buf pos ∧
        Verifier.field 18 (.vector Protocol.Schema.slowSQL) buf pos ∧
        Verifier.field 20 (.vector Protocol.Schema.event) buf pos ∧
        Verifier.field 28 (.vector Protocol.Schema.event) buf pos ∧
        Verifier.field 22 (.child Protocol.Schema.trace) buf pos ∧
        Verifier.field 24 (.vector Protocol.Schema.event) buf pos :=
    isSome_bind_iff (isSome_length 20) fun _ _ =>
      isSome_bind_iff (isSome_length 14) fun _ _ =>
      isSome_bind_iff (isSome_length 18) fun _ _ =>
      isSome_bind_iff (isSome_text hbuf 4) fun _ _ =>
      isSome_bind_iff (isSome_text hbuf 6) fun _ _ =>
      isSome_bind_iff (isSome_number readsBytes_float64) fun _ _ =>
      isSome_bind_iff (isSome_text hbuf 8) fun _ _ =>
      isSome_bind_iff (isSome_number readsBytes_uint32) fun _ _ =>
      isSome_bind_iff (isSome_readChild (isSome_readEvent hbuf)) fun _ _ =>
      isSome_bind_iff (isSome_metricsLoop hbuf pos) fun _ _ =>
      isSome_bind_iff (isSome_readVector hbuf (isSome_readError hbuf) _) fun _ _ =>
      isSome_bind_iff (isSome_readVector hbuf (isSome_readSlowSQL hbuf _ _) _) fun _ _ =>
      isSome_bind_iff (isSome_readVector hbuf (isSome_readEvent hbuf) _) fun _ _ =>
      isSome_bind_iff (isSome_readVector hbuf (isSome_readEvent hbuf) _) fun _ _ =>
      isSome_bind_iff (isSome_readChild (isSome_readTrace hbuf)) fun _ _ =>
      isSome_bind_some.trans (isSome_readVector hbuf (isSome_readEvent hbuf) _)
  have hschema : Protocol.Schema.transaction buf pos ↔
      Verifier.field 4 .text buf pos ∧ Verifier.field 6 .text buf pos ∧
        Verifier.field 8 .text buf pos ∧ Verifier.field 10 (.number 4) buf pos ∧
        Verifier.field 12 (.child Protocol.Schema.event) buf pos ∧
        Verifier.field 14 (.vector Protocol.Schema.metric) buf pos ∧
        Verifier.field 16 (.vector Protocol.Schema.error) buf pos ∧
        Verifier.field 18 (.vector Protocol.Schema.slowSQL) buf pos ∧
        Verifier.field 20 (.vector Protocol.Schema.event) buf pos ∧
        Verifier.field 22 (.child Protocol.Schema.trace) buf pos ∧
        Verifier.field 24 (.vector Protocol.Schema.event) buf pos ∧
        Verifier.field 26 (.number 8) buf pos ∧
        Verifier.field 28 (.vector Protocol.Schema.event) buf pos := by
    simp only [Protocol.Schema.transaction, Verifier.table_cons, Verifier.table_nil, and_true]
  rw [hread]
  constructor
  · rintro ⟨-, -, -, h4, h6, h26, h8, h10, h12, ⟨h14, hfirst⟩, h16, h18, h20, h28, h22, h24⟩
    exact ⟨hschema.mpr ⟨h4, h6, h8, h10, h12, h14, h16, h18, h20, h22, h24, h26, h28⟩, hfirst⟩
  · rintro ⟨h, hfirst⟩
    obtain ⟨h4, h6, h8, h10, h12, h14, h16, h18, h20, h22, h24, h26, h28⟩ := hschema.mp h
    exact ⟨field_head hbuf h20, field_head hbuf h14, field_head hbuf h18, h4, h6, h26, h8, h10,
      h12, ⟨h14, hfirst⟩, h16, h18, h20, h28, h22, h24⟩

end Reads

/-! ### Messages that are survived -/

/-- The type of the message's body. -/
def bodyType (buf : Bytes) (root : UInt32) : UInt8 :=
  if entry buf root 6 = 0 then 0 else byte buf (place buf root 6)

/-- Where the message's body is, if there is one. -/
def bodyAt (buf : Bytes) (root : UInt32) : UInt32 := target buf (place buf root 8)

/-- The message has an agent run id that is not empty. -/
def NamesRun (buf : Bytes) (root : UInt32) : Prop :=
  entry buf root 4 ≠ 0 ∧ word buf (target buf (place buf root 4)) ≠ 0

/-- A message that can be read, as far as the daemon looks into one of its type. -/
structure WellFormedMessage (buf : Bytes) (root : UInt32) : Prop where
  dataType : Verifier.field 6 (.number 1) buf root
  data : bodyType buf root = Protocol.messageBodyTransaction ∨
    bodyType buf root = Protocol.messageBodyApp → Verifier.field 8 (.number 4) buf root
  agentRunId : bodyType buf root = Protocol.messageBodyTransaction ∨
    bodyType buf root = Protocol.messageBodyApp → entry buf root 8 ≠ 0 →
      Verifier.field 4 .text buf root
  txn : bodyType buf root = Protocol.messageBodyTransaction → entry buf root 8 ≠ 0 →
    NamesRun buf root → WellFormedTxn buf (bodyAt buf root)
  app : bodyType buf root = Protocol.messageBodyApp → entry buf root 8 ≠ 0 →
    Protocol.Schema.app buf (bodyAt buf root)

theorem survives_bind_iff {α : Type} {x : Option α} {f : α → Option Processed} {p q : Prop}
    (hx : x.isSome = true ↔ p) (hf : ∀ a, x = some a → (Survives (f a) ↔ q)) :
    Survives (x >>= f) ↔ p ∧ q := by
  cases x with
  | none =>
      have hp : ¬ p := fun h => nomatch hx.mpr h
      exact iff_of_false nofun fun h => hp h.1
  | some a =>
      have hp : p := hx.mp rfl
      exact (hf a rfl).trans (and_iff_right hp).symm

theorem survives_ignored : Survives (some .ignored) := ⟨_, rfl, nofun⟩

theorem survives_error (text : String) : Survives (some (.error text)) := ⟨_, rfl, nofun⟩

theorem survives_appInfo (runID : Option Bytes) (info : FlatAppInfo) :
    Survives (some (.appInfo runID info)) := ⟨_, rfl, nofun⟩

theorem survives_txnData (id sample : Bytes) :
    Survives (some (.txnData id sample)) ↔ (readTxn sample).isSome = true := by
  constructor
  · rintro ⟨_, heq, h⟩
    let d : AppData (Option Bytes) Int32 :=
      { harvest := newHarvest 0 ⟨0, 0, 0, 0⟩ 0
        spans := { reservoir := fun _ => newAnalyticsEvents 0, next := 1 }
        inflight := [] }
    exact isSome_bind_some.mp (h id sample (Option.some.inj heq).symm d)
  · intro h
    refine ⟨_, rfl, fun id' sample' heq d => ?_⟩
    obtain ⟨-, rfl⟩ := Processed.txnData.inj heq
    exact isSome_bind_some.mpr h

theorem message_data_eq (rcv : Table) : Protocol.Message.data rcv = rcv.child 8 := by
  unfold Protocol.Message.data Table.child Table.union Table.indirect
  simp only [Option.bind_eq_bind, Option.bind_assoc, Option.bind_some]

section Messages

variable {buf : Bytes} (hbuf : buf.length < 2 ^ 32)
include hbuf

theorem survives_transaction {root : UInt32}
    (hroot : Protocol.getRootAsMessage buf 0 = some ⟨buf, root⟩) :
    Survives (processTransaction buf ⟨buf, root⟩) ↔
      Verifier.field 8 (.number 4) buf root ∧
        (entry buf root 8 ≠ 0 → Verifier.field 4 .text buf root ∧
          (NamesRun buf root → WellFormedTxn buf (bodyAt buf root))) := by
  unfold processTransaction
  rw [message_data_eq]
  refine survives_bind_iff (isSome_child 8) fun body hbody => ?_
  obtain ⟨habsent, hpresent⟩ := child_eq hbody
  by_cases hzero : entry buf root 8 = 0
  · rw [habsent hzero]
    exact iff_of_true (survives_error _) fun hne => absurd hzero hne
  rw [hpresent hzero] at hbody ⊢
  rw [forall_prop_of_true hzero]
  refine survives_bind_iff (isSome_text hbuf 4) fun id hid => ?_
  have hnames : 0 < (id.getD []).length ↔ NamesRun buf root := by
    obtain ⟨hnone, hlength⟩ := text_eq hbuf hid
    by_cases hid : entry buf root 4 = 0
    · rw [hnone hid]
      exact iff_of_false (Nat.lt_irrefl 0) fun h => h.1 hid
    · rw [hlength hid, Nat.pos_iff_ne_zero, NamesRun, and_iff_right hid, ne_eq, ne_eq,
        ← UInt32.toNat_inj]
      rfl
  have hread : (readTxn buf).isSome = true ↔ WellFormedTxn buf (bodyAt buf root) := by
    have heq : readTxn buf = readTransaction buf.length ⟨buf, bodyAt buf root⟩ := by
      rw [readTxn, hroot, Option.bind_eq_bind, Option.bind_some, message_data_eq, hbody]
      rfl
    rw [heq]
    exact isSome_readTransaction hbuf buf.length (bodyAt buf root)
  split
  · next hpos =>
      rw [survives_txnData, hread, forall_prop_of_true (hnames.mp hpos)]
  · next hpos => exact iff_of_true (survives_error _) fun h => absurd (hnames.mpr h) hpos

theorem survives_app (root : UInt32) :
    Survives (processApp ⟨buf, root⟩) ↔
      Verifier.field 8 (.number 4) buf root ∧
        (entry buf root 8 ≠ 0 → Protocol.Schema.app buf (bodyAt buf root) ∧
          Verifier.field 4 .text buf root) := by
  unfold processApp
  rw [message_data_eq]
  refine survives_bind_iff (isSome_child 8) fun body hbody => ?_
  obtain ⟨habsent, hpresent⟩ := child_eq hbody
  by_cases hzero : entry buf root 8 = 0
  · rw [habsent hzero]
    exact iff_of_true (survives_error _) fun hne => absurd hzero hne
  · rw [hpresent hzero, forall_prop_of_true hzero]
    refine survives_bind_iff (isSome_unmarshalAppInfo hbuf (bodyAt buf root)) fun info _ => ?_
    exact (survives_bind_iff (isSome_text hbuf 4) fun id _ =>
      iff_of_true (survives_appInfo id info) trivial).trans (and_iff_left trivial)

theorem survives_message {root : UInt32}
    (hroot : Protocol.getRootAsMessage buf 0 = some ⟨buf, root⟩) :
    Survives (processMessage buf ⟨buf, root⟩) ↔ WellFormedMessage buf root := by
  let txn : Prop := bodyType buf root = Protocol.messageBodyTransaction
  let app : Prop := bodyType buf root = Protocol.messageBodyApp
  have hmessage : Survives (processMessage buf ⟨buf, root⟩) ↔
      Verifier.field 6 (.number 1) buf root ∧
        (txn → Verifier.field 8 (.number 4) buf root ∧
          (entry buf root 8 ≠ 0 → Verifier.field 4 .text buf root ∧
            (NamesRun buf root → WellFormedTxn buf (bodyAt buf root)))) ∧
        (app → Verifier.field 8 (.number 4) buf root ∧
          (entry buf root 8 ≠ 0 → Protocol.Schema.app buf (bodyAt buf root) ∧
            Verifier.field 4 .text buf root)) := by
    refine survives_bind_iff (isSome_number readsBytes_uint8) fun dataType hdataType => ?_
    have htype : dataType = bodyType buf root := getUint8_eq ⟨buf, root⟩ hdataType
    rw [htype]
    split
    · next htxn =>
        have happ : ¬ app := fun happ => absurd (htxn.symm.trans happ) (by decide)
        rw [survives_transaction hbuf hroot]
        exact ⟨fun h => ⟨fun _ => h, fun h => absurd h happ⟩, fun h => h.1 htxn⟩
    · next htxn =>
      split
      · next happ =>
          rw [survives_app hbuf]
          exact ⟨fun h => ⟨fun h => absurd h htxn, fun _ => h⟩, fun h => h.2 happ⟩
      · next happ =>
          have hnothing : Survives
              (if bodyType buf root = Protocol.messageBodyNone then some .ignored
                else if bodyType buf root = Protocol.messageBodyAppReply then some .ignored
                else some (.error "binary encoding not implemented")) := by
            split
            · exact survives_ignored
            · split
              · exact survives_ignored
              · exact survives_error _
          exact iff_of_true hnothing ⟨fun h => absurd h htxn, fun h => absurd h happ⟩
  rw [hmessage]
  constructor
  · rintro ⟨htype, htxn, happ⟩
    exact
      { dataType := htype
        data := fun h => h.elim (fun h => (htxn h).1) fun h => (happ h).1
        agentRunId := fun h hne => h.elim (fun h => ((htxn h).2 hne).1) fun h => ((happ h).2 hne).2
        txn := fun h hne => ((htxn h).2 hne).2
        app := fun h hne => ((happ h).2 hne).1 }
  · intro h
    exact ⟨h.dataType,
      fun htxn => ⟨h.data (.inl htxn), fun hne => ⟨h.agentRunId (.inl htxn) hne, h.txn htxn hne⟩⟩,
      fun happ => ⟨h.data (.inr happ), fun hne => ⟨h.app happ hne, h.agentRunId (.inr happ) hne⟩⟩⟩

end Messages

theorem getRootAsMessage_eq {data : Bytes} {offset : UInt32}
    (h : getUint32 data = some offset) :
    Protocol.getRootAsMessage data 0 = some ⟨data, word data 0⟩ := by
  have hslice : sliceFrom data 0 = some data := if_pos (Nat.zero_le data.length)
  have hword : word data 0 = offset := by
    change (getUint32 data).getD 0 = offset
    rw [h, Option.getD_some]
  rw [Protocol.getRootAsMessage, hslice, Option.bind_eq_bind, Option.bind_some, h, hword,
    Option.bind_eq_bind, Option.bind_some, UInt32.add_zero]

/-- A message that the daemon can receive is survived if and only if it is empty, or has
a root offset that is too large for its length, or is well formed. -/
theorem handledSafely_iff (data : Bytes) (hdata : data.length ≤ maxMessageSize) :
    HandledSafely data ↔
      data = [] ∨ InRange data 0 4 ∧
        (data.length ≤ (word data 0).toNat + minFlatbufferSize ∨
          WellFormedMessage data (word data 0)) := by
  have hbuf : data.length < 2 ^ 32 := Nat.lt_of_le_of_lt hdata (by decide)
  unfold HandledSafely processBinary
  split
  · next hempty =>
      exact iff_of_true survives_ignored (.inl (List.eq_nil_of_length_eq_zero hempty))
  · next hne =>
      have hnil : ¬ data = [] := fun h => hne (congrArg List.length h)
      have hfour : (getUint32 data).isSome = true ↔ InRange data 0 4 := by
        rw [readsBytes_uint32, inRange_iff]
        rfl
      rw [or_iff_right hnil]
      refine survives_bind_iff hfour fun offset hoffset => ?_
      have hroot := getRootAsMessage_eq hoffset
      have hword : offset = word data 0 := by
        change offset = (getUint32 data).getD 0
        rw [hoffset, Option.getD_some]
      have hcheck : (data.length : ℤ) - minFlatbufferSize ≤ (word data 0).toNat ↔
          data.length ≤ (word data 0).toNat + minFlatbufferSize := by omega
      rw [hword]
      split
      · next hlarge => exact iff_of_true (survives_error _) (.inl (hcheck.mp hlarge))
      · next hsmall =>
          rw [or_iff_right fun h => hsmall (hcheck.mpr h), hroot]
          exact survives_message hbuf hroot

/-- A transaction message whose body is said to be 2 GB away: the run id can be read, the
transaction cannot. -/
def brokenTransaction : Bytes :=
  [16, 0, 0, 0,
    10, 0, 14, 0, 4, 0, 12, 0, 8, 0, 0, 0,
    12, 0, 0, 0, 12, 0, 0, 0, 0, 0, 0, 127, 3, 0, 0, 0,
    1, 0, 0, 0, 97]

/-- The processor is handed a message that it cannot read. -/
theorem brokenTransaction_panics :
    processBinary brokenTransaction = some (.txnData [97] brokenTransaction) ∧
      (readTxn brokenTransaction).isNone = true ∧ ¬ HandledSafely brokenTransaction := by
  have hprocess : processBinary brokenTransaction = some (.txnData [97] brokenTransaction) := by
    rfl
  have hread : (readTxn brokenTransaction).isNone = true := by
    rfl
  refine ⟨hprocess, hread, fun h => ?_⟩
  rw [HandledSafely, hprocess, survives_txnData] at h
  rw [Option.isNone_iff_eq_none] at hread
  rw [hread] at h
  exact absurd h nofun

/-- The same message with a body, which has no fields. -/
def emptyTransaction : Bytes :=
  [16, 0, 0, 0,
    10, 0, 14, 0, 4, 0, 12, 0, 8, 0, 0, 0,
    12, 0, 0, 0, 12, 0, 0, 0, 20, 0, 0, 0, 3, 0, 0, 0,
    1, 0, 0, 0, 97, 0, 0, 0,
    4, 0, 4, 0, 4, 0, 0, 0]

theorem handledSafely_iff_emptyTransaction : WellFormedMessage emptyTransaction 16 := by
  have hprocess : processBinary emptyTransaction = some (.txnData [97] emptyTransaction) := by
    rfl
  have hread : (readTxn emptyTransaction).isSome = true := by
    rfl
  have hsafe : HandledSafely emptyTransaction := by
    rw [HandledSafely, hprocess, survives_txnData]
    exact hread
  rcases (handledSafely_iff emptyTransaction (by decide)).mp hsafe with hnil | ⟨-, hlarge | hwell⟩
  · exact absurd hnil (List.cons_ne_nil _ _)
  · exact absurd hlarge (by decide)
  · exact hwell

end AxiomDaemon.Daemon

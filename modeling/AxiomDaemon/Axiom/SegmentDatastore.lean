import AxiomDaemon.Axiom.SegmentTraces
import AxiomDaemon.Axiom.Slowsqls
import AxiomDaemon.Axiom.TxnOptions
import AxiomDaemon.Util.ObjectJson
import AxiomDaemon.Util.Sql

/-!
The end of a datastore segment, `nr_segment_datastore.c`: what a call leaves in
its segment, in the table of slow SQL statements and in the metrics, and what
of the parameters of the call that may depend on.

The analysis of an SQL statement, the number of a normalized statement and the
name of the host are parameters. The texts in the table of slow statements have
a character for each byte.
-/

namespace AxiomDaemon.Axiom

open AxiomDaemon.Lib AxiomDaemon.Util

/-! ### Datastores -/

/-- `nr_datastore_t`. -/
inductive NrDatastore
  | other
  | mongodb
  | memcache
  | mysql
  | redis
  | mssql
  | oracle
  | postgres
  | sqlite
  | firebird
  | odbc
  | sybase
  | informix
  | pdo
  | mustBeLast
  deriving DecidableEq

/-- `datastore_mappings`: the name, and whether the datastore speaks SQL. -/
def datastoreMappings : NrDatastore → Option Bytes × Bool
  | .other => (none, false)
  | .mongodb => (some (ascii "MongoDB"), false)
  | .memcache => (some (ascii "Memcached"), false)
  | .mysql => (some (ascii "MySQL"), true)
  | .redis => (some (ascii "Redis"), false)
  | .mssql => (some (ascii "MSSQL"), true)
  | .oracle => (some (ascii "Oracle"), true)
  | .postgres => (some (ascii "Postgres"), true)
  | .sqlite => (some (ascii "SQLite"), true)
  | .firebird => (some (ascii "Firebird"), true)
  | .odbc => (some (ascii "ODBC"), false)
  | .sybase => (some (ascii "Sybase"), true)
  | .informix => (some (ascii "Informix"), true)
  | .pdo => (some (ascii "PDO"), false)
  | .mustBeLast => (none, false)

def nrDatastoreAsString (ds : NrDatastore) : Option Bytes := (datastoreMappings ds).1

def nrDatastoreIsSql (ds : NrDatastore) : Bool := (datastoreMappings ds).2

/-- `nr_datastore_instance_is_localhost`. -/
def nrDatastoreInstanceIsLocalhost (host : Option Bytes) : Bool :=
  host.any fun h =>
    h ∈ [ascii "localhost", ascii "127.0.0.1", ascii "0.0.0.0", ascii "0:0:0:0:0:0:0:1",
      ascii "::1", ascii "0:0:0:0:0:0:0:0", ascii "::"]

/-- A text that is there and not empty, or `unknown`. -/
def orUnknown (text : Option Bytes) : Bytes :=
  match text with
  | none => ascii "unknown"
  | some t => if t = [] then ascii "unknown" else t

/-- `nr_datastore_instance_set_host`; `hostname` is what the system is called. -/
def nrDatastoreInstanceSetHost (hostname : Bytes) (instance_ : NrDatastoreInstance)
    (host : Option Bytes) : NrDatastoreInstance :=
  { instance_ with
    host := some (if nrDatastoreInstanceIsLocalhost host then hostname else orUnknown host) }

def nrDatastoreInstanceSetPortPathOrId (instance_ : NrDatastoreInstance)
    (portPathOrId : Option Bytes) : NrDatastoreInstance :=
  { instance_ with portPathOrId := some (orUnknown portPathOrId) }

def nrDatastoreInstanceSetDatabaseName (instance_ : NrDatastoreInstance)
    (databaseName : Option Bytes) : NrDatastoreInstance :=
  { instance_ with databaseName := some (orUnknown databaseName) }

/-! ### Slow statements -/

/-- `nr_slowsqls_labelled_query_t`. -/
structure LabelledQuery where
  name : Option Bytes
  query : Option Bytes
  deriving DecidableEq

/-- `nr_slowsqls_params_t`. -/
structure NrSlowsqlsParams where
  sql : Option Bytes
  duration : ℕ
  stacktraceJson : Option Bytes
  metricName : Option Bytes
  planJson : Option Bytes
  inputQueryJson : Option Bytes
  instance_ : Option NrDatastoreInstance
  instanceReportingEnabled : Bool
  databaseNameReportingEnabled : Bool
  deriving DecidableEq

/-- `nro_set_hash_jstring`, for a text that is there. -/
def setHashJstring (obj : NrObj) (key : String) (json : Option Bytes) : NrObj :=
  match json with
  | none => obj
  | some json => nroSetHash obj (ascii key) (.jstring json)

def nroSetHashString (obj : NrObj) (key : String) (value : Option Bytes) : NrObj :=
  nroSetHash obj (ascii key) (.string (nrStrdup value))

/-- `nr_slowsqls_create_params_json`. -/
def nrSlowsqlsCreateParamsJson (params : NrSlowsqlsParams) : Bytes :=
  let obj := setHashJstring (.hash []) "explain_plan" (params.planJson.filter (· ≠ []))
  let obj := setHashJstring obj "backtrace" params.stacktraceJson
  let obj := setHashJstring obj "input_query" params.inputQueryJson
  let obj :=
    match params.instance_ with
    | none => obj
    | some i =>
        let obj :=
          if params.instanceReportingEnabled then
            nroSetHashString (nroSetHashString obj "host" i.host) "port_path_or_id" i.portPathOrId
          else obj
        if params.databaseNameReportingEnabled then
          nroSetHashString obj "database_name" i.databaseName
        else obj
  nroToJson (some obj)

/-- A text of bytes, a character for each. -/
def textOf (bytes : Bytes) : String := String.ofList (bytes.map fun b => Char.ofNat b.toNat)

/-- `nr_slowsqls_add` with its checks. `sqlId` is `nr_sql_normalized_id`. -/
def addSlowsql (sqlId : Bytes → UInt32) (slowsqls : Option NrSlowsqls)
    (params : NrSlowsqlsParams) : Option NrSlowsqls :=
  match slowsqls, params.sql, params.metricName with
  | some slowsqls, some sql, some metricName =>
      let id := sqlId (obfuscateLoop .normal sql)
      if params.stacktraceJson = none ∨ params.duration = 0 ∨ id = 0 then some slowsqls
      else
        some (nrSlowsqlsAdd slowsqls
          { sqlId := id
            sql := textOf sql
            duration := UInt64.ofNat params.duration
            metricName := textOf metricName
            paramsJson := textOf (nrSlowsqlsCreateParamsJson params) })
  | slowsqls, _, _ => slowsqls

/-! ### The call -/

/-- `nr_segment_datastore_params_t`. A callback is given by what it returns. -/
structure SegmentDatastoreParams where
  collection : Option Bytes
  operation : Option Bytes
  instance_ : Option NrDatastoreInstance
  type : NrDatastore
  string : Option Bytes
  sql : Option Bytes
  planJson : Option Bytes
  inputQuery : Option LabelledQuery
  backtrace : Option (Option Bytes)
  modifyTableName : Option (Bytes → Bytes)

/-- What `nr_segment_datastore_end` reads and writes of `nrtxn_t`. The metrics
are the names of those that the call adds to. -/
structure DatastoreTxn where
  options : Nrtxnopt
  highSecurity : Bool
  noSqlParsing : Bool
  absStartTime : ℕ
  traceStrings : NrPool
  datastoreProducts : NrPool
  unscopedMetrics : List Bytes
  slowsqls : Option NrSlowsqls

/-- `nr_txn_sql_recording_level`. -/
def nrTxnSqlRecordingLevel (txn : DatastoreTxn) : NrTtRecordsql :=
  match txn.options.ttRecordsql with
  | .raw => if txn.highSecurity then .obfuscated else .raw
  | .obfuscated => .obfuscated
  | .none => .none

/-- `nr_segment_potential_slowsql`. -/
def nrSegmentPotentialSlowsql (txn : DatastoreTxn) (duration : ℕ) : Bool :=
  if txn.options.ttRecordsql = .none ∨ txn.options.ttSlowsql = false then false
  else decide (txn.options.epThreshold.toNat ≤ duration)

/-- `nr_segment_datastore_stack_worthy`. -/
def nrSegmentDatastoreStackWorthy (txn : DatastoreTxn) (duration : ℕ) : Bool :=
  if 0 < txn.options.ssThreshold.toNat ∧ txn.options.ssThreshold.toNat ≤ duration then true
  else txn.options.ttSlowsql && decide (txn.options.epThreshold.toNat ≤ duration)

/-- What the call uses that is not modelled. `parse` finds the operation and the
table of a statement. -/
structure DatastoreCalls where
  parse : Option Bytes → Option Bytes × Option Bytes
  sqlId : Bytes → UInt32
  hostname : Bytes

section Call

variable (calls : DatastoreCalls) (txn : DatastoreTxn)

/-- `nr_segment_sql_get_operation_and_table`. -/
def nrSegmentSqlGetOperationAndTable (sql : Option Bytes)
    (modifyTableName : Option (Bytes → Bytes)) : Option Bytes × Option Bytes :=
  if txn.noSqlParsing then (none, none)
  else
    let (operation, table) := calls.parse sql
    (operation, table.map (modifyTableName.getD id))

/-- The product: the name of the type, or for another type the name given. -/
def SegmentDatastoreParams.product (params : SegmentDatastoreParams) : Option Bytes :=
  if nrDatastoreIsSql params.type then nrDatastoreAsString params.type
  else if params.type = .other then params.string
  else nrDatastoreAsString params.type

/-- The operation and the collection that the statement is taken to be about:
those given, else those found in the statement. -/
def SegmentDatastoreParams.target (params : SegmentDatastoreParams) : Bytes × Option Bytes :=
  let found :=
    if nrDatastoreIsSql params.type ∧ (params.collection = none ∨ params.operation = none) then
      nrSegmentSqlGetOperationAndTable calls txn params.sql params.modifyTableName
    else (none, none)
  ((params.operation.or found.1).getD (ascii "other"), params.collection.or found.2)

/-- `create_metrics`: the name of the scoped metric, the instance that is
reported and the metrics of the segment. -/
def createMetrics (product operation : Bytes) (collection : Option Bytes)
    (instance_ : Option NrDatastoreInstance) :
    Bytes × NrDatastoreInstance × List (Bytes × Bool) :=
  let operationMetric := ascii "Datastore/operation/" ++ product ++ ascii "/" ++ operation
  let (scopedMetric, metrics) :=
    match collection with
    | none => (operationMetric, [(operationMetric, true)])
    | some c =>
        let statementMetric :=
          ascii "Datastore/statement/" ++ product ++ ascii "/" ++ c ++ ascii "/" ++ operation
        (statementMetric, [(operationMetric, false), (statementMetric, true)])
  let reported : NrDatastoreInstance := { host := none, portPathOrId := none, databaseName := none }
  match instance_ with
  | none => (scopedMetric, reported, metrics)
  | some i =>
      if !txn.options.instanceReportingEnabled then (scopedMetric, reported, metrics)
      else
        let reported :=
          if txn.options.databaseNameReportingEnabled then
            nrDatastoreInstanceSetDatabaseName reported i.databaseName
          else reported
        -- a text that is not there is printed as `(null)`
        let instanceMetric := ascii "Datastore/instance/" ++ product ++ ascii "/" ++
          i.host.getD (ascii "(null)") ++ ascii "/" ++ i.portPathOrId.getD (ascii "(null)")
        let reported := nrDatastoreInstanceSetHost calls.hostname reported i.host
        (scopedMetric, nrDatastoreInstanceSetPortPathOrId reported i.portPathOrId,
          metrics ++ [(instanceMetric, false)])

/-- The statement as it is recorded: raw and obfuscated. -/
def recordedSql (sql : Option Bytes) : Option Bytes × Option Bytes :=
  match nrTxnSqlRecordingLevel txn with
  | .raw => (sql, none)
  | .obfuscated => (none, nrSqlObfuscate sql)
  | .none => (none, none)

/-- The input query as it is recorded. It is replaced when statements are
obfuscated, and kept as it is else. -/
def recordedInputQuery (inputQuery : Option LabelledQuery) : Option LabelledQuery :=
  match nrTxnSqlRecordingLevel txn with
  | .obfuscated => inputQuery.map fun q => { q with query := nrSqlObfuscate q.query }
  | _ => inputQuery

def inputQueryJson (q : LabelledQuery) : Bytes :=
  nroToJson (some (nroSetHashString (nroSetHashString (.hash []) "label" q.name) "query" q.query))

/-- What the call leaves behind. -/
structure DatastoreEnd where
  txn : DatastoreTxn
  segment : NrSegment
  segmentMetrics : List (Bytes × Bool)

/-- The part of `nr_segment_datastore_end` after the product is known. What the
end of a segment does to the stacks is left out. -/
def endWithProduct (segment : NrSegment) (params : SegmentDatastoreParams) (now : ℕ)
    (product : Bytes) : DatastoreEnd :=
  let isSql := nrDatastoreIsSql params.type
  let (operation, collection) := params.target calls txn
  let segment :=
    if segment.stopTime = 0 then { segment with stopTime := nrTimeDuration txn.absStartTime now }
    else segment
  let duration := nrTimeDuration segment.startTime segment.stopTime
  let backtraceJson := if nrSegmentDatastoreStackWorthy txn duration then params.backtrace.join
    else none
  let (scopedMetric, reported, segmentMetrics) :=
    createMetrics calls txn product operation collection params.instance_
  let (traceStrings, name) := nrStringAdd txn.traceStrings scopedMetric
  let (sql, sqlObfuscated) := if isSql then recordedSql txn params.sql else (none, none)
  let inputQuery := if isSql then recordedInputQuery txn params.inputQuery else params.inputQuery
  let datastore : NrSegmentDatastore :=
    { component := some product
      sql
      sqlObfuscated
      inputQueryJson := inputQuery.map inputQueryJson
      backtraceJson
      explainPlanJson := params.planJson
      instance_ := reported }
  let slowsqls :=
    if isSql && nrSegmentPotentialSlowsql txn duration then
      addSlowsql calls.sqlId txn.slowsqls
        { sql := sqlObfuscated.or sql
          duration
          stacktraceJson := backtraceJson
          metricName := some scopedMetric
          planJson := params.planJson
          inputQueryJson := inputQuery.map inputQueryJson
          instance_ := params.instance_
          instanceReportingEnabled := txn.options.instanceReportingEnabled
          databaseNameReportingEnabled := txn.options.databaseNameReportingEnabled }
    else txn.slowsqls
  { txn :=
      { txn with
        traceStrings
        datastoreProducts := (nrStringAdd txn.datastoreProducts product).1
        unscopedMetrics := txn.unscopedMetrics ++
          [ascii "Datastore/all", ascii "Datastore/" ++ product ++ ascii "/all"]
        slowsqls }
    segment := { segment with name, type := .datastore datastore }
    segmentMetrics }

/-- `nr_segment_datastore_end`, for a segment of the transaction. -/
def nrSegmentDatastoreEnd (segment : NrSegment) (params : SegmentDatastoreParams) (now : ℕ) :
    DatastoreEnd :=
  match params.product with
  | none => { txn, segment, segmentMetrics := [] }
  | some product => endWithProduct calls txn segment params now product

end Call

end AxiomDaemon.Axiom

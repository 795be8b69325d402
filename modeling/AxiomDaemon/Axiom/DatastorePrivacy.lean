import AxiomDaemon.Axiom.SegmentDatastore

/-!
Two runs of the end of a datastore segment whose parameters differ only in what
the settings of the transaction keep private.
-/

namespace AxiomDaemon.Axiom

open AxiomDaemon.Lib AxiomDaemon.Lib.Json AxiomDaemon.Util AxiomDaemon.Util.ObjectJson

/-! ### What may differ -/

/-- Two texts of a statement between which the recording level makes no
difference. -/
def SameText : NrTtRecordsql → Option Bytes → Option Bytes → Prop
  | .raw, s, t => s = t
  | .obfuscated, s, t => Option.Rel SameButLiterals s t
  | .none, _, _ => True

/-- Two input queries with the same label. -/
structure SameQuery (level : NrTtRecordsql) (x y : LabelledQuery) : Prop where
  name : x.name = y.name
  query : SameText level x.query y.query

/-- Two instances between which the settings make no difference. -/
structure SameInstance (options : Nrtxnopt) (i j : NrDatastoreInstance) : Prop where
  host : options.instanceReportingEnabled = true → i.host = j.host
  portPathOrId : options.instanceReportingEnabled = true → i.portPathOrId = j.portPathOrId
  databaseName : options.databaseNameReportingEnabled = true → i.databaseName = j.databaseName

/-- Parameters that differ only in what is private. -/
structure SameButPrivate (calls : DatastoreCalls) (txn : DatastoreTxn)
    (p q : SegmentDatastoreParams) : Prop where
  type : p.type = q.type
  string : p.string = q.string
  target : p.target calls txn = q.target calls txn
  planJson : p.planJson = q.planJson
  backtrace : p.backtrace = q.backtrace
  sql : SameText (nrTxnSqlRecordingLevel txn) p.sql q.sql
  inputQuery : Option.Rel (SameQuery (nrTxnSqlRecordingLevel txn)) p.inputQuery q.inputQuery
  instance_ : Option.Rel (SameInstance txn.options) p.instance_ q.instance_

/-- The span event that the pass over the tree makes of the segment. -/
def DatastoreEnd.spanEvent (e : DatastoreEnd) (guid : ℕ → Bytes) (s : SpanData) : SpanData :=
  nrSegmentIterationPassSpan guid e.txn.absStartTime e.segment
    ((nrStringGet e.txn.traceStrings e.segment.name).getD (ascii "<unknown>")) s

/-- The same attributes, span event and slow statements. -/
structure SameReport (e e' : DatastoreEnd) : Prop where
  attributes : typedAttributes e.segment = typedAttributes e'.segment
  spanEvent : ∀ guid s, e.spanEvent guid s = e'.spanEvent guid s
  slowsqls : e.txn.slowsqls = e'.txn.slowsqls

/-! ### What the call makes of it -/

theorem nrSqlObfuscate_congr {s t : Option Bytes} (h : Option.Rel SameButLiterals s t) :
    nrSqlObfuscate s = nrSqlObfuscate t := by
  cases h with
  | none => rfl
  | some h => exact congrArg some (obfuscateLoop_congr h)

theorem recordedSql_congr {txn : DatastoreTxn} {s t : Option Bytes}
    (h : SameText (nrTxnSqlRecordingLevel txn) s t) : recordedSql txn s = recordedSql txn t := by
  unfold recordedSql
  cases hlevel : nrTxnSqlRecordingLevel txn with
  | none => rfl
  | raw =>
      rw [hlevel] at h
      obtain rfl : s = t := h
      rfl
  | obfuscated =>
      rw [hlevel] at h
      exact congrArg (Prod.mk none) (nrSqlObfuscate_congr h)

/-- Unless statements are not recorded at all, input queries are recorded the
same. -/
theorem recordedInputQuery_congr {txn : DatastoreTxn} {x y : Option LabelledQuery}
    (hlevel : nrTxnSqlRecordingLevel txn ≠ .none)
    (h : Option.Rel (SameQuery (nrTxnSqlRecordingLevel txn)) x y) :
    recordedInputQuery txn x = recordedInputQuery txn y := by
  unfold recordedInputQuery
  cases h with
  | none => rfl
  | @some x y h =>
      obtain ⟨hname, hquery⟩ := h
      cases hl : nrTxnSqlRecordingLevel txn with
      | none => exact absurd hl hlevel
      | raw =>
          rw [hl] at hquery
          have hxy : x = y := by
            calc x = ⟨x.name, x.query⟩ := rfl
              _ = ⟨y.name, y.query⟩ := by rw [hname, show x.query = y.query from hquery]
          rw [hxy]
      | obfuscated =>
          rw [hl] at hquery
          simp only [Option.map_some, hname, nrSqlObfuscate_congr hquery]

theorem createMetrics_congr {calls : DatastoreCalls} {txn : DatastoreTxn}
    {i j : Option NrDatastoreInstance} (h : Option.Rel (SameInstance txn.options) i j)
    (product operation : Bytes) (collection : Option Bytes) :
    createMetrics calls txn product operation collection i =
      createMetrics calls txn product operation collection j := by
  cases h with
  | none => rfl
  | @some i j h =>
      simp only [createMetrics]
      cases hreporting : txn.options.instanceReportingEnabled with
      | false => rfl
      | true =>
          rw [h.host hreporting, h.portPathOrId hreporting]
          cases hname : txn.options.databaseNameReportingEnabled with
          | false => rfl
          | true => rw [h.databaseName hname]

/-- The JSON of the parameters of a slow statement says of the instance what the
settings allow. -/
theorem nrSlowsqlsCreateParamsJson_congr {options : Nrtxnopt} {params : NrSlowsqlsParams}
    (hreporting : params.instanceReportingEnabled = options.instanceReportingEnabled)
    (hname : params.databaseNameReportingEnabled = options.databaseNameReportingEnabled)
    {j : Option NrDatastoreInstance} (h : Option.Rel (SameInstance options) params.instance_ j) :
    nrSlowsqlsCreateParamsJson params =
      nrSlowsqlsCreateParamsJson { params with instance_ := j } := by
  generalize hi : params.instance_ = i at h
  cases h with
  | none => simp only [nrSlowsqlsCreateParamsJson, hi]
  | @some i j h =>
      simp only [nrSlowsqlsCreateParamsJson, hi]
      have hinstance : ∀ obj, (if params.instanceReportingEnabled then
          nroSetHashString (nroSetHashString obj "host" i.host) "port_path_or_id" i.portPathOrId
          else obj) = if params.instanceReportingEnabled then
          nroSetHashString (nroSetHashString obj "host" j.host) "port_path_or_id" j.portPathOrId
          else obj := by
        intro obj
        by_cases hr : params.instanceReportingEnabled = true
        · rw [h.host (hreporting ▸ hr), h.portPathOrId (hreporting ▸ hr)]
        · rw [if_neg hr, if_neg hr]
      rw [hinstance]
      by_cases hd : params.databaseNameReportingEnabled = true
      · rw [h.databaseName (hname ▸ hd)]
      · rw [if_neg hd, if_neg hd]

theorem addSlowsql_congr {sqlId : Bytes → UInt32} {slowsqls : Option NrSlowsqls}
    {params : NrSlowsqlsParams} {j : Option NrDatastoreInstance}
    (h : nrSlowsqlsCreateParamsJson params =
      nrSlowsqlsCreateParamsJson { params with instance_ := j }) :
    addSlowsql sqlId slowsqls params = addSlowsql sqlId slowsqls { params with instance_ := j } := by
  simp only [addSlowsql, h]

/-- What the call leaves behind is the same once the JSON of the input query
is. -/
theorem nrSegmentDatastoreEnd_congr {calls : DatastoreCalls} {txn : DatastoreTxn}
    {p q : SegmentDatastoreParams} (hsql : nrDatastoreIsSql p.type = true)
    (h : SameButPrivate calls txn p q)
    (hjson : (recordedInputQuery txn p.inputQuery).map inputQueryJson =
      (recordedInputQuery txn q.inputQuery).map inputQueryJson)
    (segment : NrSegment) (now : ℕ) :
    nrSegmentDatastoreEnd calls txn segment p now = nrSegmentDatastoreEnd calls txn segment q now := by
  have hsql' : nrDatastoreIsSql q.type = true := h.type ▸ hsql
  have hproduct : p.product = q.product := by
    simp only [SegmentDatastoreParams.product, h.type, h.string]
  have hslow : ∀ (sql : Option Bytes) (duration : ℕ)
      (stacktraceJson metricName planJson queryJson : Option Bytes),
      addSlowsql calls.sqlId txn.slowsqls ⟨sql, duration, stacktraceJson, metricName, planJson,
          queryJson, p.instance_, txn.options.instanceReportingEnabled,
          txn.options.databaseNameReportingEnabled⟩ =
        addSlowsql calls.sqlId txn.slowsqls ⟨sql, duration, stacktraceJson, metricName, planJson,
          queryJson, q.instance_, txn.options.instanceReportingEnabled,
          txn.options.databaseNameReportingEnabled⟩ := by
    intro sql duration stacktraceJson metricName planJson queryJson
    exact addSlowsql_congr (nrSlowsqlsCreateParamsJson_congr rfl rfl h.instance_)
  have hend : ∀ product, endWithProduct calls txn segment p now product =
      endWithProduct calls txn segment q now product := by
    intro product
    simp only [endWithProduct, hsql, hsql', h.target, createMetrics_congr h.instance_,
      recordedSql_congr h.sql, hjson, h.planJson, h.backtrace, if_true, hslow]
  simp only [nrSegmentDatastoreEnd, hproduct, hend]

/-! ### The input query -/

theorem exists_product {p : SegmentDatastoreParams} (hsql : nrDatastoreIsSql p.type = true) :
    ∃ product, p.product = some product := by
  rw [SegmentDatastoreParams.product, if_pos hsql]
  cases htype : p.type with
  | other | mongodb | memcache | redis | odbc | pdo | mustBeLast =>
      rw [htype] at hsql
      cases hsql
  | mysql | mssql | oracle | postgres | sqlite | firebird | sybase | informix => exact ⟨_, rfl⟩

theorem exists_typedAttributes (calls : DatastoreCalls) (txn : DatastoreTxn)
    {p : SegmentDatastoreParams} (hsql : nrDatastoreIsSql p.type = true) (segment : NrSegment)
    (now : ℕ) :
    ∃ others, others.length = 7 ∧
      typedAttributes (nrSegmentDatastoreEnd calls txn segment p now).segment = others ++
        [(ascii "input_query", (recordedInputQuery txn p.inputQuery).map inputQueryJson, true)] := by
  obtain ⟨product, hproduct⟩ := exists_product hsql
  simp only [nrSegmentDatastoreEnd, hproduct, endWithProduct, hsql, if_true, typedAttributes]
  exact ⟨[_, _, _, _, _, _, _], rfl, rfl⟩

/-- The JSON of an input query, with the escaped text of the query at its end. -/
theorem inputQueryJson_eq (x : LabelledQuery) :
    inputQueryJson x = lbrace :: (nrJsonEscape (ascii "label") ++ colon ::
      (nrJsonEscape (nrStrdup x.name) ++ comma :: (nrJsonEscape (ascii "query") ++ colon ::
        (nrJsonEscape (nrStrdup x.query) ++ [rbrace])))) := by
  have hhash : nroSetHashString (nroSetHashString (.hash []) "label" x.name) "query" x.query =
      .hash [(ascii "label", .string (nrStrdup x.name)),
        (ascii "query", .string (nrStrdup x.query))] := by
    simp only [nroSetHashString, nroSetHash]
    rfl
  rw [inputQueryJson, hhash]
  simp only [nroToJson, recursiveObjToJson, entriesToJson, List.isEmpty_cons, List.isEmpty_nil,
    List.append_assoc, List.cons_append, List.nil_append, List.append_nil, Bool.false_eq_true,
    if_false, if_true]

theorem inputQueryJson_eq_iff {x y : LabelledQuery} (hname : x.name = y.name) :
    inputQueryJson x = inputQueryJson y ↔
      nrJsonEscape (nrStrdup x.query) = nrJsonEscape (nrStrdup y.query) := by
  rw [inputQueryJson_eq, inputQueryJson_eq, hname]
  simp only [List.cons.injEq, true_and, List.append_cancel_left_eq, List.append_cancel_right_eq]

theorem map_inputQueryJson_eq_iff {level : NrTtRecordsql} {x y : Option LabelledQuery}
    (h : Option.Rel (SameQuery level) x y) :
    x.map inputQueryJson = y.map inputQueryJson ↔
      x.map (fun x => nrJsonEscape (nrStrdup x.query)) =
        y.map (fun x => nrJsonEscape (nrStrdup x.query)) := by
  cases h with
  | none => exact Iff.rfl
  | some h =>
      simp only [Option.map_some, Option.some.injEq]
      exact inputQueryJson_eq_iff h.name

theorem SameReport.inputQueryJson {calls : DatastoreCalls} {txn : DatastoreTxn}
    {p q : SegmentDatastoreParams} {segment : NrSegment} {now : ℕ}
    (h : SameReport (nrSegmentDatastoreEnd calls txn segment p now)
      (nrSegmentDatastoreEnd calls txn segment q now))
    (hp : nrDatastoreIsSql p.type = true) (hq : nrDatastoreIsSql q.type = true) :
    (recordedInputQuery txn p.inputQuery).map inputQueryJson =
      (recordedInputQuery txn q.inputQuery).map inputQueryJson := by
  obtain ⟨others, hlength, hattributes⟩ :=
    exists_typedAttributes calls txn hp segment now
  obtain ⟨others', hlength', hattributes'⟩ :=
    exists_typedAttributes calls txn hq segment now
  have hsame := h.attributes
  rw [hattributes, hattributes'] at hsame
  obtain ⟨-, hlast⟩ := List.append_inj hsame (hlength.trans hlength'.symm)
  simpa only [List.cons.injEq, Prod.mk.injEq, true_and, and_true] using hlast

/-- The calls report the same, whatever the private parameters are, if and only
if the recording level is not `NR_SQL_NONE` or the input queries are written the
same: that level keeps statements private, but not input queries. -/
theorem datastore_end_private_iff {calls : DatastoreCalls} {txn : DatastoreTxn}
    {p q : SegmentDatastoreParams} (hsql : nrDatastoreIsSql p.type = true)
    (h : SameButPrivate calls txn p q) (segment : NrSegment) (now : ℕ) :
    SameReport (nrSegmentDatastoreEnd calls txn segment p now)
        (nrSegmentDatastoreEnd calls txn segment q now) ↔
      (nrTxnSqlRecordingLevel txn = .none →
        p.inputQuery.map (fun x => nrJsonEscape (nrStrdup x.query)) =
          q.inputQuery.map (fun x => nrJsonEscape (nrStrdup x.query))) := by
  constructor
  · intro hsame hlevel
    have hjson := hsame.inputQueryJson hsql (h.type ▸ hsql)
    simp only [recordedInputQuery, hlevel] at hjson
    exact (map_inputQueryJson_eq_iff h.inputQuery).mp hjson
  · intro hquery
    have hjson : (recordedInputQuery txn p.inputQuery).map inputQueryJson =
        (recordedInputQuery txn q.inputQuery).map inputQueryJson := by
      by_cases hlevel : nrTxnSqlRecordingLevel txn = .none
      · simp only [recordedInputQuery, hlevel]
        exact (map_inputQueryJson_eq_iff h.inputQuery).mpr (hquery hlevel)
      · rw [recordedInputQuery_congr hlevel h.inputQuery]
    have hend := nrSegmentDatastoreEnd_congr hsql h hjson segment now
    rw [hend]
    exact ⟨rfl, fun _ _ => rfl, rfl⟩

/-! ### Two calls -/

def quietCalls : DatastoreCalls :=
  { parse := fun _ => (none, none), sqlId := fun _ => 1, hostname := ascii "host" }

/-- A transaction that was just begun, with a recording level. -/
def levelTxn (level : NrTtRecordsql) : DatastoreTxn :=
  { options := { nrTxnTestOptions with ttRecordsql := level }
    highSecurity := false
    noSqlParsing := false
    absStartTime := 0
    traceStrings := []
    datastoreProducts := []
    unscopedMetrics := []
    slowsqls := nrSlowsqlsCreate 10 }

/-- A call to MySQL with a statement and an input query. -/
def mysqlParams (sql query : Bytes) : SegmentDatastoreParams :=
  { collection := some (ascii "table")
    operation := some (ascii "select")
    instance_ := none
    type := .mysql
    string := none
    sql := some sql
    planJson := none
    inputQuery := some { name := some (ascii "DQL"), query := some query }
    backtrace := none
    modifyTableName := none }

theorem target_mysqlParams (txn : DatastoreTxn) (sql query : Bytes) :
    (mysqlParams sql query).target quietCalls txn = (ascii "select", some (ascii "table")) := by
  simp only [SegmentDatastoreParams.target, mysqlParams, reduceCtorEq, or_self, and_false, if_false,
    Option.some_or, Option.getD_some]

theorem sameButPrivate_mysqlParams {txn : DatastoreTxn} {sql sql' query query' : Bytes}
    (hsql : SameText (nrTxnSqlRecordingLevel txn) (some sql) (some sql'))
    (hquery : SameText (nrTxnSqlRecordingLevel txn) (some query) (some query')) :
    SameButPrivate quietCalls txn (mysqlParams sql query) (mysqlParams sql' query') :=
  ⟨rfl, rfl, (target_mysqlParams ..).trans (target_mysqlParams ..).symm, rfl, rfl, hsql,
    .some ⟨rfl, hquery⟩, .none⟩

theorem sameButLiterals_letters (a b : UInt8) (ha : a ≠ apostrophe ∧ a ≠ Json.backslash)
    (hb : b ≠ apostrophe ∧ b ≠ Json.backslash) :
    SameButLiterals [0x78, apostrophe, a, apostrophe] [0x78, apostrophe, b, apostrophe] :=
  .other (by decide) (by decide) (by decide) (not_startsComment (by decide) (by decide) _)
    (not_startsComment (by decide) (by decide) _)
    (.literal (c := [a]) (d := [b]) (.inr rfl) (.plain ha.1 ha.2 .nil) (.plain hb.1 hb.2 .nil)
      nofun nofun .nil)

theorem datastore_end_private_iff_obfuscated :
    SameReport
      (nrSegmentDatastoreEnd quietCalls (levelTxn .obfuscated) (plainSegment 1 0 0 10)
        (mysqlParams [0x78, 0x27, 0x61, 0x27] [0x78, 0x27, 0x63, 0x27]) 0)
      (nrSegmentDatastoreEnd quietCalls (levelTxn .obfuscated) (plainSegment 1 0 0 10)
        (mysqlParams [0x78, 0x27, 0x62, 0x27] [0x78, 0x27, 0x64, 0x27]) 0) := by
  have hprivate : SameButPrivate quietCalls (levelTxn .obfuscated)
      (mysqlParams [0x78, 0x27, 0x61, 0x27] [0x78, 0x27, 0x63, 0x27])
      (mysqlParams [0x78, 0x27, 0x62, 0x27] [0x78, 0x27, 0x64, 0x27]) :=
    sameButPrivate_mysqlParams
      (.some (sameButLiterals_letters 0x61 0x62 (by decide) (by decide)))
      (.some (sameButLiterals_letters 0x63 0x64 (by decide) (by decide)))
  exact (datastore_end_private_iff rfl hprivate (plainSegment 1 0 0 10) 0).mpr nofun

/-- No statement is recorded, and the input queries are reported. -/
theorem datastore_end_reports_inputQuery :
    SameButPrivate quietCalls (levelTxn .none) (mysqlParams [] [0x61]) (mysqlParams [] [0x62]) ∧
      ¬ SameReport
        (nrSegmentDatastoreEnd quietCalls (levelTxn .none) (plainSegment 1 0 0 10)
          (mysqlParams [] [0x61]) 0)
        (nrSegmentDatastoreEnd quietCalls (levelTxn .none) (plainSegment 1 0 0 10)
          (mysqlParams [] [0x62]) 0) := by
  have hprivate : SameButPrivate quietCalls (levelTxn .none) (mysqlParams [] [0x61])
      (mysqlParams [] [0x62]) := sameButPrivate_mysqlParams trivial trivial
  refine ⟨hprivate, fun h => ?_⟩
  have htexts := (map_inputQueryJson_eq_iff hprivate.inputQuery).mp (h.inputQueryJson rfl rfl)
  have hescape : nrJsonEscape [0x61] = nrJsonEscape [0x62] := Option.some.inj htexts
  exact absurd hescape (by decide)

end AxiomDaemon.Axiom

import AxiomDaemon.Axiom.DatastorePrivacy
import AxiomDaemon.Axiom.DisabledData
import AxiomDaemon.Axiom.TxndataEncode
import AxiomDaemon.Protocol.SentMessages

/-!
What the daemon reads of the transactions that an agent has written.

The daemon finds the same texts and numbers in the same order, but for the metrics: the last
one that was written is the first that it finds.
-/

namespace AxiomDaemon.Protocol

open AxiomDaemon.Lib AxiomDaemon.Lib.Flatbuffers AxiomDaemon.Util AxiomDaemon.Daemon

/-! ### What is sent -/

/-- The number that has these bits. A zero is left out of the message, with its sign. -/
def sentFloat (bits : BitVec 64) : Float :=
  if ScalarType.differs .f64 bits 0 then Float.ofBits (.ofNat bits.toNat) else 0

/-- A number of the data of a metric. -/
def metricFloat (metric : NrmintMetric) (k : ℕ) : Float :=
  Float.ofBits (.ofNat
    (((Axiom.metricDoubles metric).reverse.map fun x => (Axiom.doubleBits x).toNat).getD k 0))

def sentFlatMetric (m : Axiom.SentMetric) : FlatMetric where
  name := goString m.name
  data :=
    { countSatisfied := metricFloat m.metric 0
      totalTolerated := metricFloat m.metric 1
      exclusiveFailed := metricFloat m.metric 2
      min := metricFloat m.metric 3
      max := metricFloat m.metric 4
      sumSquares := metricFloat m.metric 5 }
  forced := nrmIsForced m.metric
  isScoped := m.isScoped

def sentError (error : Bytes × ℤ) : TracedError (Option Bytes) where
  priority := (BitVec.ofInt 32 error.2).toInt
  data := some error.1

def sentSlowSQL (txnName txnURL : String) (slow : Axiom.NrSlowsql) : SlowSQL Int32 where
  id := slow.sqlId
  count := slow.count
  totalMicros := slow.total
  minMicros := slow.minTime
  maxMicros := slow.maxTime
  metricName := goString (some (ascii slow.metricName))
  query := goString (some (ascii slow.sql))
  txnName := txnName
  txnURL := txnURL
  params := goString (some (ascii slow.paramsJson))

def sentFlatTrace (trace : Axiom.SentTrace) : FlatTrace (Option Bytes) where
  size := trace.data.length
  durationMillis := sentFloat (Axiom.doubleBits trace.durationMs)
  forcePersist := trace.forcePersist
  data := some trace.data

/-- What an agent sends of a transaction, in a message of the length `size`. -/
def sentTxn (size : ℕ) (texts : Axiom.DataTxn.MessageTexts) (txn : Axiom.DataTxn)
    (rest : Axiom.TxndataRest) : FlatTxn (Option Bytes) Int32 :=
  let message := txn.nrTxndataEncode texts
  let name := goString rest.name
  let uri := goString (some (Axiom.sentRequestUri rest.requestUri))
  { size, name, uri
    samplingPriority := sentFloat (Axiom.doubleBits rest.distributedTrace.priority)
    syntheticsResourceID := goString rest.syntheticsResourceId
    pid := rest.pid.toInt
    txnEvent := message.txnEvent.map some
    metrics := rest.metrics.reverse.map sentFlatMetric
    errors := message.errors.map sentError
    slowSQLs := message.slowSqls.map (sentSlowSQL name uri)
    customEvents := message.customEvents.map some
    spanEvents := (message.spanEvents.map (Axiom.spanEventText rest.distributedTrace)).map some
    trace := (Axiom.sentTrace txn rest).map sentFlatTrace
    errorEvents := message.errorEvents.map some }

/-! ### Objects and vectors -/

section Objects

variable {buf : Bytes} (hbuf : buf.length < 2 ^ 31) {place : ℕ}
  {fields : ℕ → Option Flatbuffers.Field} (h : (Piece.table fields).Holds buf place)
  (slot : UInt16) (i : ℕ) (hslot : slot.toNat = 2 * (2 + i)) {α β : Type}
  {holds : α → ℕ → Bytes → Prop} {read : Table → Option β} {value : α → β}
  (hread : ∀ x off, holds x off buf → 4 ≤ off ∧ read (tableFrom buf off) = some (value x)) {off : ℕ}
  (hfield : fields i = refField off)

include hbuf h hslot hfield

theorem length_sent {objects : List α} (hobjects : ObjectsAre holds objects off buf) :
    (tableFrom buf place).length slot = some objects.length := by
  cases objects with
  | nil =>
      obtain rfl : off = 0 := hobjects
      exact field_absent hbuf h hslot hfield 0 _
  | cons x xs =>
      obtain ⟨offsets, hall, hvector⟩ := hobjects
      have hle := hvector.1.length_le
      rw [length_uintLE] at hle
      unfold refField at hfield
      rw [if_pos (by omega)] at hfield
      rw [length_present hbuf h hslot hfield hvector, hall.length_eq]

/-- The elements of a vector are the objects, whatever variable they are read into. -/
theorem element_sent {objects : List α} (hobjects : ObjectsAre holds objects off buf) :
    ∃ offsets, List.Forall₂ (fun x o => holds x o buf) objects offsets ∧
      ∀ j o, offsets[j]? = some o →
        ∀ obj, (tableFrom buf place).element slot obj j = some (tableFrom buf o) := by
  cases objects with
  | nil => exact ⟨[], .nil, nofun⟩
  | cons x xs =>
      obtain ⟨offsets, hall, hvector⟩ := hobjects
      have hle := hvector.1.length_le
      rw [length_uintLE] at hle
      unfold refField at hfield
      rw [if_pos (by omega)] at hfield
      exact ⟨offsets, hall, fun j o hj obj => element_present hbuf h hslot hfield hvector hj obj⟩

include hread

theorem objects_sent {objects : List α} (hobjects : ObjectsAre holds objects off buf) :
    ((tableFrom buf place).length slot >>= fun n =>
      readElements ((tableFrom buf place).element slot) read Table.zero (List.range n)) =
        some (objects.map value) := by
  obtain ⟨offsets, hall, helement⟩ := element_sent hbuf h slot i hslot hfield hobjects
  rw [length_sent hbuf h slot i hslot hfield hobjects, hall.length_eq]
  have helements : ∀ j t, (offsets.map (tableFrom buf))[j]? = some t →
      ∀ obj, (tableFrom buf place).element slot obj (0 + j) = some t := by
    intro j t ht obj
    rw [List.getElem?_map] at ht
    obtain ⟨o, ho, rfl⟩ := Option.map_eq_some_iff.mp ht
    rw [Nat.zero_add]
    exact helement j o ho obj
  have hvalues : List.Forall₂ (fun t b => read t = some b) (offsets.map (tableFrom buf))
      (objects.map value) := by
    rw [List.forall₂_map_left_iff, List.forall₂_map_right_iff]
    exact hall.flip.imp fun o x hx => (hread x o hx).2
  have htables := readElements_present helements hvalues Table.zero
  rw [List.length_map] at htables
  simpa using htables

theorem object_sent {object : Option α} (hobject : ObjectIs holds object off buf) :
    ((tableFrom buf place).child slot >>= fun t => t.mapM read) = some (object.map value) := by
  cases object with
  | none =>
      obtain rfl : off = 0 := hobject
      unfold Table.child
      rw [field_absent hbuf h hslot hfield]
      rfl
  | some x =>
      obtain ⟨hle, hvalue⟩ := hread x off hobject
      unfold refField at hfield
      rw [if_pos (by omega)] at hfield
      rw [child_present hbuf h hslot hfield]
      show (read (tableFrom buf off)).map some = _
      rw [hvalue]
      rfl

end Objects

section Parts

variable {buf : Bytes} (hbuf : buf.length < 2 ^ 31)

theorem four_le_of_table {fields : List FieldWrite} {off : ℕ} (h : Axiom.TableOf fields off buf) :
    4 ≤ off := by
  obtain ⟨_, _, hsoffset, _⟩ := h
  have hle := hsoffset.length_le
  rwa [length_uintLE] at hle

include hbuf

theorem event_sent (json : Bytes) (off : ℕ) (h : Axiom.EventAt json off buf) :
    4 ≤ off ∧ Event.data (tableFrom buf off) = some (some json) := by
  obtain ⟨data, htext, htable⟩ := h
  exact ⟨four_le_of_table htable, text_sent hbuf htable 4 0 rfl rfl htext⟩

section Numbers

variable {place : ℕ} {fields : ℕ → Option Flatbuffers.Field} (h : (Piece.table fields).Holds buf place)
  (slot : UInt16) (i : ℕ) (hslot : slot.toNat = 2 * (2 + i))

include h hslot

theorem word_sent (x : BitVec 32)
    (hfield : fields i = numberField .i32 x 0 ∨ fields i = numberField .u32 x 0) :
    (tableFrom buf place).number slot 0 getUint32 = some (.ofBitVec x) := by
  have hword : UInt32.ofNat x.toNat = .ofBitVec x := by
    apply UInt32.toNat_inj.mp
    rw [UInt32.toNat_ofNat', Nat.mod_eq_of_lt x.isLt]
    rfl
  have hread : ∀ buf, readUintLE 4 buf = some x.toNat → getUint32 buf = some (.ofBitVec x) :=
    fun buf hread => hword ▸ getUint32_of_readUintLE hread
  have hdefault : decide (x ≠ 0) = false → (0 : UInt32) = .ofBitVec x := by
    intro hzero
    rw [not_not.mp (of_decide_eq_false hzero)]
    rfl
  obtain hfield | hfield := hfield
  · exact number_sent hbuf h slot i hslot .i32 x hfield (fun _ => hread) hdefault
  · exact number_sent hbuf h slot i hslot .u32 x hfield (fun _ => hread) hdefault

theorem long_sent (x : UInt64) (hfield : fields i = numberField .u64 x.toBitVec 0) :
    (tableFrom buf place).number slot 0 getUint64 = some x := by
  refine number_sent hbuf h slot i hslot .u64 x.toBitVec hfield (fun _ buf hread => ?_)
    fun hdiffers => ?_
  · rw [getUint64_of_readUintLE hread]
    exact congrArg some (UInt64.ofNat_toNat ..)
  · have hzero : x.toBitVec = 0 := not_not.mp (of_decide_eq_false hdiffers)
    exact (UInt64.toBitVec_inj.mp hzero).symm

theorem float_sent (bits : BitVec 64) (hfield : fields i = numberField .f64 bits 0) :
    (tableFrom buf place).number slot 0 getFloat64 = some (sentFloat bits) := by
  refine number_sent hbuf h slot i hslot .f64 bits hfield (fun hdiffers buf hread => ?_)
    fun hdiffers => ?_
  · unfold getFloat64 sentFloat
    rw [getUint64_of_readUintLE hread, if_pos hdiffers]
    rfl
  · unfold sentFloat
    rw [hdiffers]
    rfl

end Numbers

theorem error_sent (error : Bytes × ℤ) (off : ℕ) (h : Axiom.ErrorAt error off buf) :
    4 ≤ off ∧ readError (tableFrom buf off) = some (sentError error) := by
  obtain ⟨data, htext, htable⟩ := h
  refine ⟨four_le_of_table htable, ?_⟩
  have hdata := text_sent hbuf htable 6 1 rfl rfl htext
  have hpriority := word_sent hbuf htable 4 0 rfl (.ofInt 32 error.2) (.inl rfl)
  unfold readError Error.priority Error.data
  simp only [hdata, hpriority, Option.bind_eq_bind, Option.bind_some]
  rfl

theorem slowSQL_sent (txnName txnURL : String) (slow : Axiom.NrSlowsql) (off : ℕ)
    (h : Axiom.SlowsqlAt slow off buf) :
    4 ≤ off ∧ readSlowSQL txnName txnURL (tableFrom buf off) =
      some (sentSlowSQL txnName txnURL slow) := by
  obtain ⟨params, query, metric, hparams, hquery, hmetric, htable⟩ := h
  refine ⟨four_le_of_table htable, ?_⟩
  have hid := word_sent hbuf htable 4 0 rfl slow.sqlId.toBitVec (.inr rfl)
  have hcount := word_sent hbuf htable 6 1 rfl slow.count.toBitVec (.inl rfl)
  have htotal := long_sent hbuf htable 8 2 rfl slow.total rfl
  have hmin := long_sent hbuf htable 10 3 rfl slow.minTime rfl
  have hmax := long_sent hbuf htable 12 4 rfl slow.maxTime rfl
  have hmetric := text_sent hbuf htable 14 5 rfl rfl hmetric
  have hquery := text_sent hbuf htable 16 6 rfl rfl hquery
  have hparams := text_sent hbuf htable 18 7 rfl rfl hparams
  unfold readSlowSQL SlowSQL.id SlowSQL.count SlowSQL.totalMicros SlowSQL.minMicros
    SlowSQL.maxMicros SlowSQL.metric SlowSQL.query SlowSQL.params
  simp only [hid, hcount, htotal, hmin, hmax, hmetric, hquery, hparams, Option.bind_eq_bind,
    Option.bind_some]
  rfl

theorem trace_sent (trace : Axiom.SentTrace) (off : ℕ) (h : Axiom.TraceAt trace off buf) :
    4 ≤ off ∧ readTrace (tableFrom buf off) = some (sentFlatTrace trace) := by
  obtain ⟨data, guid, hdata, hguid, htable⟩ := h
  refine ⟨four_le_of_table htable, ?_⟩
  have htimestamp := float_sent hbuf htable 4 0 rfl (Axiom.doubleBits trace.timestampMs) rfl
  have hduration := float_sent hbuf htable 6 1 rfl (Axiom.doubleBits trace.durationMs) rfl
  have hguid := text_sent hbuf htable 8 2 rfl rfl hguid
  have hpersist : (tableFrom buf off).number 10 0 getUint8 =
      some (if trace.forcePersist then 1 else 0) := flag_sent hbuf htable 10 3 rfl rfl
  have hdata := text_sent hbuf htable 12 4 rfl rfl hdata
  unfold readTrace Trace.timestamp Trace.duration Trace.guid Trace.forcePersist Trace.data
  simp only [htimestamp, hduration, hguid, hpersist, hdata, Option.bind_eq_bind, Option.bind_some]
  unfold sentFlatTrace
  cases trace.forcePersist <;> rfl

section Metric

variable {metric : NrmintMetric} {isScoped : Bool} {place : ℕ}
  (h : At buf place (Axiom.metricDataBytes metric isScoped))

include h

theorem metricFloat_sent (k : ℕ) (hk : k < 6) {off : UInt32} (hoff : off.toNat = 8 * k) :
    (tableFrom buf place).get getFloat64 ((tableFrom buf place).pos + off) =
      some (metricFloat metric k) := by
  unfold Axiom.metricDataBytes at h
  unfold metricFloat
  rw [← List.flatMap_map] at h
  set doubles := (Axiom.metricDoubles metric).reverse.map fun x => (Axiom.doubleBits x).toNat
    with hdoubles
  have hlength : doubles.length = 6 := by
    rw [hdoubles, List.length_map, List.length_reverse, Axiom.length_metricDoubles]
  obtain ⟨more, hmore⟩ := flatMap_uintLE_split (n := 8) (hlength ▸ hk)
  rw [hmore, List.append_assoc, List.append_assoc] at h
  refine get_member hbuf ?_ h ?_ fun buf hread => ?_
  · rw [List.getD_eq_getElem _ _ (hlength ▸ hk), List.getElem_map]
    exact (Axiom.doubleBits _).isLt
  · rw [hoff, length_flatMap_uintLE, List.length_take, hlength, Nat.min_eq_left hk.le]
  · unfold getFloat64
    rw [getUint64_of_readUintLE hread]
    rfl

theorem metricFlags_sent :
    (tableFrom buf place).get getUint8 ((tableFrom buf place).pos + 48) =
        some (if isScoped then 1 else 0) ∧
      (tableFrom buf place).get getUint8 ((tableFrom buf place).pos + 49) =
        some (if nrmIsForced metric then 1 else 0) := by
  unfold Axiom.metricDataBytes at h
  rw [← List.flatMap_map] at h
  set front := ((Axiom.metricDoubles metric).reverse.map fun x =>
    (Axiom.doubleBits x).toNat).flatMap (uintLE 8) with hfront
  have hlength : front.length = 48 := by
    rw [hfront, length_flatMap_uintLE, List.length_map, List.length_reverse,
      Axiom.length_metricDoubles]
  have hbyte : ∀ b : Bool, [if b then 1 else 0] = uintLE 1 (if b then 1 else 0) := by
    decide
  have hread : ∀ (b : Bool) buf, readUintLE 1 buf = some (if b then 1 else 0) →
      getUint8 buf = some (if b then 1 else 0) := by
    intro b buf hread
    rw [getUint8_of_readUintLE hread]
    cases b <;> rfl
  have hlt : ∀ b : Bool, (if b then 1 else 0) < 2 ^ (8 * 1) := by
    decide
  have hscoped : At buf place (front ++ (uintLE 1 (if isScoped then 1 else 0) ++
      (uintLE 1 (if nrmIsForced metric then 1 else 0) ++ List.replicate 6 0))) := by
    rw [← hbyte, ← hbyte]
    exact h
  refine ⟨get_member hbuf (hlt isScoped) hscoped
    (show (48 : UInt32).toNat = _ from hlength.symm) (hread isScoped), ?_⟩
  rw [← List.append_assoc] at hscoped
  apply get_member hbuf (hlt (nrmIsForced metric)) hscoped _ (hread (nrmIsForced metric))
  rw [List.length_append, hlength, length_uintLE]
  rfl

end Metric

theorem metric_sent (m : Axiom.SentMetric) (off : ℕ)
    (h : Axiom.MetricAt m.name m.metric m.isScoped off buf) (obj : Table) :
    ∃ data, Metric.data (tableFrom buf off) obj = some data ∧
      readMetric (tableFrom buf off) data = some (sentFlatMetric m) := by
  obtain ⟨name, htext, htable⟩ := h
  have hname := text_sent hbuf htable 4 0 rfl rfl htext
  obtain ⟨place, hplace, hdata⟩ := inline_present hbuf htable
    (show (6 : UInt16).toNat = 2 * (2 + 1) from rfl) rfl obj
  refine ⟨_, hdata, ?_⟩
  have h0 := metricFloat_sent hbuf hplace 0 (by decide) (show (0 : UInt32).toNat = 8 * 0 from rfl)
  have h1 := metricFloat_sent hbuf hplace 1 (by decide) (show (8 : UInt32).toNat = 8 * 1 from rfl)
  have h2 := metricFloat_sent hbuf hplace 2 (by decide) (show (16 : UInt32).toNat = 8 * 2 from rfl)
  have h3 := metricFloat_sent hbuf hplace 3 (by decide) (show (24 : UInt32).toNat = 8 * 3 from rfl)
  have h4 := metricFloat_sent hbuf hplace 4 (by decide) (show (32 : UInt32).toNat = 8 * 4 from rfl)
  have h5 := metricFloat_sent hbuf hplace 5 (by decide) (show (40 : UInt32).toNat = 8 * 5 from rfl)
  obtain ⟨hscoped, hforced⟩ := metricFlags_sent hbuf hplace
  unfold readMetric Metric.name MetricData.count MetricData.total MetricData.exclusive
    MetricData.min MetricData.max MetricData.sumSquares MetricData.forced MetricData.isScoped
  simp only [h0, h1, h2, h3, h4, h5, hscoped, hforced, hname, Option.bind_eq_bind,
    Option.bind_some]
  unfold sentFlatMetric
  cases m.isScoped <;> cases nrmIsForced m.metric <;> rfl

theorem metrics_sent {ms : List Axiom.SentMetric} {offsets : List ℕ}
    (hall : List.Forall₂ (fun m o => Axiom.MetricAt m.name m.metric m.isScoped o buf) ms offsets)
    {txn : Table} {n : ℕ} (helement : ∀ j o, offsets[j]? = some o →
      ∀ obj, Transaction.metrics txn obj (n + j) = some (tableFrom buf o)) (m data : Table) :
    readMetrics txn m data ((List.range offsets.length).map (n + ·)) =
      some (ms.map sentFlatMetric) := by
  induction hall generalizing n m data with
  | nil => rfl
  | @cons first o ms offsets hfirst hall ih =>
      rw [List.length_cons, List.range_succ_eq_map, List.map_cons, List.map_map]
      obtain ⟨data', hdata, hmetric⟩ := metric_sent hbuf first o hfirst data
      have hrest := ih (n := n + 1) (fun j t ht obj => by
        rw [Nat.add_assoc, Nat.add_comm 1 j]
        exact helement (j + 1) t ht obj) (tableFrom buf o) data'
      have hshift : ((n + ·) ∘ Nat.succ : ℕ → ℕ) = (n + 1 + ·) := by
        funext j
        show n + (j + 1) = n + 1 + j
        omega
      rw [hshift]
      unfold readMetrics
      simp only [helement 0 o rfl m, hdata, hmetric, hrest, Option.bind_eq_bind, Option.bind_some,
        List.map_cons]

end Parts

/-! ### Transactions -/

section Transactions

variable {texts : Axiom.DataTxn.MessageTexts} {txn : Axiom.DataTxn} {rest : Axiom.TxndataRest}

theorem readTransaction_sent {buf : Bytes} (hbuf : buf.length < 2 ^ 31) {off : Axiom.TxnOffsets}
    {place : ℕ} (h : Axiom.TableOf (Axiom.txnFields rest off) place buf)
    (hparts : Axiom.TxnParts (txn.nrTxndataEncode texts) (Axiom.sentTrace txn rest) rest off buf) :
    readTransaction buf.length (tableFrom buf place) =
      some (sentTxn buf.length texts txn rest) := by
  set table := tableFrom buf place with htable
  have hname : Transaction.name table = _ := text_sent hbuf h 4 0 rfl rfl hparts.name
  have huri : Transaction.uri table = _ := text_sent hbuf h 6 1 rfl rfl hparts.requestUri
  have hresource : Transaction.syntheticsResourceId table = _ :=
    text_sent hbuf h 8 2 rfl rfl hparts.resourceId
  have hpid : Transaction.pid table = _ := word_sent hbuf h 10 3 rfl rest.pid (.inl rfl)
  have hpriority : Transaction.samplingPriority table = _ := float_sent hbuf h 26 11 rfl _ rfl
  have hevent : (Transaction.txnEvent table >>= fun event => event.mapM Event.data) = _ :=
    object_sent hbuf h 12 4 rfl (event_sent hbuf) rfl hparts.txnEvent
  have htrace : (Transaction.trace table >>= fun trace => trace.mapM readTrace) = _ :=
    object_sent hbuf h 22 9 rfl (trace_sent hbuf) rfl hparts.trace
  have herrors : (Transaction.errorsLength table >>= fun n =>
      readElements (Transaction.errors table) readError Table.zero (List.range n)) = _ :=
    objects_sent hbuf h 16 6 rfl (error_sent hbuf) rfl hparts.errors
  have hslowsqls : (Transaction.slowSqlsLength table >>= fun n =>
      readElements (Transaction.slowSqls table) (readSlowSQL (goString rest.name)
        (goString (some (Axiom.sentRequestUri rest.requestUri)))) Table.zero (List.range n)) = _ :=
    objects_sent hbuf h 18 7 rfl (slowSQL_sent hbuf _ _) rfl hparts.slowsqls
  have hcustom : (Transaction.customEventsLength table >>= fun n =>
      readElements (Transaction.customEvents table) Event.data Table.zero (List.range n)) = _ :=
    objects_sent hbuf h 20 8 rfl (event_sent hbuf) rfl hparts.customEvents
  have hspans : (Transaction.spanEventsLength table >>= fun n =>
      readElements (Transaction.spanEvents table) Event.data Table.zero (List.range n)) = _ :=
    objects_sent hbuf h 28 12 rfl (event_sent hbuf) rfl hparts.spanEvents
  have hfailures : (Transaction.errorEventsLength table >>= fun n =>
      readElements (Transaction.errorEvents table) Event.data Table.zero (List.range n)) = _ :=
    objects_sent hbuf h 24 10 rfl (event_sent hbuf) rfl hparts.errorEvents
  have hmetrics : (Transaction.metricsLength table >>= fun n =>
      readMetrics table Table.zero Table.zero (List.range n)) =
        some (rest.metrics.reverse.map sentFlatMetric) := by
    obtain ⟨offsets, hall, helement⟩ := element_sent hbuf h 14 5 rfl rfl hparts.metrics
    have hmetrics := metrics_sent hbuf hall (n := 0)
      (fun j o ho obj => Nat.zero_add j ▸ helement j o ho obj) Table.zero Table.zero
    have hcount : Transaction.metricsLength table = _ :=
      length_sent hbuf h 14 5 rfl rfl hparts.metrics
    rw [hcount, hall.length_eq]
    simpa using hmetrics
  have hcustomCount : Transaction.customEventsLength table = _ :=
    length_sent hbuf h 20 8 rfl rfl hparts.customEvents
  have hslowsqlCount : Transaction.slowSqlsLength table = _ :=
    length_sent hbuf h 18 7 rfl rfl hparts.slowsqls
  have hmetricCount : Transaction.metricsLength table = _ :=
    length_sent hbuf h 14 5 rfl rfl hparts.metrics
  unfold readTransaction
  simp only [Option.bind_eq_bind] at hevent htrace herrors hslowsqls hcustom hspans hfailures
  simp only [Option.bind_eq_bind] at hmetrics ⊢
  -- the lengths are read once more in front, so the loops have to be rewritten before them
  simp only [hevent, htrace, herrors, hcustom, hspans, hfailures, hmetrics, hname, huri, hresource,
    hpid, hpriority, Option.bind_some, hslowsqls]
  simp only [hcustomCount, hslowsqlCount, hmetricCount, Option.bind_some]
  rfl

/-- The transaction of a message is for the application that the run id names. -/
def sentMessage (agentRunId : Option Bytes) (sample : Bytes) : Processed :=
  if agentRunId.getD [] ≠ [] then .txnData (agentRunId.getD []) sample
  else .error "missing agent run id for txn data command"

section Sent

variable {buf : Bytes} (hbuf : buf.length < 2 ^ 31) {root transaction runId : ℕ}
  {off : Axiom.TxnOffsets}
  (h : Axiom.SentTransaction texts txn rest buf root transaction runId off)

include hbuf h

theorem message_data_sent :
    Message.data (tableFrom buf root) = some (some (tableFrom buf transaction)) := by
  have hle := four_le_of_table h.transaction
  rw [message_data_eq]
  exact child_present hbuf h.message.table (i := 2) rfl (if_pos (by omega))

theorem processBinary_transaction :
    processBinary buf = some (sentMessage rest.agentRunId buf) := by
  have htype : Message.dataType (tableFrom buf root) = some messageBodyTransaction :=
    number_sent hbuf h.message.table 6 1 rfl .u8 Axiom.messageBodyTxn rfl
      (fun _ _ => getUint8_of_readUintLE) nofun
  have hid : Message.agentRunId (tableFrom buf root) = _ :=
    text_sent hbuf h.message.table 4 0 rfl rfl h.runId
  rw [processBinary_sent h.message h.long hbuf]
  unfold processMessage
  rw [htype]
  show processTransaction buf (tableFrom buf root) = _
  unfold processTransaction sentMessage
  simp only [message_data_sent hbuf h, hid, Option.bind_eq_bind, Option.bind_some,
    List.length_pos_iff]
  split <;> rfl

theorem aggregateInto_sent (d : AppData (Option Bytes) Int32) :
    aggregateInto buf d = some (d.aggregate (sentTxn buf.length texts txn rest)) := by
  have hread : readTxn buf = some (sentTxn buf.length texts txn rest) := by
    unfold readTxn
    rw [getRootAsMessage_sent h.message hbuf]
    show (Message.data (tableFrom buf root)).bind _ = _
    rw [message_data_sent hbuf h]
    exact readTransaction_sent hbuf h.transaction h.parts
  unfold aggregateInto
  rw [hread]
  rfl

end Sent

end Transactions

/-- The transaction that runs for three seconds, at its end. -/
def slowTxn : Axiom.DataTxn := (Axiom.DataTxn.nrTxnBegin Axiom.slowBegin).nrTxnEnd Axiom.slowEnd

/-- What else is sent of a transaction that made one call. -/
def slowRest : Axiom.TxndataRest where
  distributedTrace :=
    { accountId := none
      appId := none
      txnId := some (ascii "guid")
      priority := .ofRatio false 1 2
      sampled := false
      traceId := none
      trustedKey := none
      inbound :=
        { set := false
          type := none
          appId := none
          accountId := none
          transportType := none
          timestamp := 0
          guid := none
          txnId := none } }
  forcePersist := false
  unscopedMetrics := nrmForceAdd (nrmTableCreate 1) ⟨ascii "External/all", by decide⟩ 3
  scopedMetrics := nrmTableCreate 1
  syntheticsResourceId := none
  requestUri := none
  name := some (ascii "OtherTransaction/Custom/a")
  agentRunId := some (ascii "one")
  pid := 7

/-- The collection of a kind of data is the same. -/
def KeepsKind (d d' : AppData (Option Bytes) Int32) : Axiom.DataKind → Prop
  | .trace => d'.harvest.txnTraces = d.harvest.txnTraces
  | .error => d'.harvest.errors = d.harvest.errors
  | .txnEvent => d'.harvest.txnEvents = d.harvest.txnEvents
  | .errorEvent => d'.harvest.errorEvents = d.harvest.errorEvents
  | .customEvent => d'.harvest.customEvents = d.harvest.customEvents
  | .spanEvents => d'.spans = d.spans
  | .slowSqls => d'.harvest.slowSQLs = d.harvest.slowSQLs

/-- A message without data of a kind adds none to the harvest. -/
theorem keepsKind_of_not_has (d : AppData (Option Bytes) Int32) (size : ℕ)
    {texts : Axiom.DataTxn.MessageTexts} {txn : Axiom.DataTxn} (rest : Axiom.TxndataRest)
    {kind : Axiom.DataKind} (h : ¬ (txn.nrTxndataEncode texts).Has kind) :
    KeepsKind d (d.aggregate (sentTxn size texts txn rest)) kind := by
  cases kind with
  | trace =>
      have hnone : txn.finalData.traceJson = none := not_not.mp h
      have htrace : (sentTxn size texts txn rest).trace = none := by
        show (Axiom.sentTrace txn rest).map sentFlatTrace = none
        unfold Axiom.sentTrace
        rw [hnone]
        rfl
      show FlatTxn.aggregateTrace _ _ = _
      unfold FlatTxn.aggregateTrace
      rw [htrace]
  | error =>
      show List.foldl ErrorHeap.addError _ (List.map _ (txn.nrTxndataEncode texts).errors) = _
      rw [not_not.mp h]
      rfl
  | txnEvent =>
      have hevent : (sentTxn size texts txn rest).txnEvent = none := by
        show (txn.nrTxndataEncode texts).txnEvent.map some = none
        rw [not_not.mp h]
        rfl
      show FlatTxn.aggregateTxnEvent _ _ = _
      unfold FlatTxn.aggregateTxnEvent
      rw [hevent]
  | errorEvent =>
      show AnalyticsEvents.addEvents _ (List.map _ (List.map _ _)) = _
      rw [not_not.mp h]
      rfl
  | customEvent =>
      show AnalyticsEvents.addEvents _ (List.map _ (List.map _ _)) = _
      rw [not_not.mp h]
      rfl
  | spanEvents =>
      have hspans : (sentTxn size texts txn rest).spanEvents = [] := by
        show ((txn.nrTxndataEncode texts).spanEvents.map _).map some = []
        rw [not_not.mp h]
        rfl
      have hkept : ∀ d : AppData (Option Bytes) Int32,
          d.spans.modify d.harvest.spanEvents (fun evs => evs.addEvents []) = d.spans := by
        intro d
        exact congrArg (SpanStore.mk · d.spans.next) (Function.update_eq_self _ _)
      have hevents := hkept d
      rw [← List.map_nil (f := fun data => ⟨(sentTxn size texts txn rest).samplingPriority, data⟩),
        ← hspans] at hevents
      exact hevents
  | slowSqls =>
      have hslow : (sentTxn size texts txn rest).slowSQLs = [] := by
        show (txn.nrTxndataEncode texts).slowSqls.map _ = []
        rw [not_not.mp h]
        rfl
      show FlatTxn.aggregateSlowSQLs _ _ = _
      unfold FlatTxn.aggregateSlowSQLs
      rw [hslow]
      rfl

/-- Where there are span events, the application has room for some. A limit is an `int`. -/
theorem spanLimitOk_of_run (b : Axiom.TxnBegin) (calls : Axiom.DatastoreCalls)
    (run : List Axiom.DataCall) (e : Axiom.DataTxn.TxnEnd)
    (hint : b.app.limits.spanEvents.natAbs ≤ 2 ^ 31) :
    Axiom.SpanLimitOk
      ((runFrom (Axiom.DataTxn.exec calls) (Axiom.DataTxn.nrTxnBegin b) run).nrTxnEnd e) := by
  have hgated := Axiom.DataTxn.gated_of_run b calls run
  cases henabled : (Axiom.DataTxn.nrTxnBegin b).options.spanEventsEnabled with
  | false =>
      refine .inl ?_
      rw [hgated.end_spanEvents e henabled]
      rfl
  | true =>
      have hne : b.app.limits.spanEvents ≠ 0 := Axiom.beginOptions_spanEvents henabled
      refine .inr ?_
      rw [Axiom.DataTxn.appLimits_end, Axiom.DataTxn.appLimits_of_run]
      omega

/-- What the options of a transaction have turned off, but for a trace, does not get into the
harvest, whatever is done in the transaction. -/
theorem disabled_data_not_harvested {malloc : ℕ → ℕ} (hmalloc : ∀ n, 4 ∣ malloc n)
    (b : Axiom.TxnBegin) (hint : b.app.limits.spanEvents.natAbs ≤ 2 ^ 31)
    (calls : Axiom.DatastoreCalls) (run : List Axiom.DataCall) (e : Axiom.DataTxn.TxnEnd)
    (texts : Axiom.DataTxn.MessageTexts) (rest : Axiom.TxndataRest) (txn : Axiom.DataTxn)
    (htxn : txn = (runFrom (Axiom.DataTxn.exec calls) (Axiom.DataTxn.nrTxnBegin b) run).nrTxnEnd e)
    (hsize : Axiom.txndataSize texts txn rest < 2 ^ 30) :
    ∃ message, Axiom.nrTxndataEncode malloc texts txn rest = some message ∧
      ∀ d, ∃ d', aggregateInto message.bytes d = some d' ∧
        ∀ kind, kind ≠ .trace → b.opts.records kind = false → KeepsKind d d' kind := by
  subst htxn
  obtain ⟨message, hmessage, hlength, _, _, _, _, hsent⟩ :=
    Axiom.nrTxndataEncode_spec hmalloc (spanLimitOk_of_run b calls run e hint) hsize
  have hbuf : message.bytes.length < 2 ^ 31 := by omega
  refine ⟨message, hmessage, fun d => ⟨_, aggregateInto_sent hbuf hsent d, ?_⟩⟩
  intro kind hkind hoff
  have hbegun : (Axiom.DataTxn.nrTxnBegin b).options.records kind = false := by
    refine Bool.eq_false_iff.mpr fun hon => ?_
    rw [Axiom.restricts_beginOptions b.app b.opts kind hon] at hoff
    cases hoff
  exact keepsKind_of_not_has d _ rest
    ((Axiom.DataTxn.gated_of_run b calls run).not_has e texts hkind hbegun)

/-- A transaction that records no errors, and is told of one. -/
def silentBegin : Axiom.TxnBegin :=
  { Axiom.slowBegin with opts := { Axiom.nrTxnTestOptions with errEnabled := false } }

def silentTxn : Axiom.DataTxn :=
  (runFrom (Axiom.DataTxn.exec Axiom.quietCalls) (Axiom.DataTxn.nrTxnBegin silentBegin)
    [.recordError 1 (some (ascii "m")) (some (ascii "c")) (some (ascii "[]")) 5]).nrTxnEnd
      Axiom.slowEnd

theorem disabled_data_not_harvested_silent :
    ∃ message, Axiom.nrTxndataEncode pageMalloc Axiom.slowTexts silentTxn slowRest =
        some message ∧
      ∀ d, ∃ d', aggregateInto message.bytes d = some d' ∧
        ∀ kind, kind ≠ .trace → silentBegin.opts.records kind = false → KeepsKind d d' kind :=
  disabled_data_not_harvested four_dvd_pageMalloc silentBegin (by decide) Axiom.quietCalls _
    Axiom.slowEnd Axiom.slowTexts slowRest silentTxn rfl (by decide +kernel)

end AxiomDaemon.Protocol

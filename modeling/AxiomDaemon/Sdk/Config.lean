import AxiomDaemon.Axiom.TxnOptions
import AxiomDaemon.Lib.Block
import AxiomDaemon.Util.StringPool

/-!
The configuration of an application, `config.c`, and what it says about the
options of a transaction.

The texts of a configuration are character arrays next to each other at its
beginning. They are kept as one block of memory: a text that is longer than its
array runs on into the next, and behind the last. The members behind the texts
are written after the texts and are kept apart.
-/

namespace AxiomDaemon.Sdk

open AxiomDaemon.Lib AxiomDaemon.Lib.CMemory AxiomDaemon.Axiom AxiomDaemon.Util

/-- `newrelic_tt_recordsql_t`; `other` is every number without a name. -/
inductive NewrelicTtRecordsql
  | off
  | raw
  | obfuscated
  | other
  deriving DecidableEq

/-- `newrelic_transaction_tracer_threshold_t`. -/
inductive NewrelicTransactionTracerThreshold
  | isApdexFailing
  | isOverDuration
  deriving DecidableEq

structure DatastoreReporting where
  enabled : Bool
  recordSql : NewrelicTtRecordsql
  thresholdUs : UInt64
  deriving DecidableEq

/-- `newrelic_transaction_tracer_config_t`. -/
structure NewrelicTransactionTracerConfig where
  enabled : Bool
  threshold : NewrelicTransactionTracerThreshold
  durationUs : UInt64
  stackTraceThresholdUs : UInt64
  datastoreReporting : DatastoreReporting
  deriving DecidableEq

/-- `newrelic_datastore_segment_config_t`. -/
structure NewrelicDatastoreSegmentConfig where
  instanceReporting : Bool
  databaseNameReporting : Bool
  deriving DecidableEq

/-- `newrelic_distributed_tracing_config_t`. -/
structure NewrelicDistributedTracingConfig where
  enabled : Bool
  deriving DecidableEq

/-- `newrelic_span_event_config_t`. -/
structure NewrelicSpanEventConfig where
  enabled : Bool
  deriving DecidableEq

/-- `newrelic_app_config_t`; the level of the log is left out. -/
structure NewrelicAppConfig where
  texts : Bytes
  transactionTracer : NewrelicTransactionTracerConfig
  datastoreTracer : NewrelicDatastoreSegmentConfig
  distributedTracing : NewrelicDistributedTracingConfig
  spanEvents : NewrelicSpanEventConfig
  deriving DecidableEq

/-- The character arrays of `newrelic_app_config_t`. -/
inductive TextField
  | appName
  | licenseKey
  | redirectCollector
  | logFilename
  deriving DecidableEq

def TextField.size : TextField → ℕ
  | .appName => 255
  | .licenseKey => 255
  | .redirectCollector => 100
  | .logFilename => 512

/-- Where the array starts in the configuration. -/
def TextField.offset : TextField → ℕ
  | .appName => 0
  | .licenseKey => 255
  | .redirectCollector => 510
  | .logFilename => 610

/-- The bytes of all arrays together. -/
def textsSize : ℕ := 1122

/-- The C string at the start of an array. -/
def NewrelicAppConfig.text (config : NewrelicAppConfig) (field : TextField) : CString :=
  ⟨textAt 0 config.texts field.offset, not_mem_textAt 0 config.texts field.offset⟩

theorem NewrelicAppConfig.text_eq_iff (config : NewrelicAppConfig) (field : TextField)
    (s : CString) : config.text field = s ↔ textAt 0 config.texts field.offset = s.val :=
  Subtype.ext_iff

/-! ### Copying texts -/

/-- `nr_strempty`. -/
def nrStrempty (str : CString) : Bool := str.val.isEmpty

/-- Bytes that are written to memory, from the start of an array on. -/
structure TextWrite where
  dest : TextField
  bytes : Bytes
  deriving DecidableEq

/-- Every byte is written to the array itself. -/
def TextWrite.Inside (w : TextWrite) : Prop := w.bytes.length ≤ w.dest.size

/-- What `nr_strxcpy` writes. -/
def nrStrxcpy (dest : TextField) (src : CString) (len : ℤ) : TextWrite :=
  if 0 < len then ⟨dest, src.val.take len.toNat ++ [0]⟩ else ⟨dest, [0]⟩

def TextWrite.store (w : TextWrite) (texts : Bytes) : Bytes :=
  blockCopy texts w.dest.offset w.bytes

/-! ### The configuration -/

/-- `NR_LICENSE_SIZE`. -/
def nrLicenseSize : ℤ := 40

/-- A configuration with the defaults of `newrelic_create_app_config`. -/
def defaultAppConfig (texts : Bytes) : NewrelicAppConfig :=
  { texts
    transactionTracer :=
      { enabled := true
        threshold := .isApdexFailing
        durationUs := 0
        stackTraceThresholdUs := 500000
        datastoreReporting :=
          { enabled := true, recordSql := .obfuscated, thresholdUs := 500000 } }
    datastoreTracer := { instanceReporting := true, databaseNameReporting := true }
    distributedTracing := { enabled := false }
    spanEvents := { enabled := true } }

/-- `newrelic_create_app_config`: the configuration and the writes that put the
texts into it. -/
def newrelicCreateAppConfig (appName licenseKey : Option CString) :
    Option (NewrelicAppConfig × List TextWrite) :=
  match appName, licenseKey with
  | some name, some key =>
      if nrLicenseSize ≠ nrStrlen key.val then none
      else
        let nameWrite := nrStrxcpy .appName name (nrStrlen name.val)
        let keyWrite := nrStrxcpy .licenseKey key (nrStrlen key.val)
        -- the block comes from `nr_zalloc`
        let texts := nameWrite.store (List.replicate textsSize 0)
        some (defaultAppConfig (keyWrite.store texts), [nameWrite, keyWrite])
  | none, _ => none
  -- the length of a key that is `NULL` is 0
  | some _, none => none

/-! ### The options of a transaction -/

/-- `newrelic_validate_recordsql`. -/
def newrelicValidateRecordsql : NewrelicTtRecordsql → NrTtRecordsql
  | .off => .none
  | .raw => .raw
  | .obfuscated => .obfuscated
  | .other => .obfuscated

/-- `NR_TIME_DIVISOR_MS`. -/
def nrTimeDivisorMs : UInt64 := 1000

/-- `NR_TIME_DIVISOR_US`. -/
def nrTimeDivisorUs : UInt64 := 1

/-- `newrelic_get_default_options`. -/
def newrelicGetDefaultOptions : Nrtxnopt :=
  { analyticsEventsEnabled := true
    customEventsEnabled := true
    syntheticsEnabled := false
    instanceReportingEnabled := true
    databaseNameReportingEnabled := true
    errEnabled := true
    requestParamsEnabled := false
    autorumEnabled := false
    errorEventsEnabled := true
    ttEnabled := true
    epEnabled := false
    ttRecordsql := .obfuscated
    ttSlowsql := true
    apdexT := 0
    ttThreshold := 0
    epThreshold := 500 * nrTimeDivisorMs
    ssThreshold := 500 * nrTimeDivisorMs
    crossProcessEnabled := false
    ttIsApdexF := true
    allowRawExceptionMessages := true
    customParametersEnabled := true
    distributedTracingEnabled := false
    spanEventsEnabled := true
    -- `nr_zalloc`
    maxSpanEvents := 0
    discountMainContextBlocking := false }

/-- `newrelic_get_transaction_options`. -/
def newrelicGetTransactionOptions (config : Option NewrelicAppConfig) : Nrtxnopt :=
  match config with
  | none => newrelicGetDefaultOptions
  | some config =>
      let opt :=
        { newrelicGetDefaultOptions with
          instanceReportingEnabled := config.datastoreTracer.instanceReporting
          databaseNameReportingEnabled := config.datastoreTracer.databaseNameReporting
          ttEnabled := config.transactionTracer.enabled
          ttRecordsql :=
            newrelicValidateRecordsql config.transactionTracer.datastoreReporting.recordSql
          ttSlowsql := config.transactionTracer.datastoreReporting.enabled
          epThreshold :=
            config.transactionTracer.datastoreReporting.thresholdUs * nrTimeDivisorUs
          ssThreshold := config.transactionTracer.stackTraceThresholdUs * nrTimeDivisorUs
          distributedTracingEnabled := config.distributedTracing.enabled
          spanEventsEnabled := config.spanEvents.enabled }
      match config.transactionTracer.threshold with
      | .isApdexFailing => { opt with ttIsApdexF := true }
      | .isOverDuration =>
          { opt with ttIsApdexF := false, ttThreshold := config.transactionTracer.durationUs }

/-! ### What is stored -/

theorem nrStrxcpy_eq (dest : TextField) (src : CString) (len : ℤ) :
    nrStrxcpy dest src len = ⟨dest, src.val.take len.toNat ++ [0]⟩ := by
  unfold nrStrxcpy
  split
  · rfl
  · next h =>
      have hzero : len.toNat = 0 := by omega
      rw [hzero, List.take_zero, List.nil_append]

theorem newrelicCreateAppConfig_eq_some {name key : CString} {config : NewrelicAppConfig}
    {writes : List TextWrite}
    (h : newrelicCreateAppConfig (some name) (some key) = some (config, writes)) :
    nrStrlen key.val = nrLicenseSize ∧
      writes = [⟨.appName, name.val.take (nrStrlen name.val).toNat ++ [0]⟩,
        ⟨.licenseKey, key.val.take 40 ++ [0]⟩] ∧
      config = defaultAppConfig (TextWrite.store ⟨.licenseKey, key.val.take 40 ++ [0]⟩
        (TextWrite.store ⟨.appName, name.val.take (nrStrlen name.val).toNat ++ [0]⟩
          (List.replicate textsSize 0))) := by
  simp only [newrelicCreateAppConfig] at h
  split at h
  · cases h
  · next hkey =>
      have hlen : nrStrlen key.val = nrLicenseSize := (not_ne_iff.mp hkey).symm
      have hforty : nrLicenseSize.toNat = 40 := rfl
      rw [nrStrxcpy_eq, nrStrxcpy_eq, hlen, hforty] at h
      obtain ⟨rfl, rfl⟩ := Prod.mk.inj (Option.some.inj h)
      exact ⟨hlen, rfl, rfl⟩

theorem newrelicCreateAppConfig_defaults {name key : CString} {config : NewrelicAppConfig}
    {writes : List TextWrite}
    (h : newrelicCreateAppConfig (some name) (some key) = some (config, writes)) :
    ∃ texts, config = defaultAppConfig texts := by
  obtain ⟨-, -, rfl⟩ := newrelicCreateAppConfig_eq_some h
  exact ⟨_, rfl⟩

/-- What both copies leave in the first two arrays, when both fit. -/
theorem textAt_store_store {name key texts : Bytes} (hname : (0 : UInt8) ∉ name)
    (hkey : (0 : UInt8) ∉ key) (hfit : name.length < 255) (htexts : texts.length = textsSize) :
    textAt 0 (TextWrite.store ⟨.licenseKey, key ++ [0]⟩
        (TextWrite.store ⟨.appName, name ++ [0]⟩ texts)) TextField.appName.offset = name ∧
      textAt 0 (TextWrite.store ⟨.licenseKey, key ++ [0]⟩
        (TextWrite.store ⟨.appName, name ++ [0]⟩ texts)) TextField.licenseKey.offset = key := by
  simp only [TextWrite.store, TextField.offset]
  have hlen : (blockCopy texts 0 (name ++ [0])).length = texts.length := by
    apply length_blockCopy
    rw [List.length_append, List.length_singleton, htexts, textsSize]
    omega
  have hroom : 255 ≤ (blockCopy texts 0 (name ++ [0])).length := by
    rw [hlen, htexts, textsSize]
    omega
  constructor
  · have hdrop : (blockCopy texts 0 (name ++ [0])).drop 0 = _ := drop_blockCopy (Nat.zero_le _)
    rw [List.append_assoc] at hdrop
    exact textAt_blockCopy_behind hname hdrop (by omega) hroom
  · exact textAt_blockCopy hkey hroom

/-- The name and the key are in the configuration, and nothing else is
written, exactly if the name leaves room for its terminator. -/
theorem stored_iff {name key : CString} {config : NewrelicAppConfig} {writes : List TextWrite}
    (h : newrelicCreateAppConfig (some name) (some key) = some (config, writes)) :
    ((∀ w ∈ writes, w.Inside) ∧ config.text .appName = name ∧ config.text .licenseKey = key) ↔
      name.val.length < 255 ∧ key.val.length = 40 := by
  obtain ⟨hkey, rfl, rfl⟩ := newrelicCreateAppConfig_eq_some h
  have hnotName : (0 : UInt8) ∉ name.val.take (nrStrlen name.val).toNat :=
    fun hmem => name.property (List.mem_of_mem_take hmem)
  have hnotKey : (0 : UInt8) ∉ key.val.take 40 :=
    fun hmem => key.property (List.mem_of_mem_take hmem)
  have hzalloc : (List.replicate textsSize (0 : UInt8)).length = textsSize :=
    List.length_replicate
  rw [NewrelicAppConfig.text_eq_iff, NewrelicAppConfig.text_eq_iff]
  constructor
  · rintro ⟨hinside, htextName, htextKey⟩
    have hfit : (name.val.take (nrStrlen name.val).toNat).length < 255 := by
      have := hinside _ (List.mem_cons_self ..)
      simp only [TextWrite.Inside, TextField.size, List.length_append,
        List.length_singleton] at this
      omega
    obtain ⟨hname, hkey'⟩ := textAt_store_store hnotName hnotKey hfit hzalloc
    have hname' : name.val.take (nrStrlen name.val).toNat = name.val :=
      hname.symm.trans htextName
    have hkeyTake : key.val.take 40 = key.val :=
      hkey'.symm.trans htextKey
    refine ⟨hname' ▸ hfit, ?_⟩
    have hle : key.val.length ≤ 40 := by
      rw [← hkeyTake, List.length_take]
      omega
    have hcast := nrStrlen_of_lt (show key.val.length < 2 ^ 31 by omega)
    rw [hcast, nrLicenseSize] at hkey
    exact_mod_cast hkey
  · rintro ⟨hlenName, hlenKey⟩
    have hcast : (nrStrlen name.val).toNat = name.val.length := by
      rw [nrStrlen_of_lt (by omega), Int.toNat_natCast]
    have htakeName : name.val.take (nrStrlen name.val).toNat = name.val :=
      List.take_of_length_le hcast.ge
    have htakeKey : key.val.take 40 = key.val := List.take_of_length_le hlenKey.le
    rw [htakeName] at hnotName ⊢
    rw [htakeKey] at hnotKey ⊢
    obtain ⟨hname, hkey'⟩ := textAt_store_store hnotName hnotKey hlenName hzalloc
    refine ⟨?_, hname, hkey'⟩
    intro w hw
    rcases List.mem_pair.mp hw with rfl | rfl
    · simp only [TextWrite.Inside, TextField.size, List.length_append, List.length_singleton]
      omega
    · simp only [TextWrite.Inside, TextField.size, List.length_append, List.length_singleton]
      omega

/-- The texts do not matter to the options, and the datastore tracer only to
the two options of its own. -/
theorem newrelicGetTransactionOptions_with (config : NewrelicAppConfig) (texts : Bytes)
    (tracer : NewrelicDatastoreSegmentConfig) :
    newrelicGetTransactionOptions (some { config with texts := texts, datastoreTracer := tracer }) =
      { newrelicGetTransactionOptions (some config) with
        instanceReportingEnabled := tracer.instanceReporting
        databaseNameReportingEnabled := tracer.databaseNameReporting } := by
  simp only [newrelicGetTransactionOptions]
  cases config.transactionTracer.threshold <;> rfl

theorem newrelicGetTransactionOptions_datastoreTracer (config : NewrelicAppConfig) :
    (newrelicGetTransactionOptions (some config)).instanceReportingEnabled =
        config.datastoreTracer.instanceReporting ∧
      (newrelicGetTransactionOptions (some config)).databaseNameReportingEnabled =
        config.datastoreTracer.databaseNameReporting := by
  simp only [newrelicGetTransactionOptions]
  cases config.transactionTracer.threshold <;> exact ⟨rfl, rfl⟩

end AxiomDaemon.Sdk

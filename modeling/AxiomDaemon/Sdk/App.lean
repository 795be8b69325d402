import AxiomDaemon.Sdk.Config
import AxiomDaemon.Util.Object

/-!
Applications, `app.c`: the configuration an application keeps is made anew from
the one the user gives.
-/

namespace AxiomDaemon.Sdk

open AxiomDaemon.Lib AxiomDaemon.Lib.CMemory AxiomDaemon.Axiom AxiomDaemon.Util

/-- `nr_app_info_t`, the fields that `newrelic_create_app` sets. -/
structure NrAppInfo where
  redirectCollector : Bytes
  appname : Bytes
  license : Bytes
  lang : Bytes
  environment : NrObj
  version : Bytes

/-- `newrelic_app_t`, without its lock and the application of the agent. -/
structure NewrelicApp where
  appInfo : NrAppInfo
  config : NewrelicAppConfig

/-- What `newrelic_create_app` calls: `newrelic_ensure_init`,
`newrelic_version` and `newrelic_connect_app`; the first and the last say
whether they succeed. -/
structure AppCalls where
  newrelicEnsureInit : Bool
  newrelicVersion : Bytes
  newrelicConnectApp : NewrelicApp → UInt16 → Bool

/-- What `newrelic_create_app` tells the daemon of the application. -/
def appInfoOf (calls : AppCalls) (given : NewrelicAppConfig) : NrAppInfo :=
  { redirectCollector :=
      if 0 < nrStrlen (given.text .redirectCollector).val then
        (given.text .redirectCollector).val
      else []
    appname := (given.text .appName).val
    license := (given.text .licenseKey).val
    lang := ascii "c"
    environment := .hash []
    version := calls.newrelicVersion }

/-- `newrelic_create_app`. -/
def newrelicCreateApp (calls : AppCalls) (givenConfig : Option NewrelicAppConfig)
    (timeoutMs : UInt16) : Option NewrelicApp :=
  match givenConfig with
  | none => none
  | some given =>
      if nrStrempty (given.text .appName) then none
      else if nrLicenseSize ≠ nrStrlen (given.text .licenseKey).val then none
      else if !calls.newrelicEnsureInit then none
      else
        match newrelicCreateAppConfig (some (given.text .appName))
            (some (given.text .licenseKey)) with
        | none => none
        | some (config, _) =>
            let config :=
              { config with
                transactionTracer := given.transactionTracer
                distributedTracing := { enabled := given.distributedTracing.enabled }
                spanEvents := { enabled := given.spanEvents.enabled } }
            let app := { appInfo := appInfoOf calls given, config }
            if calls.newrelicConnectApp app timeoutMs then some app else none

/-- The options with which `newrelic_start_transaction` begins a transaction of
the application. -/
def NewrelicApp.transactionOptions (app : NewrelicApp) : Nrtxnopt :=
  newrelicGetTransactionOptions (some app.config)

/-- The configuration of an application is the one the user gave but for its
texts and the datastore tracer, which are as `newrelic_create_app_config` makes
them. -/
theorem newrelicCreateApp_config {calls : AppCalls} {given : NewrelicAppConfig}
    {timeoutMs : UInt16} {app : NewrelicApp}
    (h : newrelicCreateApp calls (some given) timeoutMs = some app) :
    ∃ texts, app.config = { given with texts := texts, datastoreTracer := ⟨true, true⟩ } := by
  rw [newrelicCreateApp] at h
  split at h
  · cases h
  split at h
  · cases h
  split at h
  · cases h
  generalize hmade : newrelicCreateAppConfig _ _ = made at h
  rcases made with _ | ⟨config, writes⟩
  · cases h
  obtain ⟨texts, rfl⟩ := newrelicCreateAppConfig_defaults hmade
  dsimp only at h
  split at h
  · obtain rfl := Option.some.inj h
    exact ⟨texts, rfl⟩
  · cases h

theorem newrelicCreateAppConfig_of_key (name : CString) {key : CString}
    (hkey : nrStrlen key.val = nrLicenseSize) :
    ∃ config writes, newrelicCreateAppConfig (some name) (some key) = some (config, writes) := by
  simp only [newrelicCreateAppConfig, hkey, ne_eq, not_true_eq_false, if_false]
  exact ⟨_, _, rfl⟩

/-- What makes `newrelic_create_app` succeed. -/
theorem newrelicCreateApp_of_texts (calls : AppCalls) (given : NewrelicAppConfig)
    (hname : nrStrempty (given.text .appName) = false)
    (hkey : nrStrlen (given.text .licenseKey).val = nrLicenseSize)
    (hinit : calls.newrelicEnsureInit = true) (timeoutMs : UInt16)
    (hconnect : ∀ app, calls.newrelicConnectApp app timeoutMs = true) :
    ∃ app, newrelicCreateApp calls (some given) timeoutMs = some app := by
  obtain ⟨config, writes, hconfig⟩ := newrelicCreateAppConfig_of_key (given.text .appName) hkey
  simp only [newrelicCreateApp, hname, hkey, hinit, hconfig, hconnect, ne_eq, not_true_eq_false,
    if_false, if_true, Bool.not_true, Bool.false_eq_true]
  exact ⟨_, rfl⟩

/-! ### Applications of an agent that works -/

/-- A license key of the right length. -/
def zeroKey : CString := ⟨List.replicate 40 0x30, by decide⟩

/-- A name that fills its array, and leaves no room for the terminator. -/
def longName : CString := ⟨List.replicate 255 0x61, fun h => by cases List.eq_of_mem_replicate h⟩

def shortName : CString := ⟨ascii "app", by decide⟩

/-- The calls of an agent that works. -/
def connectingCalls : AppCalls :=
  { newrelicEnsureInit := true
    newrelicVersion := ascii "1.0"
    newrelicConnectApp := fun _ _ => true }

theorem nrStrlen_zeroKey : nrStrlen zeroKey.val = nrLicenseSize := by
  have hlen : zeroKey.val.length = 40 := List.length_replicate
  rw [nrStrlen_of_lt (by omega), hlen]
  rfl

/-- A configuration whose texts fit is accepted by an agent that works. -/
theorem exists_newrelicCreateApp_shortName (tracer : NewrelicDatastoreSegmentConfig) :
    ∃ config writes app,
      newrelicCreateAppConfig (some shortName) (some zeroKey) = some (config, writes) ∧
      newrelicCreateApp connectingCalls (some { config with datastoreTracer := tracer }) 1000 =
        some app := by
  obtain ⟨config, writes, h⟩ := newrelicCreateAppConfig_of_key shortName nrStrlen_zeroKey
  have hroom : shortName.val.length < 255 ∧ zeroKey.val.length = 40 :=
    ⟨by decide, List.length_replicate⟩
  obtain ⟨-, hname, hkey⟩ := (stored_iff h).mpr hroom
  have hempty : nrStrempty (config.text .appName) = false := by
    rw [hname]
    rfl
  have hlicense : nrStrlen (config.text .licenseKey).val = nrLicenseSize := by
    rw [hkey]
    exact nrStrlen_zeroKey
  obtain ⟨app, happ⟩ := newrelicCreateApp_of_texts
    connectingCalls { config with datastoreTracer := tracer } hempty hlicense rfl 1000 (fun _ => rfl)
  exact ⟨config, writes, app, h, happ⟩

/-- When the configuration is carried over: the name and the key are stored as
they are, inside their arrays, if and only if there is room for them, and the
options are those of the given configuration if and only if its datastore
tracer is the default one. -/
theorem app_config_carried_over (name key : CString) (config : NewrelicAppConfig)
    (writes : List TextWrite) (calls : AppCalls) (given : NewrelicAppConfig)
    (timeoutMs : UInt16) (app : NewrelicApp) :
    (newrelicCreateAppConfig (some name) (some key) = some (config, writes) →
      (((∀ w ∈ writes, w.Inside) ∧ config.text .appName = name ∧
          config.text .licenseKey = key) ↔
        name.val.length < 255 ∧ key.val.length = 40)) ∧
    (newrelicCreateApp calls (some given) timeoutMs = some app →
      (app.transactionOptions = newrelicGetTransactionOptions (some given) ↔
        given.datastoreTracer = ⟨true, true⟩)) := by
  refine ⟨stored_iff, ?_⟩
  intro h
  obtain ⟨texts, hconfig⟩ := newrelicCreateApp_config h
  obtain ⟨hinstance, hdatabase⟩ := newrelicGetTransactionOptions_datastoreTracer given
  rw [NewrelicApp.transactionOptions, hconfig, newrelicGetTransactionOptions_with]
  constructor
  · intro heq
    have htracer : given.datastoreTracer.instanceReporting = true ∧
        given.datastoreTracer.databaseNameReporting = true := by
      rw [← hinstance, ← hdatabase, ← heq]
      exact ⟨rfl, rfl⟩
    obtain ⟨hi, hd⟩ := htracer
    calc given.datastoreTracer
        = ⟨given.datastoreTracer.instanceReporting,
            given.datastoreTracer.databaseNameReporting⟩ := rfl
      _ = ⟨true, true⟩ := by rw [hi, hd]
  · intro htracer
    rw [htracer] at hinstance hdatabase
    calc { newrelicGetTransactionOptions (some given) with
            instanceReportingEnabled := true, databaseNameReportingEnabled := true }
        = { newrelicGetTransactionOptions (some given) with
            instanceReportingEnabled :=
              (newrelicGetTransactionOptions (some given)).instanceReportingEnabled
            databaseNameReportingEnabled :=
              (newrelicGetTransactionOptions (some given)).databaseNameReportingEnabled } := by
          rw [hinstance, hdatabase]
      _ = newrelicGetTransactionOptions (some given) := rfl

theorem app_config_carried_over_shortName :
    ∃ config writes app,
      newrelicCreateAppConfig (some shortName) (some zeroKey) = some (config, writes) ∧
      newrelicCreateApp connectingCalls
        (some { config with datastoreTracer := ⟨true, true⟩ }) 1000 = some app ∧
      ((∀ w ∈ writes, w.Inside) ∧ config.text .appName = shortName ∧
        config.text .licenseKey = zeroKey) ∧
      app.transactionOptions = newrelicGetTransactionOptions
        (some { config with datastoreTracer := ⟨true, true⟩ }) := by
  obtain ⟨config, writes, app, h, happ⟩ := exists_newrelicCreateApp_shortName ⟨true, true⟩
  have hroom : shortName.val.length < 255 ∧ zeroKey.val.length = 40 :=
    ⟨by decide, List.length_replicate⟩
  obtain ⟨hstored, hoptions⟩ := app_config_carried_over shortName zeroKey config writes
    connectingCalls { config with datastoreTracer := ⟨true, true⟩ } 1000 app
  exact ⟨config, writes, app, h, happ, (hstored h).mpr hroom, (hoptions happ).mpr rfl⟩

/-- A long name is written over the end of its array, and an application whose
user turned instance reporting off reports instances. -/
theorem app_config_not_carried_over :
    (∃ config writes, newrelicCreateAppConfig (some longName) (some zeroKey) =
        some (config, writes) ∧ ¬ ∀ w ∈ writes, w.Inside) ∧
    ∃ config writes app,
      newrelicCreateAppConfig (some shortName) (some zeroKey) = some (config, writes) ∧
      newrelicCreateApp connectingCalls
        (some { config with datastoreTracer := ⟨false, true⟩ }) 1000 = some app ∧
      app.transactionOptions.instanceReportingEnabled = true ∧
      (newrelicGetTransactionOptions
        (some { config with datastoreTracer := ⟨false, true⟩ })).instanceReportingEnabled =
          false := by
  constructor
  · obtain ⟨config, writes, h⟩ := newrelicCreateAppConfig_of_key longName nrStrlen_zeroKey
    refine ⟨config, writes, h, ?_⟩
    obtain ⟨-, rfl, -⟩ := newrelicCreateAppConfig_eq_some h
    have hlen : longName.val.length = 255 := List.length_replicate
    intro hinside
    have := hinside _ (List.mem_cons_self ..)
    rw [nrStrlen_of_lt (by omega), Int.toNat_natCast, List.take_length] at this
    simp only [TextWrite.Inside, TextField.size, List.length_append,
      List.length_singleton] at this
    omega
  · obtain ⟨config, writes, app, h, happ⟩ := exists_newrelicCreateApp_shortName ⟨false, true⟩
    refine ⟨config, writes, app, h, happ, ?_, ?_⟩
    · obtain ⟨texts, hconfig⟩ := newrelicCreateApp_config happ
      rw [NewrelicApp.transactionOptions, hconfig, newrelicGetTransactionOptions_with]
    · exact (newrelicGetTransactionOptions_datastoreTracer _).1

end AxiomDaemon.Sdk

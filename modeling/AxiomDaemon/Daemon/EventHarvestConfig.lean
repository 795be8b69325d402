import AxiomDaemon.Daemon.App
import AxiomDaemon.Daemon.HarvestTrigger
import AxiomDaemon.Lib.JsonDecode

/-!
The limits and report periods of the events: how the daemon reads them from
`event_harvest_config` of a connect reply (`collector/event_data.go`), and the
tickers that it starts from them (`harvest_trigger.go`).

The defaults are filled in where the object is read, so a reply without the
object has none of them. A period is an unsigned number of milliseconds of 64
bits and becomes a signed number of nanoseconds of 64 bits; of the values that
this cannot carry only zero is refused.

A JSON text is taken as the value that it stands for. The texts of errors are
only logged. The metric rules of a reply report no error and are left out.
-/

namespace AxiomDaemon.Daemon

open AxiomDaemon.Lib AxiomDaemon.Lib.JsonDecode

/-! ### Periods -/

/-- `time.Duration`: a number of nanoseconds. -/
abbrev Duration : Type := Int64

/-- `time.Millisecond`. -/
def millisecond : Duration := 1000000

/-- `time.Second`. -/
def second : Duration := 1000000000

/-- `limits.DefaultReportPeriod`. -/
def defaultReportPeriod : Duration := 60 * second

/-- `limits.MaxErrorEvents`. -/
def maxErrorEvents : ℕ := 100

/-- `limits.MaxCustomEvents`. -/
def maxCustomEvents : ℕ := 10 * 1000

/-- `limits.MaxSpanEvents`. -/
def maxSpanEvents : ℕ := 1000

/-- `durationToMilliseconds`. -/
def durationToMilliseconds (d : Duration) : Option UInt64 :=
  if d < 0 then none else some (d / millisecond).toUInt64

theorem toInt_defaultReportPeriod : defaultReportPeriod.toInt = 60000 * 10 ^ 6 := by decide

/-- A number of milliseconds is carried over exactly where the nanoseconds fit. -/
theorem toInt_period (ms : UInt64) :
    (ms.toInt64 * millisecond).toInt = ms.toNat * 10 ^ 6 ↔ ms.toNat * 10 ^ 6 < 2 ^ 63 := by
  constructor
  · intro hexact
    have hlt := Int64.toInt_lt (ms.toInt64 * millisecond)
    omega
  · intro hlt
    have hms : ms.toInt64.toInt = ms.toNat := by
      rw [← Int64.toInt_toBitVec, UInt64.toBitVec_toInt64]
      refine BitVec.toInt_eq_toNat_of_lt ?_
      rw [UInt64.toNat_toBitVec]
      omega
    have hmillisecond : millisecond.toInt = 10 ^ 6 := by decide
    rw [Int64.toInt_mul, hms, hmillisecond]
    refine Int.bmod_eq_of_le ?_ ?_ <;> omega

/-! ### The wire -/

/-- The four types of events. -/
inductive EventType
  | error
  | analytic
  | custom
  | span
  deriving DecidableEq

namespace EventType

/-- The limit that the daemon uses by default. -/
def defaultLimit : EventType → ℕ
  | error => maxErrorEvents
  | analytic => maxTxnEvents
  | custom => maxCustomEvents
  | span => maxSpanEvents

def harvestType : EventType → HarvestType
  | error => harvestErrorEvents
  | analytic => harvestTxnEvents
  | custom => harvestCustomEvents
  | span => harvestSpanEvents

end EventType

/-- `rawHarvestLimits`. -/
structure RawHarvestLimits where
  errorEventData : Option ℤ
  analyticEventData : Option ℤ
  customEventData : Option ℤ
  spanEventData : Option ℤ

namespace RawHarvestLimits

/-- The zero value. -/
def zero : RawHarvestLimits :=
  { errorEventData := none, analyticEventData := none, customEventData := none,
    spanEventData := none }

def get (limits : RawHarvestLimits) : EventType → Option ℤ
  | .error => limits.errorEventData
  | .analytic => limits.analyticEventData
  | .custom => limits.customEventData
  | .span => limits.spanEventData

def fields : List (StructField RawHarvestLimits) :=
  [.of (ascii "error_event_data") errorEventData
      (fun limits i => { limits with errorEventData := i }) (decodePtr 0 decodeInt),
    .of (ascii "analytic_event_data") analyticEventData
      (fun limits i => { limits with analyticEventData := i }) (decodePtr 0 decodeInt),
    .of (ascii "custom_event_data") customEventData
      (fun limits i => { limits with customEventData := i }) (decodePtr 0 decodeInt),
    .of (ascii "span_event_data") spanEventData
      (fun limits i => { limits with spanEventData := i }) (decodePtr 0 decodeInt)]

end RawHarvestLimits

/-- `rawEventHarvestConfig`. -/
structure RawEventHarvestConfig where
  reportPeriodMS : UInt64
  harvestLimits : RawHarvestLimits

namespace RawEventHarvestConfig

def fields : List (StructField RawEventHarvestConfig) :=
  [.of (ascii "report_period_ms") reportPeriodMS
      (fun config ms => { config with reportPeriodMS := ms }) decodeUint64,
    .of (ascii "harvest_limits") harvestLimits
      (fun config limits => { config with harvestLimits := limits })
      (decodeStruct RawHarvestLimits.fields)]

end RawEventHarvestConfig

/-! ### What the daemon makes of it -/

namespace Collector

/-- `Event`. -/
structure Event where
  limit : ℤ
  reportPeriod : Duration

/-- `EventConfigs`. -/
structure EventConfigs where
  errorEventConfig : Event
  analyticEventConfig : Event
  customEventConfig : Event
  spanEventConfig : Event

def EventConfigs.get (configs : EventConfigs) : EventType → Event
  | .error => configs.errorEventConfig
  | .analytic => configs.analyticEventConfig
  | .custom => configs.customEventConfig
  | .span => configs.spanEventConfig

/-- What `NewHarvest` reads of it. -/
def EventConfigs.limits (configs : EventConfigs) : Daemon.EventConfigs where
  errorEventLimit := configs.errorEventConfig.limit.toNat
  analyticEventLimit := configs.analyticEventConfig.limit.toNat
  customEventLimit := configs.customEventConfig.limit.toNat
  spanEventLimit := configs.spanEventConfig.limit.toNat

/-- `EventHarvestConfig`. -/
structure EventHarvestConfig where
  reportPeriod : Duration
  eventConfigs : EventConfigs

/-- The zero value. -/
def EventHarvestConfig.zero : EventHarvestConfig :=
  { reportPeriod := 0, eventConfigs := ⟨⟨0, 0⟩, ⟨0, 0⟩, ⟨0, 0⟩, ⟨0, 0⟩⟩ }

/-- `getEventConfig`. -/
def getEventConfig (rawLimit : Option ℤ) (collectorRate : Duration) (defaultLimit : ℕ)
    (defaultRate : Duration) : Option Event :=
  match rawLimit with
  | none => some ⟨defaultLimit, defaultRate⟩
  | some limit => if limit < 0 then none else some ⟨limit, collectorRate⟩

/-- `UnmarshalJSON`. -/
def EventHarvestConfig.unmarshalJSON (b : Json) : Option EventHarvestConfig := do
  let reportPeriodMs ← durationToMilliseconds defaultReportPeriod
  let rawConfig ← decodeStruct RawEventHarvestConfig.fields
    { reportPeriodMS := reportPeriodMs, harvestLimits := .zero } b
  let reportPeriod :=
    if rawConfig.reportPeriodMS = 0 then defaultReportPeriod
    else rawConfig.reportPeriodMS.toInt64 * millisecond
  let rawLimits := rawConfig.harvestLimits
  let errorEventConfig ← getEventConfig rawLimits.errorEventData reportPeriod maxErrorEvents
    defaultReportPeriod
  let analyticEventConfig ← getEventConfig rawLimits.analyticEventData reportPeriod maxTxnEvents
    defaultReportPeriod
  let customEventConfig ← getEventConfig rawLimits.customEventData reportPeriod maxCustomEvents
    defaultReportPeriod
  let spanEventConfig ← getEventConfig rawLimits.spanEventData reportPeriod maxSpanEvents
    defaultReportPeriod
  return {
    reportPeriod
    eventConfigs :=
      { errorEventConfig, analyticEventConfig, customEventConfig, spanEventConfig } }

end Collector

open Collector

/-- `ConnectReply`. -/
structure ConnectReply where
  id : Option AgentRunID
  samplingFrequency : ℤ
  samplingTarget : ℤ
  eventHarvestConfig : EventHarvestConfig

namespace ConnectReply

/-- The zero value. -/
def zero : ConnectReply :=
  { id := none, samplingFrequency := 0, samplingTarget := 0, eventHarvestConfig := .zero }

/-- The object of the events is read by its own `UnmarshalJSON`, whatever was
there before, and also where it is `null`. -/
def eventHarvestConfigField : StructField ConnectReply :=
  .of (ascii "event_harvest_config") eventHarvestConfig
    (fun reply config => { reply with eventHarvestConfig := config })
    fun _ b => EventHarvestConfig.unmarshalJSON b

def fields : List (StructField ConnectReply) :=
  [.of (ascii "agent_run_id") id (fun reply id => { reply with id := id })
      (decodePtr "" decodeString),
    .of (ascii "sampling_target_period_in_seconds") samplingFrequency
      (fun reply i => { reply with samplingFrequency := i }) decodeInt,
    .of (ascii "sampling_target") samplingTarget
      (fun reply i => { reply with samplingTarget := i }) decodeInt,
    eventHarvestConfigField]

end ConnectReply

/-- `parseConnectReply`. -/
def parseConnectReply (rawConnectReply : Json) : Option ConnectReply := do
  let c ← decodeStruct ConnectReply.fields .zero rawConnectReply
  if c.id = none then none else some c

/-! ### What the collector configures -/

namespace RawEventHarvestConfig

/-- What is said by an object that says nothing. -/
def unspecified : RawEventHarvestConfig := { reportPeriodMS := 60000, harvestLimits := .zero }

/-- What the collector says in an object, if it sends one. -/
def ofReply : Option Json → Option RawEventHarvestConfig
  | none => some unspecified
  | some b => decodeStruct fields unspecified b

/-- The report period, in milliseconds. Zero is no period, and the default is
used instead. -/
def periodMs (raw : RawEventHarvestConfig) : ℕ :=
  if raw.reportPeriodMS = 0 then 60000 else raw.reportPeriodMS.toNat

/-- The period as the daemon computes it. -/
def period (raw : RawEventHarvestConfig) : Duration :=
  if raw.reportPeriodMS = 0 then defaultReportPeriod else raw.reportPeriodMS.toInt64 * millisecond

/-- The limit that is configured for events of a type. -/
def limitFor (raw : RawEventHarvestConfig) (t : EventType) : ℤ :=
  (raw.harvestLimits.get t).getD t.defaultLimit

/-- The period that is configured for events of a type, in milliseconds. -/
def msFor (raw : RawEventHarvestConfig) (t : EventType) : ℕ :=
  if (raw.harvestLimits.get t).isSome then raw.periodMs else 60000

/-- The nanoseconds of the period fit, if any events are to be reported at it. -/
def PeriodFits (raw : RawEventHarvestConfig) : Prop :=
  ∀ t, (raw.harvestLimits.get t).isSome → raw.periodMs * 10 ^ 6 < 2 ^ 63

theorem toInt_period_iff (raw : RawEventHarvestConfig) :
    raw.period.toInt = raw.periodMs * 10 ^ 6 ↔ raw.periodMs * 10 ^ 6 < 2 ^ 63 := by
  rw [period, periodMs]
  split
  · rw [toInt_defaultReportPeriod]
    norm_num
  · exact toInt_period raw.reportPeriodMS

end RawEventHarvestConfig

/-- Every type of events has the limit and the period that are configured for it. -/
structure Collector.EventConfigs.AsConfigured (configs : Collector.EventConfigs)
    (raw : RawEventHarvestConfig) : Prop where
  limit : ∀ t, (configs.get t).limit = raw.limitFor t
  period : ∀ t, (configs.get t).reportPeriod.toInt = raw.msFor t * 10 ^ 6

theorem getEventConfig_eq_some {rawLimit : Option ℤ} {collectorRate defaultRate : Duration}
    {defaultLimit : ℕ} {event : Event}
    (h : getEventConfig rawLimit collectorRate defaultLimit defaultRate = some event) :
    event.limit = rawLimit.getD defaultLimit ∧
      event.reportPeriod = if rawLimit.isSome then collectorRate else defaultRate := by
  cases rawLimit with
  | none =>
      obtain rfl := Option.some.inj h
      exact ⟨rfl, rfl⟩
  | some limit =>
      simp only [getEventConfig] at h
      split_ifs at h
      obtain rfl := Option.some.inj h
      exact ⟨rfl, rfl⟩

/-- What `UnmarshalJSON` makes of an object that it accepts. -/
theorem unmarshalJSON_eq_some {b : Json} {config : EventHarvestConfig}
    (h : EventHarvestConfig.unmarshalJSON b = some config) :
    ∃ raw, RawEventHarvestConfig.ofReply (some b) = some raw ∧ config.reportPeriod = raw.period ∧
      ∀ t, getEventConfig (raw.harvestLimits.get t) raw.period t.defaultLimit defaultReportPeriod =
        some (config.eventConfigs.get t) := by
  have hdefault : durationToMilliseconds defaultReportPeriod = some 60000 := by decide
  rw [EventHarvestConfig.unmarshalJSON, hdefault] at h
  obtain ⟨ms, hms, h⟩ := Option.bind_eq_some_iff.mp h
  obtain rfl := Option.some.inj hms
  obtain ⟨raw, hraw, h⟩ := Option.bind_eq_some_iff.mp h
  obtain ⟨errorEventConfig, herror, h⟩ := Option.bind_eq_some_iff.mp h
  obtain ⟨analyticEventConfig, hanalytic, h⟩ := Option.bind_eq_some_iff.mp h
  obtain ⟨customEventConfig, hcustom, h⟩ := Option.bind_eq_some_iff.mp h
  obtain ⟨spanEventConfig, hspan, h⟩ := Option.bind_eq_some_iff.mp h
  obtain rfl := Option.some.inj h
  refine ⟨raw, hraw, rfl, fun t => ?_⟩
  cases t with
  | error => exact herror
  | analytic => exact hanalytic
  | custom => exact hcustom
  | span => exact hspan

section Configured

variable {raw : RawEventHarvestConfig} {configs : Collector.EventConfigs}
  (hconfigs : ∀ t, getEventConfig (raw.harvestLimits.get t) raw.period t.defaultLimit
    defaultReportPeriod = some (configs.get t))
include hconfigs

theorem limit_eq_limitFor (t : EventType) : (configs.get t).limit = raw.limitFor t :=
  (getEventConfig_eq_some (hconfigs t)).1

theorem reportPeriod_eq (t : EventType) :
    (configs.get t).reportPeriod =
      if (raw.harvestLimits.get t).isSome then raw.period else defaultReportPeriod :=
  (getEventConfig_eq_some (hconfigs t)).2

theorem toInt_reportPeriod_iff (t : EventType) :
    (configs.get t).reportPeriod.toInt = raw.msFor t * 10 ^ 6 ↔
      ((raw.harvestLimits.get t).isSome → raw.periodMs * 10 ^ 6 < 2 ^ 63) := by
  rw [reportPeriod_eq hconfigs, RawEventHarvestConfig.msFor]
  split
  · next hgiven => rw [raw.toInt_period_iff, imp_iff_right hgiven]
  · next hnone =>
      rw [toInt_defaultReportPeriod]
      exact iff_of_true rfl fun hgiven => absurd hgiven hnone

/-- An object that is accepted configures what it says, if the period fits. -/
theorem asConfigured_iff : configs.AsConfigured raw ↔ raw.PeriodFits := by
  constructor
  · intro h t
    exact (toInt_reportPeriod_iff hconfigs t).mp (h.period t)
  · intro hfits
    exact ⟨limit_eq_limitFor hconfigs, fun t => (toInt_reportPeriod_iff hconfigs t).mpr (hfits t)⟩

end Configured

/-! ### Connect replies -/

theorem determines_eventHarvestConfig :
    Determines ConnectReply.fields ConnectReply.eventHarvestConfigField
      ConnectReply.eventHarvestConfig EventHarvestConfig.unmarshalJSON where
  mem := by simp [ConnectReply.fields]
  distinct := by decide
  sets := by
    intro reply v reply' hdecode
    obtain ⟨config, hconfig, rfl⟩ := Option.map_eq_some_iff.mp hdecode
    exact hconfig
  keeps := by
    intro field hfield hname reply v reply' hdecode
    simp only [ConnectReply.fields, List.mem_cons, List.not_mem_nil, or_false] at hfield
    rcases hfield with rfl | rfl | rfl | rfl
    · obtain ⟨id, _, rfl⟩ := Option.map_eq_some_iff.mp hdecode
      rfl
    · obtain ⟨i, _, rfl⟩ := Option.map_eq_some_iff.mp hdecode
      rfl
    · obtain ⟨i, _, rfl⟩ := Option.map_eq_some_iff.mp hdecode
      rfl
    · exact absurd rfl hname

/-- The object of the events in a reply. -/
def ConnectReply.sentConfig (members : List (List ℕ × Json)) : Option Json :=
  lastNamed (ascii "event_harvest_config") members

/-- A reply that is accepted is an object with a run id. Where it has no object of
the events, nothing is filled in. -/
theorem parseConnectReply_eq_some {rawConnectReply : Json} {reply : ConnectReply}
    (h : parseConnectReply rawConnectReply = some reply) :
    ∃ members, rawConnectReply = .obj members ∧ reply.id ≠ none ∧
      match ConnectReply.sentConfig members with
      | some b => EventHarvestConfig.unmarshalJSON b = some reply.eventHarvestConfig
      | none => reply.eventHarvestConfig = .zero := by
  obtain ⟨c, hdecode, h⟩ := Option.bind_eq_some_iff.mp h
  split_ifs at h with hid
  obtain rfl := Option.some.inj h
  cases rawConnectReply with
  | obj members => exact ⟨members, rfl, hid, determines_eventHarvestConfig.decodeStruct hdecode⟩
  | null =>
      obtain rfl := Option.some.inj hdecode
      exact absurd rfl hid
  | bool | num | str | arr => cases hdecode

/-- The events of an accepted reply have the limits and periods that are
configured for them, with the defaults of the daemon for what is not said, if
and only if the reply has an object of the events at all and its period fits. -/
theorem parseConnectReply_asConfigured_iff {rawConnectReply : Json} {reply : ConnectReply}
    (h : parseConnectReply rawConnectReply = some reply) :
    ∃ members raw, rawConnectReply = .obj members ∧
      RawEventHarvestConfig.ofReply (ConnectReply.sentConfig members) = some raw ∧
      (reply.eventHarvestConfig.eventConfigs.AsConfigured raw ↔
        (ConnectReply.sentConfig members).isSome ∧ raw.PeriodFits) := by
  obtain ⟨members, rfl, _, hconfig⟩ := parseConnectReply_eq_some h
  cases hsent : ConnectReply.sentConfig members with
  | none =>
      rw [hsent] at hconfig
      refine ⟨members, .unspecified, rfl, by rw [hsent]; rfl, ?_⟩
      rw [hconfig, hsent]
      refine iff_of_false (fun hconfigured => ?_) fun hpresent => Bool.false_ne_true hpresent.1
      exact absurd (hconfigured.limit .error) (by decide)
  | some b =>
      rw [hsent] at hconfig
      obtain ⟨raw, hraw, _, hconfigs⟩ := unmarshalJSON_eq_some hconfig
      refine ⟨members, raw, rfl, by rw [hsent]; exact hraw, ?_⟩
      rw [asConfigured_iff hconfigs, hsent, Option.isSome_some]
      exact (and_iff_right rfl).symm

def keyOf (name : String) : List ℕ := (ascii name).map UInt8.toNat

/-- A reply with a run id and one more member. -/
def sampleReply (more : List (List ℕ × Json)) : Json :=
  .obj ((keyOf "agent_run_id", .str (keyOf "one")) :: more)

/-- A period, and a limit for error events. -/
def sampleConfig (ms : String) : Json :=
  .obj [(keyOf "report_period_ms", .num (ascii ms)),
    (keyOf "harvest_limits", .obj [(keyOf "error_event_data", .num (ascii "100"))])]

/-- What is made of five seconds. -/
def fiveSeconds : EventHarvestConfig :=
  { reportPeriod := 5 * second
    eventConfigs :=
      { errorEventConfig := ⟨100, 5 * second⟩
        analyticEventConfig := ⟨10000, 60 * second⟩
        customEventConfig := ⟨10000, 60 * second⟩
        spanEventConfig := ⟨1000, 60 * second⟩ } }

theorem parseConnectReply_asConfigured_fiveSeconds :
    ∃ members raw,
      sampleReply [(keyOf "event_harvest_config", sampleConfig "5000")] = .obj members ∧
      RawEventHarvestConfig.ofReply (ConnectReply.sentConfig members) = some raw ∧
      (fiveSeconds.eventConfigs.AsConfigured raw ↔
        (ConnectReply.sentConfig members).isSome ∧ raw.PeriodFits) := by
  have hparse : parseConnectReply (sampleReply [(keyOf "event_harvest_config", sampleConfig "5000")]) =
      some ⟨some "one", 0, 0, fiveSeconds⟩ := rfl
  exact parseConnectReply_asConfigured_iff hparse

/-- A reply without the object leaves all events without room. -/
theorem parseConnectReply_without_config :
    ∃ reply, parseConnectReply (sampleReply []) = some reply ∧
      (∀ t, reply.eventHarvestConfig.eventConfigs.get t = ⟨0, 0⟩) ∧
      RawEventHarvestConfig.ofReply none = some .unspecified ∧
      ¬ reply.eventHarvestConfig.eventConfigs.AsConfigured .unspecified := by
  refine ⟨⟨some "one", 0, 0, .zero⟩, rfl, fun t => ?_, rfl, fun hconfigured => ?_⟩
  · cases t <;> rfl
  · exact absurd (hconfigured.limit .error) (by decide)

/-! ### The tickers of a harvest trigger -/

/-- A ticker that `triggerBuilder` starts, with the type of harvest it triggers. -/
structure Ticker where
  type : HarvestType
  period : Duration

namespace ConnectReply

/-- `isHarvestAll`. -/
def isHarvestAll : Option ConnectReply → Bool
  | none => true
  | some reply =>
      let eventsConfig := reply.eventHarvestConfig.eventConfigs
      let collectorReportPeriod := reply.eventHarvestConfig.reportPeriod
      if eventsConfig.errorEventConfig.reportPeriod ≠ collectorReportPeriod ∨
          eventsConfig.analyticEventConfig.reportPeriod ≠ collectorReportPeriod ∨
          eventsConfig.customEventConfig.reportPeriod ≠ collectorReportPeriod ∨
          eventsConfig.spanEventConfig.reportPeriod ≠ collectorReportPeriod then false
      else collectorReportPeriod = defaultReportPeriod

/-- `checkReportPeriod`. -/
def checkReportPeriod (period defaultPeriod : Duration) : Duration :=
  if period = 0 then defaultPeriod else period

/-- `customTriggerBuilder`: the tickers of its group. -/
def customTriggerBuilder (reply : ConnectReply) : List Ticker :=
  let defaultPeriod := defaultReportPeriod
  let eventConfig := reply.eventHarvestConfig.eventConfigs
  [⟨harvestDefaultData, defaultPeriod⟩,
    ⟨harvestTxnEvents,
      checkReportPeriod eventConfig.analyticEventConfig.reportPeriod defaultPeriod⟩,
    ⟨harvestCustomEvents,
      checkReportPeriod eventConfig.customEventConfig.reportPeriod defaultPeriod⟩,
    ⟨harvestErrorEvents,
      checkReportPeriod eventConfig.errorEventConfig.reportPeriod defaultPeriod⟩,
    ⟨harvestSpanEvents, checkReportPeriod eventConfig.spanEventConfig.reportPeriod defaultPeriod⟩]

/-- `getHarvestTrigger`. -/
def getHarvestTrigger (reply : ConnectReply) : List Ticker :=
  if isHarvestAll (some reply) then [⟨harvestAllTypes, defaultReportPeriod⟩]
  else customTriggerBuilder reply

theorem getHarvestTrigger_types (reply : ConnectReply) :
    AppHarvest.getHarvestTrigger (isHarvestAll (some reply)) =
      if isHarvestAll (some reply) then .triggerBuilder harvestAllTypes
      else .group (reply.getHarvestTrigger.map Ticker.type) := by
  cases hall : isHarvestAll (some reply) <;> simp [AppHarvest.getHarvestTrigger, getHarvestTrigger,
    customTriggerBuilder, AppHarvest.customTriggerBuilder, hall]

end ConnectReply

/-- `NewTicker` takes the period, and it is the one that is configured for every
type of data that the ticker harvests. Data without a period of its own has the
default. -/
structure Ticker.Valid (raw : RawEventHarvestConfig) (ticker : Ticker) : Prop where
  positive : 0 < ticker.period.toInt
  defaultData : ticker.type.has harvestDefaultData → ticker.period.toInt = 60000 * 10 ^ 6
  events : ∀ t : EventType, ticker.type.has t.harvestType →
    ticker.period.toInt = raw.msFor t * 10 ^ 6

theorem RawEventHarvestConfig.msFor_pos (raw : RawEventHarvestConfig) (t : EventType) :
    0 < raw.msFor t := by
  have hperiod : 0 < raw.periodMs := by
    rw [periodMs]
    split
    · exact Nat.zero_lt_succ _
    · next hne =>
        refine Nat.pos_of_ne_zero fun hzero => hne ?_
        exact UInt64.toNat_inj.mp hzero
  rw [msFor]
  split
  · exact hperiod
  · exact Nat.zero_lt_succ _

theorem harvestType_has (t u : EventType) : u.harvestType.has t.harvestType ↔ t = u := by
  cases t <;> cases u <;> decide

theorem harvestDefaultData_not_has (t : EventType) :
    ¬ harvestDefaultData.has t.harvestType ∧ ¬ t.harvestType.has harvestDefaultData := by
  cases t <;> decide

theorem harvestAllTypes_has (t : EventType) : harvestAllTypes.has t.harvestType := by
  cases t <;> decide

theorem checkReportPeriod_of_pos {period : Duration} (h : 0 < period.toInt)
    (defaultPeriod : Duration) :
    ConnectReply.checkReportPeriod period defaultPeriod = period := by
  refine if_neg fun hzero => ?_
  rw [hzero] at h
  exact absurd h (by decide)

/-- One ticker for the data without a period of its own, and one for every type
of events. -/
theorem mem_customTriggerBuilder (reply : ConnectReply) (ticker : Ticker) :
    ticker ∈ reply.customTriggerBuilder ↔
      ticker = ⟨harvestDefaultData, defaultReportPeriod⟩ ∨
      ∃ t : EventType, ticker = ⟨t.harvestType, ConnectReply.checkReportPeriod
        (reply.eventHarvestConfig.eventConfigs.get t).reportPeriod defaultReportPeriod⟩ := by
  simp only [ConnectReply.customTriggerBuilder, List.mem_cons, List.not_mem_nil, or_false]
  constructor
  · rintro (h | h | h | h | h)
    · exact .inl h
    · exact .inr ⟨.analytic, h⟩
    · exact .inr ⟨.custom, h⟩
    · exact .inr ⟨.error, h⟩
    · exact .inr ⟨.span, h⟩
  · rintro (h | ⟨_ | _ | _ | _, h⟩)
    · exact .inl h
    · exact .inr (.inr (.inr (.inl h)))
    · exact .inr (.inl h)
    · exact .inr (.inr (.inl h))
    · exact .inr (.inr (.inr (.inr h)))

theorem exists_ticker (reply : ConnectReply) (t : EventType) :
    ∃ ticker ∈ reply.getHarvestTrigger, ticker.type.has t.harvestType := by
  rw [ConnectReply.getHarvestTrigger]
  split
  · exact ⟨_, List.mem_singleton_self _, harvestAllTypes_has t⟩
  · exact ⟨_, (mem_customTriggerBuilder reply _).mpr (.inr ⟨t, rfl⟩), (harvestType_has t t).mpr rfl⟩

theorem reportPeriod_of_isHarvestAll {reply : ConnectReply}
    (h : ConnectReply.isHarvestAll (some reply) = true) (t : EventType) :
    (reply.eventHarvestConfig.eventConfigs.get t).reportPeriod = defaultReportPeriod := by
  simp only [ConnectReply.isHarvestAll] at h
  split_ifs at h with hdiffer
  simp only [not_or, not_not] at hdiffer
  obtain ⟨herror, hanalytic, hcustom, hspan⟩ := hdiffer
  rw [← of_decide_eq_true h]
  cases t with
  | error => exact herror
  | analytic => exact hanalytic
  | custom => exact hcustom
  | span => exact hspan

theorem valid_default (raw : RawEventHarvestConfig) {type : HarvestType}
    (hevents : ∀ t : EventType, type.has t.harvestType → raw.msFor t = 60000) :
    Ticker.Valid raw ⟨type, defaultReportPeriod⟩ where
  positive := by
    rw [toInt_defaultReportPeriod]
    norm_num
  defaultData _ := toInt_defaultReportPeriod
  events t ht := by
    rw [hevents t ht]
    exact toInt_defaultReportPeriod

theorem valid_of_asConfigured {reply : ConnectReply} {raw : RawEventHarvestConfig}
    (h : reply.eventHarvestConfig.eventConfigs.AsConfigured raw) {ticker : Ticker}
    (hticker : ticker ∈ reply.getHarvestTrigger) : ticker.Valid raw := by
  rw [ConnectReply.getHarvestTrigger] at hticker
  split at hticker
  · next hall =>
      rw [List.mem_singleton.mp hticker]
      refine valid_default raw fun t _ => ?_
      have hperiod := h.period t
      rw [reportPeriod_of_isHarvestAll hall, toInt_defaultReportPeriod] at hperiod
      omega
  · rcases (mem_customTriggerBuilder reply ticker).mp hticker with rfl | ⟨t, rfl⟩
    · exact valid_default raw fun t ht => absurd ht (harvestDefaultData_not_has t).1
    · have hperiod := h.period t
      have hpos : 0 < (reply.eventHarvestConfig.eventConfigs.get t).reportPeriod.toInt := by
        have hms := raw.msFor_pos t
        omega
      rw [checkReportPeriod_of_pos hpos]
      refine ⟨hpos, fun hdefault => ?_, fun u hu => ?_⟩
      · exact absurd hdefault (harvestDefaultData_not_has t).2
      · rw [(harvestType_has u t).mp hu]
        exact hperiod

/-- The tickers that are started from an accepted object have the periods that
are configured, and `NewTicker` takes them, if and only if the period fits. -/
theorem getHarvestTrigger_valid_iff {b : Json} {reply : ConnectReply}
    (h : EventHarvestConfig.unmarshalJSON b = some reply.eventHarvestConfig) :
    ∃ raw, RawEventHarvestConfig.ofReply (some b) = some raw ∧
      ((∀ ticker ∈ reply.getHarvestTrigger, ticker.Valid raw) ↔ raw.PeriodFits) := by
  obtain ⟨raw, hraw, _, hconfigs⟩ := unmarshalJSON_eq_some h
  refine ⟨raw, hraw, fun hvalid t hgiven => ?_, fun hfits ticker hticker => ?_⟩
  · obtain ⟨ticker, hticker, hhas⟩ := exists_ticker reply t
    have hexact := (hvalid ticker hticker).events t hhas
    rw [RawEventHarvestConfig.msFor, if_pos hgiven] at hexact
    have hlt := Int64.toInt_lt ticker.period
    omega
  · exact valid_of_asConfigured ((asConfigured_iff hconfigs).mpr hfits) hticker

theorem getHarvestTrigger_valid_fiveSeconds :
    ∃ raw, RawEventHarvestConfig.ofReply (some (sampleConfig "5000")) = some raw ∧
      ((∀ ticker ∈ ConnectReply.getHarvestTrigger ⟨some "one", 0, 0, fiveSeconds⟩,
        ticker.Valid raw) ↔ raw.PeriodFits) :=
  getHarvestTrigger_valid_iff rfl

/-- The first number of milliseconds whose nanoseconds do not fit, which are 292
years: the ticker for error events gets a negative period. -/
theorem getHarvestTrigger_negative :
    ∃ config raw, EventHarvestConfig.unmarshalJSON (sampleConfig "9223372036855") = some config ∧
      RawEventHarvestConfig.ofReply (some (sampleConfig "9223372036855")) = some raw ∧
      ∃ ticker ∈ ConnectReply.getHarvestTrigger ⟨some "one", 0, 0, config⟩,
        ticker.period.toInt < 0 ∧ ¬ ticker.Valid raw := by
  refine ⟨_, _, rfl, rfl, ⟨harvestErrorEvents, (9223372036855 : UInt64).toInt64 * millisecond⟩, ?_,
    by decide, fun hvalid => ?_⟩
  · refine List.mem_of_getElem? (i := 3) ?_
    rfl
  · exact absurd hvalid.positive (by decide)

end AxiomDaemon.Daemon

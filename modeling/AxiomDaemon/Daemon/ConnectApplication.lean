import AxiomDaemon.Daemon.EventHarvestConfig
import AxiomDaemon.Daemon.MetricMaps
import AxiomDaemon.Daemon.Registry

/-!
Connecting an application (`ConnectApplication` and `processConnectAttempt` of
`processor.go`, `app.go`, `lasp.go`).

Two requests are made, preconnect and connect, and each of the eight ways out
of `ConnectApplication` returns an attempt. The attempt has an error or a
reply, but for the two ways out where a payload cannot be encoded: these log
the error and do not report it. The first of them cannot be taken. The second
is taken where the labels or the environment of the agent are not JSON, and the
processor then takes the attempt for a success that has a reply.

A JSON text that is sent stands for the value it was made of. Other texts of
the agent are taken to be UTF-8. What is found out about the machine is a
parameter, and so is the client that makes the requests.
-/

namespace AxiomDaemon.Daemon

open AxiomDaemon.Lib AxiomDaemon.Lib.JsonDecode Collector

/-! ### JSON texts -/

/-- A text with U+FFFD for every byte that is no part of a character. -/
def replaceInvalid : (fuel : ℕ) → Bytes → Bytes
  | 0, _ => []
  | _, [] => []
  | fuel + 1, b :: bs =>
      if b < 0x80 then b :: replaceInvalid fuel bs
      else
        match MetricMaps.decodeRune (b :: bs) with
        | none => [0xef, 0xbf, 0xbd] ++ replaceInvalid fuel bs
        | some (_, size) => (b :: bs).take size ++ replaceInvalid fuel ((b :: bs).drop size)

/-- The value that `json.Unmarshal` reads. -/
def jsonValue (text : Bytes) : Option Json := Json.parse (replaceInvalid text.length text)

/-- The check of a raw JSON text. It does not look at the characters beyond
ASCII, which only a string can have. -/
def jsonValid (text : Bytes) : Bool :=
  (Json.parse (text.map fun b => if b < 0x80 then b else 0x3f)).isSome

/-- `JSONString`, which may be nil. -/
abbrev JSONString : Type := Option Bytes

/-- The encoder takes what `MarshalJSON` returns: `null` for nil, and the text
itself otherwise, which it checks. -/
def JSONString.encodes : JSONString → Bool
  | none => true
  | some js => jsonValid js

/-! ### Security policies -/

/-- `SecurityPolicy`. -/
structure SecurityPolicy where
  enabled : Bool
  required : Bool

def SecurityPolicy.fields : List (StructField SecurityPolicy) :=
  [.of (ascii "enabled") enabled (fun policy b => { policy with enabled := b }) decodeBool,
    .of (ascii "required") required (fun policy b => { policy with required := b }) decodeBool]

/-- `SecurityPolicyAgent`. -/
structure SecurityPolicyAgent where
  enabled : Bool
  supported : Bool

/-- The policies of the agent by name, `AgentPolicies`. -/
abbrev AgentPolicies : Type := AList fun _ : String => SecurityPolicyAgent

/-- The errors about policies. -/
inductive PolicyError
  | policiesEmpty (text : String)
  | requiredPolicyNotSupported (name : String)
  | policyMissingFromPreconnect (name : String)

/-- `PreconnectReply`. -/
structure PreconnectReply where
  collector : String
  securityPolicies : AList fun _ : String => SecurityPolicy

namespace PreconnectReply

/-- The zero value. -/
def zero : PreconnectReply := { collector := "", securityPolicies := ∅ }

def fields : List (StructField PreconnectReply) :=
  [.of (ascii "redirect_host") collector (fun reply host => { reply with collector := host })
      decodeString,
    .of (ascii "security_policies") securityPolicies
      (fun reply policies => { reply with securityPolicies := policies })
      (decodeMap ⟨false, false⟩ (decodeStruct SecurityPolicy.fields))]

/-- `json.Unmarshal` into a new one. -/
def unmarshal (rawReply : Bytes) : Option PreconnectReply := do
  let v ← jsonValue rawReply
  decodeStruct fields zero v

end PreconnectReply

/-- `verifySecurityPolicies`. The order in which the maps are visited decides
which policy an error names, and no more. -/
def verifySecurityPolicies (ap : AgentPolicies) (preconnectReply : PreconnectReply) :
    Except PolicyError Unit :=
  if ap.entries.length = 0 then
    .error (.policiesEmpty "Policy Map from agent was empty when verifying")
  else if preconnectReply.securityPolicies.entries.length = 0 then
    .error (.policiesEmpty "Policy map from preconnect was empty when when verifying")
  else
    match preconnectReply.securityPolicies.entries.find? fun entry =>
        entry.2.required && !(ap.lookup entry.1).any SecurityPolicyAgent.supported with
    | some entry => .error (.requiredPolicyNotSupported entry.1)
    | none =>
        match ap.keys.find? fun name =>
            (preconnectReply.securityPolicies.lookup name).isNone with
        | some name => .error (.policyMissingFromPreconnect name)
        | none => .ok ()

/-! ### Payloads -/

/-- `RawPreconnectPayload`. -/
structure RawPreconnectPayload where
  securityPolicyToken : String
  highSecurity : Bool

/-- `utilization.Data`, with what was gathered beside the host name. -/
structure Utilization (U : Type) where
  hostname : String
  gathered : U

/-- `RawConnectPayload`. -/
structure RawConnectPayload (U : Type) where
  pid : ℤ
  language : String
  version : String
  host : String
  hostDisplayName : String
  settings : Option Json
  appName : List String
  highSecurity : Bool
  labels : JSONString
  environment : JSONString
  identifier : String
  util : Option (Utilization U)
  securityPolicies : List (String × SecurityPolicy)
  eventHarvestConfig : EventHarvestConfig

/-- What `EncodePayload` is called with. -/
inductive RawPayload (U : Type)
  | preconnect (payload : RawPreconnectPayload)
  | connect (payload : RawConnectPayload U)

/-- The values in the payload whose text their own `MarshalJSON` makes. -/
def RawPayload.encodes {U : Type} : RawPayload U → Bool
  | .preconnect _ => true
  | .connect payload =>
      payload.labels.encodes && payload.environment.encodes &&
        (durationToMilliseconds payload.eventHarvestConfig.reportPeriod).isSome

/-- `EncodePayload`. -/
def encodePayload {U : Type} (payload : RawPayload U) : Option (RawPayload U) :=
  if payload.encodes then some payload else none

theorem encodePayload_of_encodes {U : Type} {payload : RawPayload U} (h : payload.encodes = true) :
    encodePayload payload = some payload := if_pos h

theorem encodePayload_of_not_encodes {U : Type} {payload : RawPayload U}
    (h : payload.encodes = false) : encodePayload payload = none := by
  rw [encodePayload, h, if_neg Bool.false_ne_true]

/-- `addPoliciesToPayload`. -/
def addPoliciesToPayload {U : Type} (ap : AgentPolicies)
    (preconnectPolicies : AList fun _ : String => SecurityPolicy) (payload : RawConnectPayload U) :
    Except PolicyError (RawConnectPayload U) :=
  if ap.entries.length = 0 then
    .error (.policiesEmpty "Policy Map from agent was empty when adding to payload")
  else if preconnectPolicies.entries.length = 0 then
    .error (.policiesEmpty "Policy map from preconnect was empty when adding to payload")
  else
    .ok { payload with
      securityPolicies := (ap.entries.filter fun entry => entry.2.supported).map fun entry =>
        (entry.1,
          { enabled := entry.2.enabled &&
              (preconnectPolicies.lookup entry.1).any SecurityPolicy.enabled
            required := false }) }

/-- `NewEventHarvestConfig`, with `NewHarvestLimits`. -/
def newEventHarvestConfig : EventHarvestConfig where
  reportPeriod := defaultReportPeriod
  eventConfigs :=
    { errorEventConfig := ⟨maxErrorEvents, 0⟩
      analyticEventConfig := ⟨maxTxnEvents, 0⟩
      customEventConfig := ⟨maxCustomEvents, 0⟩
      spanEventConfig := ⟨maxSpanEvents, 0⟩ }

/-- `AppInfo` with what it has beside the key. -/
structure ConnectInfo extends AppInfo where
  agentVersion : String
  hostDisplayName : String
  settings : Option Json
  environment : JSONString
  labels : JSONString
  securityPolicyToken : String
  supportedSecurityPolicies : AgentPolicies

/-- `limits.HostLengthByteLimit`. -/
def hostLengthByteLimit : ℕ := 255

/-- The longest start of the characters that has no more bytes than the limit. -/
def takeBytes : ℕ → List Char → List Char
  | _, [] => []
  | limit, c :: cs => if c.utf8Size ≤ limit then c :: takeBytes (limit - c.utf8Size) cs else []

/-- `stringLengthByteLimit`. -/
def stringLengthByteLimit (str : String) (byteLimit : ℕ) : String :=
  String.ofList (takeBytes byteLimit str.toList)

/-- `ConnectPayloadInternal`, on a machine that has the host name, if it can be found out. -/
def ConnectInfo.connectPayload {U : Type} (info : ConnectInfo) (hostname : Option String) (pid : ℤ)
    (util : Option (Utilization U)) : RawConnectPayload U :=
  let host := if info.hostname = "" then hostname.getD "" else info.hostname
  { pid := pid
    language := info.agentLanguage
    version := info.agentVersion
    host := host
    hostDisplayName := stringLengthByteLimit info.hostDisplayName hostLengthByteLimit
    settings := info.settings
    appName := info.appname.splitOn ";"
    highSecurity := info.highSecurity
    labels := if 0 < (info.labels.getD []).length then info.labels else some (ascii "[]")
    environment := info.environment
    identifier := info.appname
    util := util.map fun util => { util with hostname := host }
    securityPolicies := []
    eventHarvestConfig := newEventHarvestConfig }

/-! ### ConnectApplication -/

/-- `Cmd`, with the payload it collects. -/
structure Cmd (U : Type) where
  name : String
  collector : String
  license : String
  agentLanguage : String
  agentVersion : String
  payload : RawPayload U

/-- `Client`: the reply to a command, or an error. -/
abbrev Client (U : Type) : Type := Cmd U → Except CollectorError Bytes

/-- What the license says of a region: what stands before the first x that is
not the first character. -/
def licenseRegion (license : String) : Option String :=
  match license.toList with
  | [] => none
  | c :: cs =>
      let region := c :: cs.takeWhile (· ≠ 'x')
      if 'x' ∈ cs ∧ '\n' ∉ region then some (String.ofList region) else none

/-- `CalculatePreconnectHost`. -/
def calculatePreconnectHost (license overrideHost : String) : String :=
  if "" ≠ overrideHost then overrideHost
  else
    match licenseRegion license with
    | some region => "collector." ++ region ++ ".nr-data.net"
    | none => "collector.newrelic.com"

/-- `ConnectArgs`. -/
structure ConnectArgs (U : Type) where
  redirectCollector : String
  payloadRaw : RawConnectPayload U
  license : String
  securityPolicyToken : String
  highSecurity : Bool
  appKey : AppKey
  agentLanguage : String
  agentVersion : String
  appSupportedSecurityPolicies : AgentPolicies

/-- The arguments that `considerConnect` passes on. -/
def ConnectInfo.connectArgs {U : Type} (info : ConnectInfo) (dataRaw : RawConnectPayload U) :
    ConnectArgs U where
  redirectCollector := info.redirectCollector
  payloadRaw := dataRaw
  license := info.license
  securityPolicyToken := info.securityPolicyToken
  highSecurity := info.highSecurity
  appKey := info.toAppInfo.key
  agentLanguage := info.agentLanguage
  agentVersion := info.agentVersion
  appSupportedSecurityPolicies := info.supportedSecurityPolicies

/-- `ConnectAttempt`. An error that is none of the collector's is one that the
processor does not tell from others. The policies are kept as they are, not as
the text that `json.Marshal` makes of them. -/
structure ConnectAttempt where
  key : AppKey
  collector : String
  reply : Option ConnectReply
  rawReply : Option Bytes
  err : Option CollectorError
  rawSecurityPolicies : Option (List (String × Bool))

namespace ConnectArgs

variable {U : Type}

/-- The payload of the first request. -/
def preconnectPayload (args : ConnectArgs U) : RawPreconnectPayload where
  securityPolicyToken := args.securityPolicyToken
  highSecurity := args.highSecurity

/-- The first request. -/
def preconnectCmd (args : ConnectArgs U) (payload : RawPayload U) : Cmd U where
  name := "preconnect"
  collector := calculatePreconnectHost args.license args.redirectCollector
  license := args.license
  agentLanguage := args.agentLanguage
  agentVersion := args.agentVersion
  payload := payload

/-- The policies are looked at if the agent has sent a token. -/
def verify (args : ConnectArgs U) (preconnectReply : PreconnectReply) : Except PolicyError Unit :=
  if "" ≠ args.securityPolicyToken then
    verifySecurityPolicies args.appSupportedSecurityPolicies preconnectReply
  else .ok ()

def addPolicies (args : ConnectArgs U) (preconnectReply : PreconnectReply) :
    Except PolicyError (RawConnectPayload U) :=
  if "" ≠ args.securityPolicyToken then
    addPoliciesToPayload args.appSupportedSecurityPolicies preconnectReply.securityPolicies
      args.payloadRaw
  else .ok args.payloadRaw

end ConnectArgs

/-- `ConnectApplication`. -/
def connectApplication {U : Type} (client : Client U) (args : ConnectArgs U) : ConnectAttempt :=
  let rep : ConnectAttempt :=
    { key := args.appKey, collector := "", reply := none, rawReply := none, err := none,
      rawSecurityPolicies := none }
  match encodePayload (.preconnect args.preconnectPayload) with
  | none => rep
  | some payload =>
      let call := args.preconnectCmd payload
      match client call with
      | .error err => { rep with err := some err }
      | .ok rawReply =>
          let rep := { rep with rawReply := some rawReply }
          match PreconnectReply.unmarshal rawReply with
          | none => { rep with err := some .other }
          | some preconnectReply =>
              match args.verify preconnectReply with
              | .error _ => { rep with err := some .other }
              | .ok () =>
                  let rep := { rep with
                    rawSecurityPolicies := some (preconnectReply.securityPolicies.entries.map
                      fun entry => (entry.1, entry.2.enabled)) }
                  match args.addPolicies preconnectReply with
                  | .error _ => { rep with err := some .other }
                  | .ok payloadRaw =>
                      match encodePayload (.connect payloadRaw) with
                      -- the error is logged only
                      | none => rep
                      | some payload =>
                          let rep := { rep with collector := preconnectReply.collector }
                          let call := { call with
                            collector := rep.collector, payload := payload, name := "connect" }
                          match client call with
                          | .error err => { rep with rawReply := none, err := some err }
                          | .ok rawReply =>
                              let rep := { rep with rawReply := some rawReply }
                              match (jsonValue rawReply).bind parseConnectReply with
                              | none => { rep with err := some .other }
                              | some reply => { rep with reply := some reply }

/-! ### What the processor does with an attempt -/

/-- The fields of `App` that the registry leaves out. -/
structure ConnectData where
  collector : String
  connectTime : ℤ
  harvestFrequency : Duration
  samplingTarget : UInt16
  connectReply : Option ConnectReply
  rawSecurityPolicies : Option (List (String × Bool))
  rawConnectReply : Option Bytes
  harvestTrigger : List Ticker

/-- The registry of the processor, with what it leaves out of its applications,
and the limits of the harvest under a run id. -/
structure ConnectProcessor where
  registry : Processor
  data : AppRef → ConnectData
  limits : AgentRunID → EventConfigs

/-- What a connect reply sets of an application. -/
def ConnectAttempt.connectData (rep : ConnectAttempt) (reply : ConnectReply) (now : ℤ) :
    ConnectData :=
  let harvestFrequency : Duration := Int64.ofInt reply.samplingFrequency * second
  let samplingTarget := UInt16.ofInt reply.samplingTarget
  { collector := rep.collector
    connectTime := now
    harvestFrequency := if 0 = harvestFrequency then 60 * second else harvestFrequency
    samplingTarget := if 0 = samplingTarget then 10 else samplingTarget
    connectReply := some reply
    rawSecurityPolicies := rep.rawSecurityPolicies
    rawConnectReply := rep.rawReply
    harvestTrigger := reply.getHarvestTrigger }

/-- `processConnectAttempt`. Without an error the reply and its run id are
dereferenced; none is the panic where there is none. -/
def processConnectAttempt (p : ConnectProcessor) (rep : ConnectAttempt) :
    Option ConnectProcessor :=
  match p.registry.apps.lookup rep.key with
  | none => some p
  | some a =>
      match rep.err with
      | some err =>
          some { p with
            registry := p.registry.modifyApp a fun app =>
              { app with state := Processor.connectErrorState err } }
      | none =>
          match rep.reply with
          | none => none
          | some reply =>
              match reply.id with
              | none => none
              | some id =>
                  some
                    { registry := p.registry.connectApp a id
                      data := Function.update p.data a (rep.connectData reply p.registry.now)
                      limits := Function.update p.limits id
                        reply.eventHarvestConfig.eventConfigs.limits }

/-- What the registry takes for the result of an attempt. -/
def ConnectAttempt.result (rep : ConnectAttempt) : Option (Except CollectorError AgentRunID) :=
  match rep.err with
  | some err => some (.error err)
  | none => (rep.reply.bind ConnectReply.id).map .ok

theorem registry_processConnectAttempt (p : ConnectProcessor) {rep : ConnectAttempt}
    {result : Except CollectorError AgentRunID} (h : rep.result = some result) :
    (processConnectAttempt p rep).map ConnectProcessor.registry =
      some (p.registry.processConnectAttempt rep.key result) := by
  rw [processConnectAttempt, Processor.processConnectAttempt]
  cases p.registry.apps.lookup rep.key with
  | none => rfl
  | some a =>
      rw [ConnectAttempt.result] at h
      cases herr : rep.err with
      | some err =>
          rw [herr] at h
          obtain rfl := Option.some.inj h
          rfl
      | none =>
          rw [herr] at h
          obtain ⟨id, hid, rfl⟩ := Option.map_eq_some_iff.mp h
          obtain ⟨reply, hreply, hid⟩ := Option.bind_eq_some_iff.mp hid
          simp only [hreply, hid]
          rfl

/-- An attempt has an error, or a reply with a run id. -/
def ConnectAttempt.Reported (rep : ConnectAttempt) : Prop :=
  rep.err ≠ none ∨ ∃ reply, rep.reply = some reply ∧ reply.id ≠ none

/-- An attempt never looks successful without being so. It does not make the
processor panic, and if it failed then the connect replies, the run ids and the
harvests stay as they were. -/
structure ConnectAttempt.Sound (rep : ConnectAttempt) : Prop where
  reported : rep.Reported
  processed : ∀ p, processConnectAttempt p rep ≠ none
  unchanged : rep.err ≠ none → ∀ p p', processConnectAttempt p rep = some p' →
    p'.data = p.data ∧ p'.limits = p.limits ∧ p'.registry.harvests = p.registry.harvests ∧
      ∀ a, (p'.registry.heap a).connectReplyID = (p.registry.heap a).connectReplyID

theorem ConnectAttempt.Reported.result {rep : ConnectAttempt} (h : rep.Reported) :
    ∃ result, rep.result = some result := by
  rw [ConnectAttempt.result]
  cases herr : rep.err with
  | some err => exact ⟨_, rfl⟩
  | none =>
      obtain ⟨reply, hreply, hid⟩ := h.resolve_left fun hsome => hsome herr
      obtain ⟨id, hid⟩ := Option.ne_none_iff_exists'.mp hid
      exact ⟨.ok id, by rw [hreply, Option.bind_some, hid]; rfl⟩

theorem ConnectAttempt.Reported.sound {rep : ConnectAttempt} (h : rep.Reported) : rep.Sound where
  reported := h
  processed := by
    intro p hnone
    obtain ⟨result, hresult⟩ := h.result
    have hregistry := registry_processConnectAttempt p hresult
    rw [hnone] at hregistry
    cases hregistry
  unchanged := by
    intro herr p p' hprocess
    obtain ⟨err, herr⟩ := Option.ne_none_iff_exists'.mp herr
    rw [processConnectAttempt, herr] at hprocess
    cases hlookup : p.registry.apps.lookup rep.key with
    | none =>
        rw [hlookup] at hprocess
        obtain rfl := Option.some.inj hprocess
        exact ⟨rfl, rfl, rfl, fun _ => rfl⟩
    | some a =>
        rw [hlookup] at hprocess
        obtain rfl := Option.some.inj hprocess
        refine ⟨rfl, rfl, rfl, fun b => ?_⟩
        by_cases hb : b = a
        · rw [hb]
          simp [Processor.modifyApp]
        · simp [Processor.modifyApp, hb]

/-! ### Every way out -/

section Exits

variable {U : Type} {client : Client U} {args : ConnectArgs U}

/-- Preconnect has a reply that can be read and whose policies agree with those
of the agent. -/
def Preconnects (client : Client U) (args : ConnectArgs U) : Prop :=
  ∃ rawReply preconnectReply,
    client (args.preconnectCmd (.preconnect args.preconnectPayload)) = .ok rawReply ∧
    PreconnectReply.unmarshal rawReply = some preconnectReply ∧
    args.verify preconnectReply = .ok ()

/-- Policies that agree can be added, and nothing else of the payload changes. -/
theorem addPolicies_of_verify {preconnectReply : PreconnectReply}
    (h : args.verify preconnectReply = .ok ()) :
    ∃ payload, args.addPolicies preconnectReply = .ok payload ∧
      (RawPayload.connect payload).encodes = (RawPayload.connect args.payloadRaw).encodes := by
  rw [ConnectArgs.verify] at h
  rw [ConnectArgs.addPolicies]
  split_ifs at h ⊢ with htoken
  · rw [verifySecurityPolicies] at h
    rw [addPoliciesToPayload]
    split_ifs at h ⊢ with hagent hpreconnect
    exact ⟨_, rfl, rfl⟩
  · exact ⟨_, rfl, rfl⟩

theorem err_of_not_preconnects (h : ¬ Preconnects client args) :
    (connectApplication client args).err ≠ none := by
  simp only [connectApplication, encodePayload, RawPayload.encodes, if_true]
  split
  · simp
  · next rawReply hreply =>
      split
      · simp
      · next preconnectReply hread =>
          split
          · simp
          · next hverify => exact absurd ⟨rawReply, preconnectReply, hreply, hread, hverify⟩ h

theorem connectApplication_of_not_encodes (h : Preconnects client args)
    (hencodes : (RawPayload.connect args.payloadRaw).encodes = false) :
    (connectApplication client args).err = none ∧ (connectApplication client args).reply = none := by
  obtain ⟨rawReply, preconnectReply, hreply, hread, hverify⟩ := h
  obtain ⟨payload, hadd, hsame⟩ := addPolicies_of_verify hverify
  have hencode := encodePayload_of_not_encodes (hsame.trans hencodes)
  have hfirst : encodePayload (U := U) (.preconnect args.preconnectPayload) = some _ :=
    encodePayload_of_encodes rfl
  simp only [connectApplication, hfirst, hreply, hread, hverify, hadd, hencode, and_self]

theorem reported_of_encodes (h : Preconnects client args)
    (hencodes : (RawPayload.connect args.payloadRaw).encodes = true) :
    (connectApplication client args).Reported := by
  obtain ⟨rawReply, preconnectReply, hreply, hread, hverify⟩ := h
  obtain ⟨payload, hadd, hsame⟩ := addPolicies_of_verify hverify
  have hencode := encodePayload_of_encodes (hsame.trans hencodes)
  have hfirst : encodePayload (U := U) (.preconnect args.preconnectPayload) = some _ :=
    encodePayload_of_encodes rfl
  simp only [connectApplication, hfirst, hreply, hread, hverify, hadd, hencode]
  split
  · exact .inl (by simp)
  · split
    · exact .inl (by simp)
    · next reply hparse =>
        obtain ⟨v, _, hparse⟩ := Option.bind_eq_some_iff.mp hparse
        obtain ⟨_, _, hid, _⟩ := parseConnectReply_eq_some hparse
        exact .inr ⟨reply, rfl, hid⟩

end Exits

/-! ### Every agent -/

/-- The labels of the agent are empty or JSON, and its environment is nil or JSON. -/
def ConnectInfo.encodes (info : ConnectInfo) : Bool :=
  ((info.labels.getD []).length = 0 || info.labels.encodes) && info.environment.encodes

theorem encodes_connectPayload {U : Type} (info : ConnectInfo) (hostname : Option String) (pid : ℤ)
    (util : Option (Utilization U)) :
    (RawPayload.connect (info.connectPayload hostname pid util)).encodes = info.encodes := by
  have hperiod : (durationToMilliseconds newEventHarvestConfig.reportPeriod).isSome = true := by
    decide
  have hnoLabels : JSONString.encodes (some (ascii "[]")) = true := by decide
  simp only [RawPayload.encodes, ConnectInfo.connectPayload, ConnectInfo.encodes, hperiod,
    Bool.and_true]
  split_ifs with hlabels
  · have hsome : (info.labels.getD []).length ≠ 0 := by omega
    simp only [hsome, decide_false, Bool.false_or]
  · have hnone : (info.labels.getD []).length = 0 := by omega
    simp only [hnone, hnoLabels, decide_true, Bool.true_or]

/-- A connect attempt never looks successful without being so, if and only if
the labels and the environment of the agent can be encoded, or preconnect
already fails. -/
theorem connectApplication_sound_iff {U : Type} (client : Client U) (info : ConnectInfo)
    (hostname : Option String) (pid : ℤ) (util : Option (Utilization U)) :
    let args := info.connectArgs (info.connectPayload hostname pid util)
    (connectApplication client args).Sound ↔
      (Preconnects client args → info.encodes = true) := by
  intro args
  have hencodes : (RawPayload.connect args.payloadRaw).encodes = info.encodes :=
    encodes_connectPayload info hostname pid util
  constructor
  · intro hsound hpreconnects
    by_contra hnot
    rw [Bool.not_eq_true, ← hencodes] at hnot
    obtain ⟨herr, hreply⟩ := connectApplication_of_not_encodes hpreconnects hnot
    rcases hsound.reported with hfailed | ⟨reply, hsome, _⟩
    · exact hfailed herr
    · rw [hreply] at hsome
      cases hsome
  · intro himp
    by_cases hpreconnects : Preconnects client args
    · exact (reported_of_encodes hpreconnects (hencodes.trans (himp hpreconnects))).sound
    · exact ConnectAttempt.Reported.sound (.inl (err_of_not_preconnects hpreconnects))

/-- An agent whose labels are the letter x. -/
def unquotedInfo : ConnectInfo where
  license := ""
  appname := "app"
  agentLanguage := "c"
  highSecurity := false
  redirectCollector := "host"
  supportedPoliciesHash := ""
  hostname := "host"
  agentVersion := "1"
  hostDisplayName := ""
  settings := none
  environment := none
  labels := some (ascii "x")
  securityPolicyToken := ""
  supportedSecurityPolicies := ∅

/-- A processor that knows the agent's application. -/
def unquotedProcessor : ConnectProcessor where
  registry := { Processor.new (newApp unquotedInfo.toAppInfo 0) with
    apps := (∅ : AList fun _ : AppKey => AppRef).insert unquotedInfo.toAppInfo.key 0 }
  data := fun _ =>
    { collector := "", connectTime := 0, harvestFrequency := 0, samplingTarget := 0,
      connectReply := none, rawSecurityPolicies := none, rawConnectReply := none,
      harvestTrigger := [] }
  limits := fun _ => EventHarvestConfig.zero.eventConfigs.limits

/-- The attempt of that agent, preconnect having an empty object as its reply. -/
theorem connectApplication_looks_successful :
    let args := unquotedInfo.connectArgs
      (unquotedInfo.connectPayload (U := Unit) (some "host") 1 none)
    let rep := connectApplication (fun _ => .ok (ascii "\x7b\x7d")) args
    rep.err = none ∧ rep.reply = none ∧ processConnectAttempt unquotedProcessor rep = none ∧
      ¬ rep.Sound := by
  intro args rep
  have hpreconnects : Preconnects (fun _ => .ok (ascii "\x7b\x7d")) args :=
    ⟨_, .zero, rfl, rfl, if_neg fun hne => hne rfl⟩
  have hnot : (RawPayload.connect args.payloadRaw).encodes = false := by
    refine (encodes_connectPayload unquotedInfo (some "host") 1 none).trans ?_
    decide
  obtain ⟨herr, hreply⟩ := connectApplication_of_not_encodes hpreconnects hnot
  have hlookup : unquotedProcessor.registry.apps.lookup rep.key = some 0 := rfl
  have hpanic : processConnectAttempt unquotedProcessor rep = none := by
    simp only [processConnectAttempt, hlookup, herr, hreply, rep]
  exact ⟨herr, hreply, hpanic, fun hsound => hsound.processed _ hpanic⟩

end AxiomDaemon.Daemon

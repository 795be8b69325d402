import AxiomDaemon.Axiom.AppList
import AxiomDaemon.Axiom.CommandMessage
import AxiomDaemon.Axiom.PathHashes

/-!
The query of an agent for an application, `cmd_appinfo_transmit.c`.
-/

namespace AxiomDaemon.Axiom

open AxiomDaemon.Lib AxiomDaemon.Lib.Flatbuffers AxiomDaemon.Util

/-! ### Labels and environment -/

/-- `nr_labels_connector_format_iterator`. -/
def nrLabelsConnectorFormatIterator (key : Bytes) (val arr : NrObj) : NrStatus × NrObj :=
  let hash := nroSetHash (.hash []) (ascii "label_type") (.string key)
  let hash := nroSetHash hash (ascii "label_value") (.string (nrStrdup (nroGetString (some val))))
  (.success, nroAppendArray arr hash)

/-- `nr_labels_connector_format`. -/
def nrLabelsConnectorFormat (object : NrObj) : NrObj :=
  nroIteratehash nrLabelsConnectorFormatIterator object (.array [])

/-- `convert_appenv`. -/
def convertAppenv (key : Bytes) (val envarray : NrObj) : NrStatus × NrObj :=
  (.success, nroAppendArray envarray (.array [.string key, val]))

/-- The texts that are sent for the objects of an application. -/
def labelsText (info : NrAppInfo NrObj) : Option Bytes :=
  info.labels.map fun labels => nroToJson (some (nrLabelsConnectorFormat labels))

def settingsText (info : NrAppInfo NrObj) : Option Bytes :=
  info.settings.map fun settings => nroToJson (some settings)

def environmentText (info : NrAppInfo NrObj) : Option Bytes :=
  info.environment.map fun environment =>
    nroToJson (some (nroIteratehash convertAppenv environment (.array [])))

/-- The run id, if there is one that is not empty. -/
def knownRunId (agentRunId : Option Bytes) : Option Bytes := agentRunId.filter fun id => id ≠ []

/-! ### The query -/

def appFieldLicense : ℕ := 0

def appFieldAppname : ℕ := 1

def appFieldAgentLanguage : ℕ := 2

def appFieldAgentVersion : ℕ := 3

def appFieldHighSecurity : ℕ := 4

def appFieldRedirectCollector : ℕ := 5

def appFieldEnvironment : ℕ := 6

def appFieldSettings : ℕ := 7

def appFieldLabels : ℕ := 8

def appDisplayHost : ℕ := 9

def appSecurityPolicyToken : ℕ := 10

def appSupportedSecurityPolicies : ℕ := 11

def appHost : ℕ := 12

def appNumFields : ℕ := 13

/-- The offsets of the texts of a query. -/
structure AppOffsets where
  displayHost : ℕ
  labels : ℕ
  settings : ℕ
  env : ℕ
  collector : ℕ
  agentVersion : ℕ
  agentLang : ℕ
  appname : ℕ
  license : ℕ
  securityPolicyToken : ℕ
  hostName : ℕ
  supportedSecurityPolicies : ℕ

/-- The fields of an application, in the order in which they are written. -/
def appFields (highSecurity : ℤ) (off : AppOffsets) : List FieldWrite :=
  [.uoffset appHost off.hostName,
    .uoffset appSupportedSecurityPolicies off.supportedSecurityPolicies,
    .uoffset appSecurityPolicyToken off.securityPolicyToken,
    .uoffset appDisplayHost off.displayHost,
    .uoffset appFieldLabels off.labels,
    .uoffset appFieldSettings off.settings,
    .uoffset appFieldEnvironment off.env,
    .uoffset appFieldRedirectCollector off.collector,
    .bool appFieldHighSecurity (highSecurity ≠ 0),
    .uoffset appFieldAgentVersion off.agentVersion,
    .uoffset appFieldAgentLanguage off.agentLang,
    .uoffset appFieldAppname off.appname,
    .uoffset appFieldLicense off.license]

section Query

variable (malloc : ℕ → ℕ)

/-- `nr_appinfo_prepend_labels`. There is no text when there are no labels. -/
def nrAppinfoPrependLabels (info : NrAppInfo NrObj) : Writing ℕ :=
  prependString malloc (labelsText info)

/-- `nr_appinfo_prepend_settings`. -/
def nrAppinfoPrependSettings (info : NrAppInfo NrObj) : Writing ℕ :=
  prependString malloc (settingsText info)

/-- `nr_appinfo_prepend_env`. -/
def nrAppinfoPrependEnv (info : NrAppInfo NrObj) : Writing ℕ :=
  prependString malloc (environmentText info)

/-- The texts of a query. -/
def prependAppTexts (systemHostName : Option Bytes) (info : NrAppInfo NrObj) :
    Writing AppOffsets := do
  let displayHost ← prependString malloc info.hostDisplayName
  let labels ← nrAppinfoPrependLabels malloc info
  let settings ← nrAppinfoPrependSettings malloc info
  let env ← nrAppinfoPrependEnv malloc info
  let collector ← prependString malloc info.redirectCollector
  let agentVersion ← prependString malloc info.version
  let agentLang ← prependString malloc info.lang
  let appname ← prependString malloc info.appname
  let license ← prependString malloc info.license
  let securityPolicyToken ← prependString malloc info.securityPoliciesToken
  let hostName ← prependString malloc systemHostName
  let supportedSecurityPolicies ←
    prependString malloc (some (nroToJson info.supportedSecurityPolicies))
  pure
    { displayHost, labels, settings, env, collector, agentVersion, agentLang, appname, license
      securityPolicyToken, hostName, supportedSecurityPolicies }

/-- `nr_appinfo_create_query`, on the buffer that it creates. -/
def appinfoQuery (agentRunId systemHostName : Option Bytes) (info : NrAppInfo NrObj) :
    Writing Unit := do
  let off ← prependAppTexts malloc systemHostName info
  let appinfo ← object malloc appNumFields (appFields info.highSecurity off)
  let agentRunIdOffset ← prependString malloc (knownRunId agentRunId)
  finishMessage malloc messageBodyApp appinfo agentRunIdOffset

/-- `nr_appinfo_create_query`. -/
def nrAppinfoCreateQuery (agentRunId systemHostName : Option Bytes) (info : NrAppInfo NrObj) :
    Option Flatbuffer :=
  (appinfoQuery malloc agentRunId systemHostName info (nrFlatbuffersCreate malloc 0)).map Prod.snd

end Query

/-! ### What the query has -/

/-- The texts of an application are at their offsets. -/
structure AppTexts (buf : Bytes) (off : AppOffsets) (systemHostName : Option Bytes)
    (info : NrAppInfo NrObj) : Prop where
  displayHost : TextIs buf off.displayHost info.hostDisplayName
  labels : TextIs buf off.labels (labelsText info)
  settings : TextIs buf off.settings (settingsText info)
  env : TextIs buf off.env (environmentText info)
  collector : TextIs buf off.collector info.redirectCollector
  agentVersion : TextIs buf off.agentVersion info.version
  agentLang : TextIs buf off.agentLang info.lang
  appname : TextIs buf off.appname info.appname
  license : TextIs buf off.license info.license
  securityPolicyToken : TextIs buf off.securityPolicyToken info.securityPoliciesToken
  hostName : TextIs buf off.hostName systemHostName
  supportedSecurityPolicies :
    TextIs buf off.supportedSecurityPolicies (some (nroToJson info.supportedSecurityPolicies))

/-- The texts of an application, in the order in which they are written. -/
def appTexts (systemHostName : Option Bytes) (info : NrAppInfo NrObj) : List (Option Bytes) :=
  [info.hostDisplayName, labelsText info, settingsText info, environmentText info,
    info.redirectCollector, info.version, info.lang, info.appname, info.license,
    info.securityPoliciesToken, systemHostName, some (nroToJson info.supportedSecurityPolicies)]

/-- How much room a query takes at most. -/
def querySize (agentRunId systemHostName : Option Bytes) (info : NrAppInfo NrObj) : ℕ :=
  ((appTexts systemHostName info).map textCost).sum + textCost (knownRunId agentRunId) + 250

section Rules

variable {malloc : ℕ → ℕ} (hmalloc : ∀ n, 4 ∣ malloc n) {fb : Flatbuffer}

include hmalloc

theorem reaches_prependAppTexts (h : Ready fb) (systemHostName : Option Bytes)
    (info : NrAppInfo NrObj)
    (hlt : fb.bytes.length + ((appTexts systemHostName info).map textCost).sum < 2 ^ 30) :
    writing.Reaches (fb.bytes.length + ((appTexts systemHostName info).map textCost).sum) fb
      (prependAppTexts malloc systemHostName info)
      (fun off fb' => Ready fb' ∧
        ∀ highSecurity, ∀ w ∈ appFields highSecurity off, w.offset ≤ fb'.bytes.length)
      fun off buf => AppTexts buf off systemHostName info := by
  simp only [appTexts, List.map_cons, List.map_nil, List.sum_cons, List.sum_nil] at hlt ⊢
  refine reaches_prependString_bind hmalloc h _ (by omega) hlt fun o1 f1 h1 l1 a1 b1 => ?_
  refine reaches_prependString_bind hmalloc h1 _ (by omega) hlt fun o2 f2 h2 l2 a2 b2 => ?_
  refine reaches_prependString_bind hmalloc h2 _ (by omega) hlt fun o3 f3 h3 l3 a3 b3 => ?_
  refine reaches_prependString_bind hmalloc h3 _ (by omega) hlt fun o4 f4 h4 l4 a4 b4 => ?_
  refine reaches_prependString_bind hmalloc h4 _ (by omega) hlt fun o5 f5 h5 l5 a5 b5 => ?_
  refine reaches_prependString_bind hmalloc h5 _ (by omega) hlt fun o6 f6 h6 l6 a6 b6 => ?_
  refine reaches_prependString_bind hmalloc h6 _ (by omega) hlt fun o7 f7 h7 l7 a7 b7 => ?_
  refine reaches_prependString_bind hmalloc h7 _ (by omega) hlt fun o8 f8 h8 l8 a8 b8 => ?_
  refine reaches_prependString_bind hmalloc h8 _ (by omega) hlt fun o9 f9 h9 l9 a9 b9 => ?_
  refine reaches_prependString_bind hmalloc h9 _ (by omega) hlt fun o10 f10 h10 l10 a10 b10 => ?_
  refine reaches_prependString_bind hmalloc h10 _ (by omega) hlt fun o11 f11 h11 l11 a11 b11 => ?_
  refine reaches_prependString_bind hmalloc h11 _ (by omega) hlt fun o12 f12 h12 l12 a12 b12 => ?_
  refine Growth.Reaches.pure (by show f12.bytes.length ≤ _; omega) ⟨h12, ?_⟩ ?_
  · intro highSecurity w hw
    simp only [appFields, List.mem_cons, List.not_mem_nil, or_false] at hw
    rcases hw with rfl | rfl | rfl | rfl | rfl | rfl | rfl | rfl | rfl | rfl | rfl | rfl | rfl <;>
      simp only [FieldWrite.offset] <;> omega
  · intro buf t12 t11 t10 t9 t8 t7 t6 t5 t4 t3 t2 t1
    exact ⟨t1, t2, t3, t4, t5, t6, t7, t8, t9, t10, t11, t12⟩

end Rules

/-- A buffer that holds a query. -/
structure SentQuery (buf : Bytes) (agentRunId systemHostName : Option Bytes)
    (info : NrAppInfo NrObj) (root appinfo runId : ℕ) (off : AppOffsets) : Prop where
  long : minFlatbufferSize < root
  message : MessageAt buf root
    (fieldsOf ((messageFields messageBodyApp appinfo runId).map FieldWrite.entry).reverse)
  app : (Piece.table
    (fieldsOf ((appFields info.highSecurity off).map FieldWrite.entry).reverse)).Holds buf appinfo
  texts : AppTexts buf off systemHostName info
  runId : TextIs buf runId (knownRunId agentRunId)

theorem appinfoQuery_spec {malloc : ℕ → ℕ} (hmalloc : ∀ n, 4 ∣ malloc n)
    (agentRunId systemHostName : Option Bytes) (info : NrAppInfo NrObj)
    (hsize : querySize agentRunId systemHostName info < 2 ^ 30) :
    ∃ query, nrAppinfoCreateQuery malloc agentRunId systemHostName info = some query ∧
      query.bytes.length ≤ querySize agentRunId systemHostName info ∧
      ∃ root appinfo runId off,
        SentQuery query.bytes agentRunId systemHostName info root appinfo runId off := by
  unfold querySize at hsize ⊢
  set texts := ((appTexts systemHostName info).map textCost).sum with htexts
  have hcreate : (nrFlatbuffersCreate malloc 0).bytes.length = 0 := rfl
  obtain ⟨off, f1, hrun1, _, b1, ⟨h1, hoffsets⟩, hview1⟩ := reaches_prependAppTexts hmalloc
    (ready_create malloc) systemHostName info (by omega)
  have b1 : f1.bytes.length ≤ 0 + texts := b1
  obtain ⟨appinfo, f2, hrun2, _, b2, ⟨h2, l2, _, _, hlong⟩, hview2⟩ := reaches_object hmalloc h1
    appNumFields [12, 11, 10, 9, 8, 7, 6, 5, 4, 3, 2, 1, 0] 98 (by decide) rfl (by decide)
    (by decide) rfl (by decide) (hoffsets info.highSecurity)
    (show f1.bytes.length + 170 < 2 ^ 30 by omega)
  have b2 : f2.bytes.length ≤ f1.bytes.length + 170 := b2
  have hlong : 2 * 13 + 4 ≤ f2.bytes.length := hlong
  obtain ⟨runId, f3, hrun3, a3, b3, ⟨h3, l3⟩, hview3⟩ := reaches_prependString hmalloc h2
    (knownRunId agentRunId) (by omega)
  have a3 : f2.bytes.length ≤ f3.bytes.length := a3
  have b3 : f3.bytes.length ≤ f2.bytes.length + textCost (knownRunId agentRunId) := b3
  obtain ⟨_, query, hrun4, _, b4, ⟨root, hroot, hmessage⟩, hview4⟩ := reaches_finishMessage hmalloc
    h3 messageBodyApp (l2.trans a3) l3 (by omega)
  have b4 : query.bytes.length ≤ f3.bytes.length + 70 := b4
  have hrun : appinfoQuery malloc agentRunId systemHostName info (nrFlatbuffersCreate malloc 0) =
      some ((), query) := by
    show (prependAppTexts malloc systemHostName info _).bind _ = _
    rw [hrun1]
    show (object malloc appNumFields _ f1).bind _ = _
    rw [hrun2]
    show (prependString malloc _ f2).bind _ = _
    rw [hrun3]
    exact hrun4
  have hsuffix3 := (hview4 query.bytes List.suffix_rfl).1
  have hsuffix2 := hview3 query.bytes hsuffix3
  have hsuffix1 := hview2 query.bytes hsuffix2.1
  have htexts := (hview1 query.bytes hsuffix1.1).2
  refine ⟨query, ?_, by omega, root, appinfo, runId, off, ?_, hmessage, hsuffix1.2, htexts,
    hsuffix2.2⟩
  · unfold nrAppinfoCreateQuery
    rw [hrun]
    rfl
  · unfold minFlatbufferSize
    omega

end AxiomDaemon.Axiom

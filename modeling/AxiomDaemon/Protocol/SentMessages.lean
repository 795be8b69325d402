import AxiomDaemon.Axiom.AppinfoQuery
import AxiomDaemon.Daemon.Commands
import AxiomDaemon.Lib.FlatbuffersRuntime

/-!
What the daemon reads of the messages that an agent has written.
-/

namespace AxiomDaemon.Protocol

open AxiomDaemon.Lib AxiomDaemon.Lib.Flatbuffers AxiomDaemon.Util AxiomDaemon.Daemon

/-! ### Fields -/

section Fields

variable {buf : Bytes} (hbuf : buf.length < 2 ^ 31) {place : ℕ}
  {fields : ℕ → Option Flatbuffers.Field} (h : (Piece.table fields).Holds buf place)
  (slot : UInt16) (i : ℕ) (hslot : slot.toNat = 2 * (2 + i))

include hbuf h hslot

/-- A text that was left out is `nil`. -/
theorem text_sent {off : ℕ} {s : Option Bytes} (hfield : fields i = refField off)
    (htext : TextIs buf off s) : (tableFrom buf place).text slot = some s := by
  cases s with
  | none =>
      obtain rfl : off = 0 := htext
      exact field_absent hbuf h hslot hfield none _
  | some s =>
      have hpiece : (Piece.text s).Holds buf off := htext
      have hle := At.length_le hpiece
      rw [List.length_append, length_uintLE] at hle
      have hne : off ≠ 0 := by omega
      unfold refField at hfield
      rw [if_pos hne] at hfield
      exact text_present hbuf h hslot hfield hpiece

theorem number_sent (ty : ScalarType) (x : ty.Value) (hfield : fields i = numberField ty x 0)
    {α : Type} {default value : α} {read : Bytes → Option α}
    (hread : ty.differs x 0 = true → ∀ buf, readUintLE ty.size buf = some x.toNat →
      read buf = some value) (hdefault : ty.differs x 0 = false → default = value) :
    (tableFrom buf place).number slot default read = some value := by
  unfold numberField at hfield
  cases hdiffers : ty.differs x 0 with
  | true =>
      rw [if_pos hdiffers] at hfield
      exact number_present hbuf h hslot x.isLt hfield (hread hdiffers)
  | false =>
      rw [hdiffers] at hfield
      rw [← hdefault hdiffers]
      exact field_absent hbuf h hslot hfield default _

theorem flag_sent {x : Bool}
    (hfield : fields i = numberField .u8 (if x then 1 else 0) 0) :
    (tableFrom buf place).number slot 0 getUint8 = some (if x then 1 else 0) := by
  cases x with
  | true => exact number_present hbuf h hslot (by decide) hfield fun _ => getUint8_of_readUintLE
  | false => exact field_absent hbuf h hslot hfield 0 _

end Fields

/-! ### Messages -/

section Messages

variable {buf : Bytes} {root : ℕ} {fields : ℕ → Option Flatbuffers.Field}
  (h : Axiom.MessageAt buf root fields) (hlong : Axiom.minFlatbufferSize < root)

include h

theorem readUintLE_root (hbuf : buf.length < 2 ^ 31) :
    readUintLE 4 buf = some (buf.length - root) := by
  have hread := h.ref.2.readUintLE (by omega)
  rw [Nat.sub_self, List.drop_zero] at hread
  exact hread

theorem getRootAsMessage_sent (hbuf : buf.length < 2 ^ 31) :
    getRootAsMessage buf 0 = some (tableFrom buf root) := by
  have hslice : sliceFrom buf 0 = some buf := if_pos (Nat.zero_le buf.length)
  have hword := getUint32_of_readUintLE (readUintLE_root h hbuf)
  unfold getRootAsMessage
  simp only [hslice, hword, Option.bind_eq_bind, Option.bind_some, UInt32.add_zero]
  rfl

include hlong

theorem nrCommandIsFlatbufferInvalid_sent {query : Flatbuffer} (hquery : query.bytes = buf)
    (hbuf : buf.length < 2 ^ 31) :
    Axiom.nrCommandIsFlatbufferInvalid query (nrFlatbuffersLen query) = some false := by
  have hle := h.table.le_length
  have hread : nrFlatbuffersReadUoffset buf 0 = some (buf.length - root) := by
    unfold nrFlatbuffersReadUoffset
    rw [List.drop_zero]
    exact readUintLE_root h hbuf
  unfold Axiom.nrCommandIsFlatbufferInvalid nrFlatbuffersLen
  simp only [hquery, hread, Option.bind_eq_bind, Option.bind_some]
  unfold Axiom.minFlatbufferSize at hlong ⊢
  have hsmall : ¬ (buf.length + 2 ^ 64 - 20) % 2 ^ 64 ≤ buf.length - root := by omega
  rw [decide_eq_false hsmall]

/-- The daemon looks into the messages that the agent has written. -/
theorem processBinary_sent (hbuf : buf.length < 2 ^ 31) :
    processBinary buf = processMessage buf (tableFrom buf root) := by
  have hle := h.table.le_length
  unfold Axiom.minFlatbufferSize at hlong
  have hword : getUint32 buf = some (UInt32.ofNat (buf.length - root)) :=
    getUint32_of_readUintLE (readUintLE_root h hbuf)
  have hnat : (UInt32.ofNat (buf.length - root)).toNat = buf.length - root := by
    rw [UInt32.toNat_ofNat']
    omega
  have hsmall : ¬ (buf.length : ℤ) - Daemon.minFlatbufferSize ≤
      (UInt32.ofNat (buf.length - root)).toNat := by
    rw [hnat]
    unfold Daemon.minFlatbufferSize
    omega
  unfold processBinary
  rw [if_neg (by omega), hword]
  simp only [Option.bind_eq_bind, Option.bind_some, if_neg hsmall,
    getRootAsMessage_sent h hbuf]

end Messages

/-! ### Queries for applications -/

/-- What an agent sends of an application. -/
def sentAppInfo (systemHostName : Option Bytes) (info : Axiom.NrAppInfo NrObj) : FlatAppInfo where
  supportedSecurityPolicies := some (nroToJson info.supportedSecurityPolicies)
  license := goString info.license
  appname := goString info.appname
  agentLanguage := goString info.lang
  agentVersion := goString info.version
  redirectCollector := goString info.redirectCollector
  environment := Axiom.environmentText info
  labels := Axiom.labelsText info
  hostname := goString systemHostName
  hostDisplayName := goString info.hostDisplayName
  securityPolicyToken := goString info.securityPoliciesToken
  settings := Axiom.settingsText info
  highSecurity := info.highSecurity ≠ 0

theorem unmarshalAppInfo_sent {buf : Bytes} (hbuf : buf.length < 2 ^ 31) {appinfo : ℕ}
    {off : Axiom.AppOffsets} {systemHostName : Option Bytes} {info : Axiom.NrAppInfo NrObj}
    (h : (Piece.table (fieldsOf
      ((Axiom.appFields info.highSecurity off).map FieldWrite.entry).reverse)).Holds buf appinfo)
    (htexts : Axiom.AppTexts buf off systemHostName info) :
    unmarshalAppInfo (tableFrom buf appinfo) = some (sentAppInfo systemHostName info) := by
  have hlicense := text_sent hbuf h 4 0 rfl rfl htexts.license
  have happname := text_sent hbuf h 6 1 rfl rfl htexts.appname
  have hlang := text_sent hbuf h 8 2 rfl rfl htexts.agentLang
  have hversion := text_sent hbuf h 10 3 rfl rfl htexts.agentVersion
  have hsecurity := flag_sent hbuf h 12 4 (x := info.highSecurity ≠ 0) rfl rfl
  have hcollector := text_sent hbuf h 14 5 rfl rfl htexts.collector
  have henv := text_sent hbuf h 16 6 rfl rfl htexts.env
  have hsettings := text_sent hbuf h 18 7 rfl rfl htexts.settings
  have hlabels := text_sent hbuf h 20 8 rfl rfl htexts.labels
  have hdisplay := text_sent hbuf h 22 9 rfl rfl htexts.displayHost
  have htoken := text_sent hbuf h 24 10 rfl rfl htexts.securityPolicyToken
  have hpolicies := text_sent hbuf h 26 11 rfl rfl
    htexts.supportedSecurityPolicies
  have hhost := text_sent hbuf h 28 12 rfl rfl htexts.hostName
  unfold unmarshalAppInfo App.supportedSecurityPolicies App.license App.appName App.agentLanguage
    App.agentVersion App.redirectCollector App.environment App.labels App.host App.displayHost
    App.securityPolicyToken App.settings App.highSecurity
  simp only [hlicense, happname, hlang, hversion, hsecurity, hcollector, henv, hsettings, hlabels,
    hdisplay, htoken, hpolicies, hhost, Option.bind_eq_bind, Option.bind_some]
  unfold sentAppInfo
  by_cases hsecure : info.highSecurity ≠ 0
  · simp [hsecure]
  · simp [hsecure]

/-- An application with a label. -/
def labelledApp : Axiom.NrAppInfo NrObj where
  highSecurity := 1
  license := some (ascii "license")
  settings := none
  environment := some (.hash [])
  labels := some (.hash [(ascii "team", .string (ascii "a"))])
  hostDisplayName := none
  lang := some (ascii "c")
  version := some (ascii "1.0")
  appname := some (ascii "app")
  redirectCollector := some (ascii "collector")
  securityPoliciesToken := some []
  supportedSecurityPolicies := none

end AxiomDaemon.Protocol

import AxiomDaemon.Axiom.DistributedTrace
import AxiomDaemon.Util.ObjectFields

/-!
A distributed trace payload from the service that makes it to the one that
accepts it. The time goes out as a `long`; the JSON reader makes an `int` of
a small one, which is not taken for a time. An id that is empty arrives as
none.
-/

namespace AxiomDaemon.Axiom

open AxiomDaemon.Lib AxiomDaemon.Util ObjectJson

/-- The least number of milliseconds that is read as a `long`. -/
abbrev leastLong : ℕ := 2147483647

/-- The claims on a sender: account, application and trace are told, and one of
the two ids is. -/
structure SenderOk (payload : NrDistributedTracePayload) (metadata : NrDistributedTrace) :
    Prop where
  metadata_eq : payload.metadata = some metadata
  accountId : ∃ s, metadata.accountId = some s ∧ s ≠ [] ∧ IsBmpString s
  appId : ∃ s, metadata.appId = some s ∧ s ≠ [] ∧ IsBmpString s
  traceId : ∃ s, metadata.traceId = some s ∧ s ≠ [] ∧ IsBmpString s
  parentId : ∀ s, payload.parentId = some s → IsBmpString s
  txnId : ∀ s, metadata.txnId = some s → IsBmpString s
  id : (∃ s, payload.parentId = some s ∧ s ≠ []) ∨ ∃ s, metadata.txnId = some s ∧ s ≠ []
  timestamp : payload.timestamp < 2 ^ 64

/-- What arrives of a payload: everything the sender said, and the time in whole
milliseconds. -/
structure Arrives (payload : NrDistributedTracePayload) (metadata : NrDistributedTrace)
    (dt : NrDistributedTrace) : Prop where
  type : dt.inbound.type = some (ascii "App")
  accountId : dt.inbound.accountId = metadata.accountId
  appId : dt.inbound.appId = metadata.appId
  parentId : dt.inbound.guid = payload.parentId
  txnId : dt.inbound.txnId = metadata.txnId
  traceId : dt.traceId = metadata.traceId
  sampled : dt.sampled = metadata.sampled
  timestamp : dt.inbound.timestamp = payload.timestamp / 1000 * 1000

/-- The text is made, converted and accepted, and says what the sender did. -/
def PayloadArrives (unset : Bytes → ℕ) (payload : NrDistributedTracePayload)
    (metadata receiver : NrDistributedTrace) (transportType : Option Bytes) : Prop :=
  ∃ text objPayload, nrDistributedTracePayloadAsText payload = some text ∧
    nrDistributedTraceConvertPayloadToObject unset (some text) = .ok objPayload ∧
    Arrives payload metadata
      (nrDistributedTraceAcceptInboundPayload receiver objPayload transportType)

/-! ### The fields of a payload -/

def stringValue (s : Option Bytes) : Option NrObj := s.map .string

/-- The fields of the data, with the values that the reader changes as they are
given. -/
def dataFields (metadata : NrDistributedTrace) (parentId : Option Bytes) (pr ti : NrObj)
    (tk : Option Bytes) : List Field :=
  [(ascii "ty", some (.string (ascii "App"))), (ascii "ac", stringValue metadata.accountId),
    (ascii "ap", stringValue metadata.appId), (ascii "id", stringValue parentId),
    (ascii "tr", stringValue metadata.traceId), (ascii "tx", stringValue metadata.txnId),
    (ascii "pr", some pr), (ascii "sa", some (.boolean metadata.sampled)), (ascii "ti", some ti),
    (ascii "tk", stringValue tk)]

def dataKeys : List Bytes :=
  [ascii "ty", ascii "ac", ascii "ap", ascii "id", ascii "tr", ascii "tx", ascii "pr", ascii "sa",
    ascii "ti", ascii "tk"]

theorem keys_dataFields (metadata : NrDistributedTrace) (parentId : Option Bytes) (pr ti : NrObj)
    (tk : Option Bytes) :
    (dataFields metadata parentId pr ti tk).map Prod.fst = dataKeys := rfl

theorem dataKeys_nodup : dataKeys.Nodup := by decide

theorem dataKeys_ne_nil : ∀ key ∈ dataKeys, key ≠ [] := by decide

theorem dataKeys_ascii : ∀ key ∈ dataKeys, key.all (fun b => 0 < b.toNat && b.toNat < 0x80) := by
  decide

/-- The trusted key that is sent. -/
def sentTrustedKey (metadata : NrDistributedTrace) : Option Bytes :=
  if metadata.trustedKey = metadata.accountId then none else metadata.trustedKey

theorem addFieldIfSet_eq (obj : NrObj) (key : Bytes) (value : Option Bytes) :
    addFieldIfSet obj key value = setField obj (key, stringValue value) := by
  cases value <;> rfl

theorem payloadData_eq_setFields (metadata : NrDistributedTrace) (parentId : Option Bytes)
    (timestamp : ℕ) :
    payloadData metadata parentId timestamp =
      setFields (.hash []) (dataFields metadata parentId (.double metadata.priority)
        (.long (timestamp / 1000 : ℕ)) (sentTrustedKey metadata)) := by
  have hlast : ∀ data, (if metadata.trustedKey = metadata.accountId then data
      else addFieldIfSet data (ascii "tk") metadata.trustedKey) =
        setField data (ascii "tk", stringValue (sentTrustedKey metadata)) := by
    intro data
    rw [sentTrustedKey]
    split_ifs
    · rfl
    · exact addFieldIfSet_eq data _ _
  simp only [payloadData]
  rw [hlast]
  simp only [addFieldIfSet_eq]
  rfl

theorem payloadData_eq (metadata : NrDistributedTrace) (parentId : Option Bytes) (timestamp : ℕ) :
    payloadData metadata parentId timestamp =
      .hash (fieldEntries (dataFields metadata parentId (.double metadata.priority)
        (.long (timestamp / 1000 : ℕ)) (sentTrustedKey metadata))) := by
  have hne : ∀ field ∈ dataFields metadata parentId (.double metadata.priority)
      (.long (timestamp / 1000 : ℕ)) (sentTrustedKey metadata), field.1 ≠ [] :=
    fun field hfield => dataKeys_ne_nil field.1 (List.mem_map.mpr ⟨field, hfield, rfl⟩)
  rw [payloadData_eq_setFields]
  exact setFields_nil hne dataKeys_nodup

/-- The version and the data of a payload. -/
def payloadFields (version data : NrObj) : List Field :=
  [(ascii "v", some version), (ascii "d", some data)]

theorem payloadKeys_nodup : [ascii "v", ascii "d"].Nodup := by decide

theorem payloadKeys_ne_nil : ∀ key ∈ [ascii "v", ascii "d"], key ≠ [] := by decide

theorem payloadKeys_ascii :
    ∀ key ∈ [ascii "v", ascii "d"], key.all (fun b => 0 < b.toNat && b.toNat < 0x80) := by
  decide

theorem payloadFields_nodup (version data : NrObj) :
    ((payloadFields version data).map Prod.fst).Nodup := payloadKeys_nodup

theorem dataFields_nodup (metadata : NrDistributedTrace) (parentId : Option Bytes) (pr ti : NrObj)
    (tk : Option Bytes) : ((dataFields metadata parentId pr ti tk).map Prod.fst).Nodup :=
  dataKeys_nodup

theorem setFields_payload (version data : NrObj) :
    setFields (.hash []) (payloadFields version data) =
      .hash (fieldEntries (payloadFields version data)) := by
  have hne : ∀ field ∈ payloadFields version data, field.1 ≠ [] :=
    fun field hfield => payloadKeys_ne_nil field.1 (List.mem_map.mpr ⟨field, hfield, rfl⟩)
  exact setFields_nil hne (payloadFields_nodup version data)

def versionObject : NrObj := .array [.int 0, .int 1]

theorem payloadAsText_eq {payload : NrDistributedTracePayload} {metadata : NrDistributedTrace}
    (h : SenderOk payload metadata) :
    nrDistributedTracePayloadAsText payload = some (nroToJson (some (.hash (fieldEntries
      (payloadFields versionObject (.hash (fieldEntries (dataFields metadata payload.parentId
        (.double metadata.priority) (.long (payload.timestamp / 1000 : ℕ))
        (sentTrustedKey metadata)))))))))  := by
  have hid : (payload.parentId.isNone && metadata.txnId.isNone) = false := by
    rcases h.id with ⟨s, hs, -⟩ | ⟨s, hs, -⟩ <;> simp [hs]
  rw [nrDistributedTracePayloadAsText, h.metadata_eq]
  simp only [hid, payloadData_eq]
  rw [← setFields_payload]
  rfl

theorem isBmpString_ascii {s : Bytes} (h : s.all (fun b => 0 < b.toNat && b.toNat < 0x80)) :
    IsBmpString s := by
  have hall : ∀ b ∈ s, 0 < b.toNat ∧ b.toNat < 0x80 := by simpa using h
  refine ⟨⟨s.map UInt8.toNat, utf16_of_ascii fun b hb => (hall b hb).2, ?_⟩, ?_⟩
  · intro u hu
    obtain ⟨b, hb, rfl⟩ := List.mem_map.mp hu
    have := (hall b hb).2
    omega
  · intro hzero
    exact absurd (hall 0 hzero).1 (by decide)

/-! ### Reading the fields -/

section

variable (unset : Bytes → ℕ)

theorem fieldReadsAs_string {key : Bytes} (hkey : key ∈ dataKeys) {s : Option Bytes}
    (h : ∀ t, s = some t → IsBmpString t) :
    FieldReadsAs unset (key, stringValue s) (key, stringValue s) := by
  refine ⟨rfl, isBmpString_ascii (dataKeys_ascii key hkey), dataKeys_ne_nil key hkey, ?_⟩
  cases s with
  | none => exact Option.Rel.none
  | some t => exact Option.Rel.some (readsAs_string unset (h t rfl))

theorem fieldReadsAs_some {key : Bytes} (hkey : key ∈ dataKeys) {obj obj' : NrObj}
    (h : ReadsAs unset obj obj') : FieldReadsAs unset (key, some obj) (key, some obj') :=
  ⟨rfl, isBmpString_ascii (dataKeys_ascii key hkey), dataKeys_ne_nil key hkey, Option.Rel.some h⟩

theorem exists_fieldReadsAs_trustedKey {key : Bytes} (hkey : key ∈ dataKeys) (s : Option Bytes) :
    ∃ s', FieldReadsAs unset (key, stringValue s) (key, stringValue s') := by
  cases s with
  | none => exact ⟨none, fieldReadsAs_string unset hkey (by simp)⟩
  | some t =>
      obtain ⟨t', ht'⟩ := exists_readsAs_string unset t
      exact ⟨some t', fieldReadsAs_some unset hkey ht'⟩

theorem leadingFields_readAs {payload : NrDistributedTracePayload} {metadata : NrDistributedTrace}
    (h : SenderOk payload metadata) (pr ti : NrObj) (tk : Option Bytes) :
    List.Forall₂ (FieldReadsAs unset)
      ((dataFields metadata payload.parentId pr ti tk).take 6)
      ((dataFields metadata payload.parentId pr ti tk).take 6) := by
  have hset : ∀ {s : Option Bytes}, (∃ t, s = some t ∧ t ≠ [] ∧ IsBmpString t) →
      ∀ t, s = some t → IsBmpString t := by
    rintro s ⟨t, rfl, -, ht⟩ t' ht'
    exact Option.some.inj ht' ▸ ht
  refine .cons ?_ (.cons ?_ (.cons ?_ (.cons ?_ (.cons ?_ (.cons ?_ .nil)))))
  · exact fieldReadsAs_some unset (by simp [dataKeys])
      (readsAs_string unset (isBmpString_ascii (by decide)))
  · exact fieldReadsAs_string unset (by simp [dataKeys]) (hset h.accountId)
  · exact fieldReadsAs_string unset (by simp [dataKeys]) (hset h.appId)
  · exact fieldReadsAs_string unset (by simp [dataKeys]) h.parentId
  · exact fieldReadsAs_string unset (by simp [dataKeys]) (hset h.traceId)
  · exact fieldReadsAs_string unset (by simp [dataKeys]) h.txnId

/-- With a priority that is a number the data are read, the time as an integer of
the width that it needs. -/
theorem exists_dataFields_readAs {payload : NrDistributedTracePayload}
    {metadata : NrDistributedTrace} (h : SenderOk payload metadata)
    (hfinite : metadata.priority.isFinite = true) :
    ∃ pr tk, List.Forall₂ (FieldReadsAs unset)
      (dataFields metadata payload.parentId (.double metadata.priority)
        (.long (payload.timestamp / 1000 : ℕ)) (sentTrustedKey metadata))
      (dataFields metadata payload.parentId (.double pr)
        (readInteger (payload.timestamp / 1000 : ℕ)) tk) := by
  obtain ⟨d, hd⟩ := Double.exists_finite hfinite
  obtain ⟨pr, hpr⟩ := exists_readsAs_double unset d
  obtain ⟨tk, htk⟩ := exists_fieldReadsAs_trustedKey unset
    (show ascii "tk" ∈ dataKeys by simp [dataKeys]) (sentTrustedKey metadata)
  refine ⟨pr, tk, ?_⟩
  have hlead := leadingFields_readAs unset h (.double metadata.priority)
    (.long (payload.timestamp / 1000 : ℕ)) (sentTrustedKey metadata)
  have htimestamp := h.timestamp
  refine List.rel_append hlead (.cons ?_ (.cons ?_ (.cons ?_ (.cons htk .nil))))
  · rw [hd]
    exact fieldReadsAs_some unset (by simp [dataKeys]) hpr
  · exact fieldReadsAs_some unset (by simp [dataKeys]) (readsAs_boolean unset metadata.sampled)
  · exact fieldReadsAs_some unset (by simp [dataKeys])
      (readsAs_integer unset (by rw [recursiveObjToJson]) (by omega) (by omega))

theorem readsAs_version : ReadsAs unset versionObject versionObject := by
  refine readsAs_array unset (.cons ?_ (.cons ?_ .nil))
  · exact readsAs_integer unset (i := 0) (by rw [recursiveObjToJson]) (by decide) (by decide)
  · exact readsAs_integer unset (i := 1) (by rw [recursiveObjToJson]) (by decide) (by decide)

theorem versionField_readsAs :
    FieldReadsAs unset (ascii "v", some versionObject) (ascii "v", some versionObject) :=
  ⟨rfl, isBmpString_ascii (payloadKeys_ascii _ (by simp)), payloadKeys_ne_nil _ (by simp),
    Option.Rel.some (readsAs_version unset)⟩

theorem readsAs_payload {data data' : NrObj} (h : ReadsAs unset data data') :
    ReadsAs unset (.hash (fieldEntries (payloadFields versionObject data)))
      (.hash (fieldEntries (payloadFields versionObject data'))) := by
  refine readsAs_fields (.cons (versionField_readsAs unset) (.cons ?_ .nil)) payloadKeys_nodup
  exact ⟨rfl, isBmpString_ascii (payloadKeys_ascii _ (by simp)), payloadKeys_ne_nil _ (by simp),
    Option.Rel.some h⟩

theorem unreadable_payload {payload : NrDistributedTracePayload} {metadata : NrDistributedTrace}
    (h : SenderOk payload metadata) (hfinite : metadata.priority.isFinite = false) :
    Unreadable unset (.hash (fieldEntries (payloadFields versionObject (.hash (fieldEntries
      (dataFields metadata payload.parentId (.double metadata.priority)
        (.long (payload.timestamp / 1000 : ℕ)) (sentTrustedKey metadata))))))) := by
  have hdata : Unreadable unset (.hash (fieldEntries (dataFields metadata payload.parentId
      (.double metadata.priority) (.long (payload.timestamp / 1000 : ℕ))
      (sentTrustedKey metadata)))) := by
    have hlead := entriesReadAs (leadingFields_readAs unset h (.double metadata.priority)
      (.long (payload.timestamp / 1000 : ℕ)) (sentTrustedKey metadata))
    have hpr := unreadable_hash unset hlead
      (isBmpString_ascii (dataKeys_ascii (ascii "pr") (by simp [dataKeys])))
      (double_starts metadata.priority) (unreadable_double unset hfinite)
      (fieldEntries ((dataFields metadata payload.parentId (.double metadata.priority)
        (.long (payload.timestamp / 1000 : ℕ)) (sentTrustedKey metadata)).drop 7))
    rw [← fieldEntries_cons_some, ← fieldEntries_append] at hpr
    exact hpr
  have hversion := entriesReadAs (.cons (versionField_readsAs unset) .nil)
  refine unreadable_hash unset hversion
    (isBmpString_ascii (payloadKeys_ascii (ascii "d") (by simp))) ?_ hdata []
  rw [recursiveObjToJson]
  exact ⟨Json.lbrace, _, rfl, by decide⟩

end

/-! ### Accepting what was read -/

/-- The payload as the receiver has it. -/
def receivedPayload (metadata : NrDistributedTrace) (parentId : Option Bytes) (pr ti : NrObj)
    (tk : Option Bytes) : NrObj :=
  .hash (fieldEntries (payloadFields versionObject
    (.hash (fieldEntries (dataFields metadata parentId pr ti tk)))))

section

variable (metadata : NrDistributedTrace) (parentId : Option Bytes) (pr ti : NrObj)
  (tk : Option Bytes)

theorem getHashArray_receivedPayload :
    nroGetHashArray (some (receivedPayload metadata parentId pr ti tk)) (ascii "v") =
      some versionObject := by
  have hfind := nroGetHashValue_fieldEntries
    (payloadFields_nodup versionObject (.hash (fieldEntries (dataFields metadata parentId pr ti tk))))
    (payloadKeys_ne_nil (ascii "v") (by simp)) List.mem_cons_self
  rw [nroGetHashArray, receivedPayload, hfind]
  rfl

theorem getHashHash_receivedPayload :
    nroGetHashHash (some (receivedPayload metadata parentId pr ti tk)) (ascii "d") =
      some (.hash (fieldEntries (dataFields metadata parentId pr ti tk))) := by
  have hfind := nroGetHashValue_fieldEntries
    (payloadFields_nodup versionObject (.hash (fieldEntries (dataFields metadata parentId pr ti tk))))
    (payloadKeys_ne_nil (ascii "d") (by simp)) (List.mem_cons_of_mem _ List.mem_cons_self)
  rw [nroGetHashHash, receivedPayload, hfind]

theorem getHashValue_data {key : Bytes} {value : Option NrObj}
    (h : (key, value) ∈ dataFields metadata parentId pr ti tk) :
    nroGetHashValue (some (.hash (fieldEntries (dataFields metadata parentId pr ti tk)))) key =
      value := by
  have hkey : key ∈ dataKeys := by
    rw [← keys_dataFields metadata parentId pr ti tk]
    exact List.mem_map.mpr ⟨_, h, rfl⟩
  exact nroGetHashValue_fieldEntries (dataFields_nodup metadata parentId pr ti tk)
    (dataKeys_ne_nil key hkey) h

theorem getHashString_data {key : Bytes} {s : Option Bytes}
    (h : (key, stringValue s) ∈ dataFields metadata parentId pr ti tk) :
    nroGetHashString (some (.hash (fieldEntries (dataFields metadata parentId pr ti tk)))) key =
      s := by
  rw [nroGetHashString, getHashValue_data metadata parentId pr ti tk h]
  cases s <;> rfl

/-- The time is taken if it is a `long`. -/
theorem getHashLong_data :
    nroGetHashLong (some (.hash (fieldEntries (dataFields metadata parentId pr ti tk))))
      (ascii "ti") = nroGetLong (some ti) := by
  have hmem : (ascii "ti", some ti) ∈ dataFields metadata parentId pr ti tk := by
    simp [dataFields]
  rw [nroGetHashLong, getHashValue_data metadata parentId pr ti tk hmem]

theorem getHashString_receivedPayload :
    let data := some (.hash (fieldEntries (dataFields metadata parentId pr ti tk)))
    nroGetHashString data (ascii "ty") = some (ascii "App") ∧
      nroGetHashString data (ascii "ac") = metadata.accountId ∧
      nroGetHashString data (ascii "ap") = metadata.appId ∧
      nroGetHashString data (ascii "id") = parentId ∧
      nroGetHashString data (ascii "tr") = metadata.traceId ∧
      nroGetHashString data (ascii "tx") = metadata.txnId ∧
      nroGetHashString data (ascii "ti") = nroGetString (some ti) := by
  have hfind : ∀ {key : Bytes} {s : Option Bytes},
      (key, stringValue s) ∈ dataFields metadata parentId pr ti tk →
      nroGetHashString (some (.hash (fieldEntries (dataFields metadata parentId pr ti tk)))) key =
        s := getHashString_data metadata parentId pr ti tk
  have hmem : (ascii "ti", some ti) ∈ dataFields metadata parentId pr ti tk := by
    simp [dataFields]
  have hti : nroGetHashString
      (some (.hash (fieldEntries (dataFields metadata parentId pr ti tk)))) (ascii "ti") =
        nroGetString (some ti) := by
    rw [nroGetHashString, getHashValue_data metadata parentId pr ti tk hmem]
  refine ⟨hfind ?_, hfind ?_, hfind ?_, hfind ?_, hfind ?_, hfind ?_, hti⟩
  · exact List.mem_cons_self
  all_goals simp [dataFields]

end

theorem convert_receivedPayload {unset : Bytes → ℕ} {text : Bytes} (hne : text ≠ [])
    {payload : NrDistributedTracePayload} {metadata : NrDistributedTrace}
    (h : SenderOk payload metadata) {pr ti : NrObj} {tk : Option Bytes}
    (hread : nroCreateFromJson unset text =
      some (receivedPayload metadata payload.parentId pr ti tk))
    (hti : nroGetString (some ti) = none) :
    nrDistributedTraceConvertPayloadToObject unset (some text) =
      if (nroGetLong (some ti)).isSome then
        .ok (receivedPayload metadata payload.parentId pr ti tk)
      else .error acceptParseException := by
  obtain ⟨hty, hac, hap, hid, htr, htx, hti'⟩ :=
    getHashString_receivedPayload metadata payload.parentId pr ti tk
  have hlong := getHashLong_data metadata payload.parentId pr ti tk
  obtain ⟨account, haccount, -⟩ := h.accountId
  obtain ⟨app, happ, -⟩ := h.appId
  obtain ⟨trace, htrace, -⟩ := h.traceId
  have hids : (metadata.txnId.isNone && payload.parentId.isNone) = false := by
    rcases h.id with ⟨s, hs, -⟩ | ⟨s, hs, -⟩ <;> simp [hs]
  have hversion : nroGetArrayInt (some versionObject) 1 = some 0 := rfl
  have hrequired : requiredDataFields.all (hasField (some (.hash (fieldEntries
      (dataFields metadata payload.parentId pr ti tk))))) = (nroGetLong (some ti)).isSome := by
    simp only [requiredDataFields, List.all_cons, List.all_nil, hasField, hty, hac, hap, htr, hti',
      hti, hlong, haccount, happ, htrace, Option.isSome_some, Option.isSome_none, Bool.true_or,
      Bool.false_or, Bool.true_and, Bool.and_true]
  rw [nrDistributedTraceConvertPayloadToObject]
  simp only [if_neg hne, hread, getHashArray_receivedPayload, getHashHash_receivedPayload,
    Option.isNone_some, hversion, Option.getD_some, htx, hid, hids, hrequired]
  rfl

theorem accept_receivedPayload (receiver metadata : NrDistributedTrace)
    (parentId : Option Bytes) (pr ti : NrObj) (tk transportType : Option Bytes) :
    let dt := nrDistributedTraceAcceptInboundPayload receiver
      (receivedPayload metadata parentId pr ti tk) transportType
    dt.inbound.type = some (ascii "App") ∧ dt.inbound.accountId = setDtField metadata.accountId ∧
      dt.inbound.appId = setDtField metadata.appId ∧ dt.inbound.guid = setDtField parentId ∧
      dt.inbound.txnId = setDtField metadata.txnId ∧ dt.traceId = setDtField metadata.traceId ∧
      dt.sampled = metadata.sampled ∧
      dt.inbound.timestamp = inboundTimestamp (nroGetLong (some ti)) := by
  obtain ⟨hty, hac, hap, hid, htr, htx, -⟩ :=
    getHashString_receivedPayload metadata parentId pr ti tk
  have hlong := getHashLong_data metadata parentId pr ti tk
  have hmem : (ascii "sa", some (.boolean metadata.sampled)) ∈
      dataFields metadata parentId pr ti tk := by
    simp [dataFields]
  have hsa : nroGetHashBoolean (some (.hash (fieldEntries
      (dataFields metadata parentId pr ti tk)))) (ascii "sa") = some metadata.sampled := by
    rw [nroGetHashBoolean, getHashValue_data metadata parentId pr ti tk hmem]
    rfl
  have happ : setDtField (some (ascii "App")) = some (ascii "App") := by
    rw [setDtField]
    exact if_neg (by decide)
  simp only [nrDistributedTraceAcceptInboundPayload, nrDistributedTraceInboundSetTransportType,
    getHashHash_receivedPayload, hty, hac, hap, hid, htr, htx, hsa, hlong, happ,
    Option.getD_some]
  exact ⟨trivial, trivial, trivial, trivial, trivial, trivial, trivial, trivial⟩

theorem setDtField_eq_self_iff (s : Option Bytes) : setDtField s = s ↔ s ≠ some [] := by
  cases s with
  | none => simp [setDtField]
  | some t =>
      by_cases ht : t = []
      · simp [setDtField, ht]
      · simp [setDtField, ht]

theorem nroGetLong_readInteger (n : ℕ) :
    nroGetLong (some (readInteger n)) = if leastLong ≤ n then some (n : ℤ) else none := by
  have hleast : leastLong = 2147483647 := rfl
  rw [readInteger]
  by_cases h : leastLong ≤ n
  · rw [if_pos h, if_pos (Or.inr (by omega))]
    rfl
  · rw [if_neg h, if_neg (by omega)]
    rfl

theorem nroGetString_readInteger (i : ℤ) : nroGetString (some (readInteger i)) = none := by
  rw [readInteger]
  split_ifs <;> rfl

theorem inboundTimestamp_eq {timestamp : ℕ} (h : timestamp < 2 ^ 64) :
    inboundTimestamp (some ((timestamp / 1000 : ℕ) : ℤ)) = timestamp / 1000 * 1000 := by
  have hcast : ((timestamp / 1000 : ℕ) : ℤ) * 1000 = ((timestamp / 1000 * 1000 : ℕ) : ℤ) := by
    push_cast
    rfl
  have hle : timestamp / 1000 * 1000 ≤ timestamp := Nat.div_mul_le_self timestamp 1000
  have hlt : ((timestamp / 1000 * 1000 : ℕ) : ℤ) < 2 ^ 64 := by
    exact_mod_cast lt_of_le_of_lt hle h
  rw [inboundTimestamp, Option.getD_some, hcast, Int.emod_eq_of_lt (Int.natCast_nonneg _) hlt,
    Int.toNat_natCast]

/-- What the receiver makes of the text, if the priority is a number. -/
theorem convert_payloadAsText (unset : Bytes → ℕ) {payload : NrDistributedTracePayload}
    {metadata : NrDistributedTrace} (h : SenderOk payload metadata)
    (hfinite : metadata.priority.isFinite = true) :
    ∃ text pr tk, nrDistributedTracePayloadAsText payload = some text ∧
      nrDistributedTraceConvertPayloadToObject unset (some text) =
        if leastLong ≤ payload.timestamp / 1000 then
          .ok (receivedPayload metadata payload.parentId (.double pr)
            (readInteger (payload.timestamp / 1000 : ℕ)) tk)
        else .error acceptParseException := by
  obtain ⟨pr, tk, hfields⟩ := exists_dataFields_readAs unset h hfinite
  have hreads := readsAs_payload unset (readsAs_fields hfields (dataFields_nodup _ _ _ _ _))
  have hne : nroToJson (some (.hash (fieldEntries (payloadFields versionObject (.hash
      (fieldEntries (dataFields metadata payload.parentId (.double metadata.priority)
        (.long (payload.timestamp / 1000 : ℕ)) (sentTrustedKey metadata)))))))) ≠ [] := by
    obtain ⟨c, cs, hcons, -⟩ := hreads.starts
    rw [nroToJson, hcons]
    simp
  refine ⟨_, pr, tk, payloadAsText_eq h, ?_⟩
  rw [convert_receivedPayload hne h hreads.nroCreateFromJson_eq (nroGetString_readInteger _),
    nroGetLong_readInteger]
  split_ifs <;> first | rfl | simp_all

section

variable {unset : Bytes → ℕ} {payload : NrDistributedTracePayload}
  {metadata receiver : NrDistributedTrace} {transportType : Option Bytes}

theorem PayloadArrives.condition
    (harrives : PayloadArrives unset payload metadata receiver transportType)
    (h : SenderOk payload metadata) :
    leastLong ≤ payload.timestamp / 1000 ∧ metadata.priority.isFinite = true ∧
      payload.parentId ≠ some [] ∧ metadata.txnId ≠ some [] := by
  obtain ⟨text, objPayload, htext, hconvert, harrives⟩ := harrives
  cases hfinite : metadata.priority.isFinite with
  | false =>
      have hnone := (unreadable_payload unset h hfinite).nroCreateFromJson_eq
      rw [payloadAsText_eq h] at htext
      obtain rfl := Option.some.inj htext
      rw [nrDistributedTraceConvertPayloadToObject] at hconvert
      simp only [hnone] at hconvert
      split_ifs at hconvert
  | true =>
      obtain ⟨text', pr, tk, htext', hconvert'⟩ := convert_payloadAsText unset h hfinite
      obtain rfl : text' = text := Option.some.inj (htext'.symm.trans htext)
      rw [hconvert'] at hconvert
      split_ifs at hconvert with hlate
      obtain rfl := Except.ok.inj hconvert
      obtain ⟨-, -, -, hguid, htxn, -⟩ := accept_receivedPayload receiver metadata
        payload.parentId (.double pr) (readInteger (payload.timestamp / 1000 : ℕ)) tk
        transportType
      refine ⟨hlate, rfl, ?_, ?_⟩
      · exact (setDtField_eq_self_iff _).mp (hguid.symm.trans harrives.parentId)
      · exact (setDtField_eq_self_iff _).mp (htxn.symm.trans harrives.txnId)

theorem payloadArrives_of_condition (h : SenderOk payload metadata)
    (hlate : leastLong ≤ payload.timestamp / 1000) (hfinite : metadata.priority.isFinite = true)
    (hparent : payload.parentId ≠ some []) (htxnId : metadata.txnId ≠ some []) :
    PayloadArrives unset payload metadata receiver transportType := by
  obtain ⟨text, pr, tk, htext, hconvert⟩ := convert_payloadAsText unset h hfinite
  rw [if_pos hlate] at hconvert
  obtain ⟨htype, haccount, happ, hguid, htxn, htrace, hsampled, htime⟩ :=
    accept_receivedPayload receiver metadata payload.parentId (.double pr)
      (readInteger (payload.timestamp / 1000 : ℕ)) tk transportType
  have hset : ∀ {s : Option Bytes}, (∃ t, s = some t ∧ t ≠ [] ∧ IsBmpString t) →
      setDtField s = s := by
    rintro s ⟨t, rfl, ht, -⟩
    exact (setDtField_eq_self_iff _).mpr (by simpa using ht)
  refine ⟨text, _, htext, hconvert, htype, haccount.trans (hset h.accountId),
    happ.trans (hset h.appId), hguid.trans ((setDtField_eq_self_iff _).mpr hparent),
    htxn.trans ((setDtField_eq_self_iff _).mpr htxnId), htrace.trans (hset h.traceId), hsampled,
    htime.trans ?_⟩
  rw [nroGetLong_readInteger, if_pos hlate]
  exact inboundTimestamp_eq h.timestamp

end

/-- A sender with ordinary ids. -/
def plainSender : NrDistributedTrace :=
  { accountId := some (ascii "9123"), appId := some (ascii "51424"), txnId := some (ascii "2b")
    priority := .finite .zero, sampled := true
    traceId := some (ascii "3221bf09"), trustedKey := none
    inbound :=
      { set := false, type := none, appId := none, accountId := none, transportType := none
        timestamp := 0, guid := none, txnId := none } }

def plainPayload (timestamp : ℕ) : NrDistributedTracePayload :=
  { metadata := some plainSender, parentId := none, timestamp }

theorem plainPayload_ok {timestamp : ℕ} (h : timestamp < 2 ^ 64) :
    SenderOk (plainPayload timestamp) plainSender where
  metadata_eq := rfl
  accountId := ⟨_, rfl, by decide, isBmpString_ascii (by decide)⟩
  appId := ⟨_, rfl, by decide, isBmpString_ascii (by decide)⟩
  traceId := ⟨_, rfl, by decide, isBmpString_ascii (by decide)⟩
  parentId := by simp [plainPayload]
  txnId := by
    intro s hs
    obtain rfl := Option.some.inj hs
    exact isBmpString_ascii (by decide)
  id := Or.inr ⟨_, rfl, by decide⟩
  timestamp := h

end AxiomDaemon.Axiom

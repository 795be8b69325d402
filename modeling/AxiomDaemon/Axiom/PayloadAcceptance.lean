import AxiomDaemon.Axiom.TxnDistributedTrace

/-!
What is left of a payload that was accepted. A required field is there if it is
a string or a `long`; it is then read as a string, and an empty one is not
stored. The field of the transaction is freed before, so that the transaction
loses its own trace id to a payload without a proper one.
-/

namespace AxiomDaemon.Axiom

open AxiomDaemon.Lib AxiomDaemon.Util

/-- The data of a payload. -/
def payloadDataOf (objPayload : NrObj) : Option NrObj :=
  nroGetHashHash (some objPayload) (ascii "d")

/-- The trace id is that of the payload, and the caller is known. -/
structure KeepsPayload (objPayload : NrObj) (dt : NrDistributedTrace) : Prop where
  traceId : ∃ tr, dt.traceId = some tr ∧ tr ≠ [] ∧
    nroGetHashString (payloadDataOf objPayload) (ascii "tr") = some tr
  type : dt.inbound.type ≠ none
  accountId : dt.inbound.accountId ≠ none
  appId : dt.inbound.appId ≠ none

/-- The required fields that are stored as strings. -/
def storedFields : List Bytes := [ascii "tr", ascii "ty", ascii "ac", ascii "ap"]

/-! ### One field -/

theorem setDtField_eq_some_iff (value : Option Bytes) (s : Bytes) :
    setDtField value = some s ↔ value = some s ∧ s ≠ [] := by
  cases value with
  | none => simp [setDtField]
  | some t =>
      rw [setDtField, Option.some.injEq]
      split_ifs with ht
      · apply iff_of_false
        · exact not_false
        · rintro ⟨rfl, hne⟩
          exact hne ht
      · rw [Option.some.injEq]
        exact ⟨fun heq => ⟨heq, heq ▸ ht⟩, And.left⟩

theorem setDtField_ne_none_iff (value : Option Bytes) :
    setDtField value ≠ none ↔ ∃ s, value = some s ∧ s ≠ [] := by
  rw [Option.ne_none_iff_exists']
  exact exists_congr (setDtField_eq_some_iff value)

theorem getHashLong_of_getHashString {data : Option NrObj} {key s : Bytes}
    (h : nroGetHashString data key = some s) : nroGetHashLong data key = none := by
  rw [nroGetHashString] at h
  rw [nroGetHashLong]
  cases hvalue : nroGetHashValue data key with
  | none => rfl
  | some value =>
      rw [hvalue] at h
      cases value with
      | long => cases h
      | _ => rfl

/-- A field that is there is a proper string unless it is a number or empty. -/
theorem exists_string_iff {data : Option NrObj} {key : Bytes} (h : hasField data key = true) :
    (∃ s, nroGetHashString data key = some s ∧ s ≠ []) ↔
      nroGetHashLong data key = none ∧ nroGetHashString data key ≠ some [] := by
  constructor
  · rintro ⟨s, hs, hne⟩
    refine ⟨getHashLong_of_getHashString hs, ?_⟩
    rw [hs]
    exact fun heq => hne (Option.some.inj heq)
  · rintro ⟨hlong, hempty⟩
    rw [hasField, hlong, Option.isSome_none, Bool.or_false] at h
    obtain ⟨s, hs⟩ := Option.isSome_iff_exists.mp h
    exact ⟨s, hs, fun heq => hempty (heq ▸ hs)⟩

/-! ### Acceptance -/

theorem hasField_of_convert {unset : Bytes → ℕ} {strPayload : Option Bytes} {objPayload : NrObj}
    (h : nrDistributedTraceConvertPayloadToObject unset strPayload = .ok objPayload) :
    ∀ key ∈ requiredDataFields, hasField (payloadDataOf objPayload) key = true := by
  obtain ⟨payload, rfl, hjson⟩ := convertPayload_eq_ok h
  rw [nrDistributedTraceConvertPayloadToObject] at h
  simp only [hjson] at h
  split_ifs at h with _ _ _ _ hfields
  exact List.all_eq_true.mp hfields

theorem accept_fields (dt : NrDistributedTrace) (objPayload : NrObj)
    (transportType : Option Bytes) :
    let accepted := nrDistributedTraceAcceptInboundPayload dt objPayload transportType
    let field := fun key => setDtField (nroGetHashString (payloadDataOf objPayload) key)
    accepted.traceId = field (ascii "tr") ∧ accepted.inbound.type = field (ascii "ty") ∧
      accepted.inbound.accountId = field (ascii "ac") ∧ accepted.inbound.appId = field (ascii "ap") :=
  ⟨rfl, rfl, rfl, rfl⟩

/-- The trace id is kept and the caller is known exactly if none of the fields that
are stored as strings is a number or empty. -/
theorem accept_keepsPayload_iff (unset : Bytes → ℕ) (strPayload : Option Bytes)
    {objPayload : NrObj}
    (h : nrDistributedTraceConvertPayloadToObject unset strPayload = .ok objPayload)
    (dt : NrDistributedTrace) (transportType : Option Bytes) :
    KeepsPayload objPayload (nrDistributedTraceAcceptInboundPayload dt objPayload transportType) ↔
      ∀ key ∈ storedFields, nroGetHashLong (payloadDataOf objPayload) key = none ∧
        nroGetHashString (payloadDataOf objPayload) key ≠ some [] := by
  have hrequired := hasField_of_convert h
  have hstring : ∀ key ∈ storedFields,
      ((∃ s, nroGetHashString (payloadDataOf objPayload) key = some s ∧ s ≠ []) ↔
        nroGetHashLong (payloadDataOf objPayload) key = none ∧
          nroGetHashString (payloadDataOf objPayload) key ≠ some []) := by
    intro key hkey
    apply exists_string_iff
    apply hrequired
    simp only [storedFields, requiredDataFields, List.mem_cons] at hkey ⊢
    tauto
  obtain ⟨htrace, htype, haccount, happ⟩ := accept_fields dt objPayload transportType
  simp only [storedFields, List.forall_mem_cons] at hstring ⊢
  obtain ⟨htr, hty, hac, hap, -⟩ := hstring
  rw [← htr, ← hty, ← hac, ← hap]
  constructor
  · rintro ⟨⟨tr, -, hne, htr⟩, htype', haccount', happ'⟩
    rw [htype, setDtField_ne_none_iff] at htype'
    rw [haccount, setDtField_ne_none_iff] at haccount'
    rw [happ, setDtField_ne_none_iff] at happ'
    exact ⟨⟨tr, htr, hne⟩, htype', haccount', happ', List.forall_mem_nil _⟩
  · rintro ⟨⟨tr, htr, hne⟩, hty, hac, hap, -⟩
    refine ⟨⟨tr, ?_, hne, htr⟩, ?_, ?_, ?_⟩
    · rw [htrace, setDtField_eq_some_iff]
      exact ⟨htr, hne⟩
    · rwa [htype, setDtField_ne_none_iff]
    · rwa [haccount, setDtField_ne_none_iff]
    · rwa [happ, setDtField_ne_none_iff]

theorem accept_eq_true {unset : Bytes → ℕ} {txn : DtTxn} {strPayload transportType : Option Bytes}
    (h : (nrTxnAcceptDistributedTracePayload unset txn strPayload transportType).1 = true) :
    ∃ dt objPayload, txn.distributedTrace = some dt ∧
      nrDistributedTraceConvertPayloadToObject unset strPayload = .ok objPayload ∧
      (nrTxnAcceptDistributedTracePayload unset txn strPayload transportType).2 =
        acceptTrustedPayload txn dt objPayload transportType := by
  simp only [nrTxnAcceptDistributedTracePayload] at h ⊢
  cases hdt : txn.distributedTrace with
  | none => simp [hdt] at h
  | some dt =>
      simp only [hdt] at h ⊢
      split_ifs at h ⊢
      cases hpayload : nrDistributedTraceConvertPayloadToObject unset strPayload with
      | error error => simp [hpayload] at h
      | ok objPayload =>
          simp only [hpayload] at h ⊢
          split_ifs at h ⊢
          exact ⟨dt, objPayload, rfl, rfl, rfl⟩

/-! ### Payloads without a proper trace id -/

/-- A payload of the account 9123, made at the millisecond 1529445826000, with the
given text for its trace id. -/
def payloadTextOf (tr : String) : Bytes :=
  ascii "\x7b\"v\":[0,1],\"d\":\x7b\"ty\":\"App\",\"ac\":\"9123\",\"ap\":\"51424\"," ++
    (ascii "\"id\":\"2b\",\"tr\":" ++ (ascii tr ++ ascii ",\"ti\":1529445826000\x7d\x7d"))

def sentPayload : Bytes := payloadTextOf "\"3221bf09\""

/-- A transaction of the same account. -/
def receivingTxn (startTime : ℕ) : DtTxn :=
  { distributedTrace := some
      { accountId := some (ascii "9123"), appId := some (ascii "51424")
        txnId := some (ascii "5f"), priority := .ofRatio false 1 2, sampled := false
        traceId := some (ascii "5f"), trustedKey := none
        inbound :=
          { set := false, type := none, appId := none, accountId := none, transportType := none
            timestamp := 0, guid := none, txnId := none } }
    unscopedMetrics := nrmTableCreate 100, distributedTracingEnabled := true
    spanEventsEnabled := true, analyticsEventsEnabled := true
    appConnectReply := some (.hash [(ascii "trusted_account_key", .string (ascii "9123"))])
    background := false, startTime, typeDtInbound := false }

/-- With an ordinary trace id everything is kept. -/
theorem accept_keepsPayload_sent : ∃ objPayload,
    nrDistributedTraceConvertPayloadToObject (fun _ => 0) (some sentPayload) = .ok objPayload ∧
      ∀ dt, KeepsPayload objPayload (nrDistributedTraceAcceptInboundPayload dt objPayload none) := by
  have hfields : ((nrDistributedTraceConvertPayloadToObject (fun _ => 0)
      (some sentPayload)).toOption.any fun objPayload => storedFields.all fun key =>
        (nroGetHashLong (payloadDataOf objPayload) key).isNone &&
          decide (nroGetHashString (payloadDataOf objPayload) key ≠ some [])) = true := by
    decide +kernel
  cases hconvert : nrDistributedTraceConvertPayloadToObject (fun _ => 0) (some sentPayload) with
  | error error => simp [hconvert, Except.toOption] at hfields
  | ok objPayload =>
      refine ⟨objPayload, rfl, fun dt =>
        (accept_keepsPayload_iff (fun _ => 0) (some sentPayload) hconvert dt none).mpr ?_⟩
      rw [hconvert, Except.toOption, Option.any_some, List.all_eq_true] at hfields
      intro key hkey
      have hkey' := hfields key hkey
      rw [Bool.and_eq_true, Option.isNone_iff_eq_none, decide_eq_true_eq] at hkey'
      exact hkey'

/-- The payload is accepted, and whichever trace id there was is lost. -/
def LosesTraceId (text : Bytes) : Prop :=
  ∃ objPayload, nrDistributedTraceConvertPayloadToObject (fun _ => 0) (some text) =
    .ok objPayload ∧ ∀ dt,
      (nrDistributedTraceAcceptInboundPayload dt objPayload none).traceId = none ∧
      ¬KeepsPayload objPayload (nrDistributedTraceAcceptInboundPayload dt objPayload none)

theorem accept_of_lost {text : Bytes}
    (h : ((nrDistributedTraceConvertPayloadToObject (fun _ => 0) (some text)).toOption.map
      fun objPayload => setDtField (nroGetHashString (payloadDataOf objPayload) (ascii "tr"))) =
        some none) : LosesTraceId text := by
  cases hconvert : nrDistributedTraceConvertPayloadToObject (fun _ => 0) (some text) with
  | error error => simp [hconvert, Except.toOption] at h
  | ok objPayload =>
      rw [hconvert, Except.toOption, Option.map_some, Option.some.injEq] at h
      refine ⟨objPayload, hconvert, fun dt => ?_⟩
      have htrace : (nrDistributedTraceAcceptInboundPayload dt objPayload none).traceId = none :=
        (accept_fields dt objPayload none).1.trans h
      refine ⟨htrace, fun hkeeps => ?_⟩
      obtain ⟨tr, htr, -⟩ := hkeeps.traceId
      rw [htrace] at htr
      cases htr

/-- An empty trace id, or one that is a number, is accepted, and the transaction has
none afterwards. -/
theorem accept_loses_traceId :
    LosesTraceId (payloadTextOf "\"\"") ∧ LosesTraceId (payloadTextOf "12345678901") := by
  constructor
  · apply accept_of_lost
    decide +kernel
  · apply accept_of_lost
    decide +kernel

end AxiomDaemon.Axiom

import AxiomDaemon.Axiom.PayloadAcceptance
import AxiomDaemon.Axiom.SegmentDatastore
import AxiomDaemon.Util.ObjectFields

/-!
The intrinsics of distributed tracing, `nr_txn_add_distributed_tracing_intrinsics`,
and among them the duration of the transport: what lies between the time that a
payload was made and the start of the transaction that accepted it. The
difference is taken the wrong way round and cut off at zero, so that it is zero
for every payload that was under way for any time at all.
-/

namespace AxiomDaemon.Axiom

open AxiomDaemon.Lib AxiomDaemon.Util

/-! ### Intrinsics -/

/-- `NR_TIME_DIVISOR`, an integer. -/
def nrTimeDivisor : ℕ := 1000000

/-- `NR_PRIORITY_ERROR`. -/
def nrPriorityError : Double := .ofRatio true 1 1

/-- `nr_distributed_trace_inbound_get_timestamp_delta`. -/
def nrDistributedTraceInboundGetTimestampDelta (dt : Option NrDistributedTrace)
    (txnStart : ℕ) : ℕ :=
  match dt with
  | none => 0
  | some dt => nrTimeDuration txnStart dt.inbound.timestamp

/-- The intrinsics of every transaction. -/
def addDtIntrinsics (dt : Option NrDistributedTrace) (intrinsics : NrObj) : NrObj :=
  let intrinsics := nroSetHashString intrinsics "guid" (dt.bind NrDistributedTrace.txnId)
  let intrinsics := nroSetHash intrinsics (ascii "sampled")
    (.boolean ((dt.map NrDistributedTrace.sampled).getD false))
  let intrinsics := nroSetHash intrinsics (ascii "priority")
    (.double ((dt.map NrDistributedTrace.priority).getD nrPriorityError))
  nroSetHashString intrinsics "traceId" (dt.bind NrDistributedTrace.traceId)

/-- An id of the caller, unless it is missing or empty. -/
def addCallerId (intrinsics : NrObj) (key : String) (id : Option Bytes) : NrObj :=
  if id.getD [] = [] then intrinsics else nroSetHashString intrinsics key id

/-- What the caller is. -/
def addCallerFields (inbound : Option DtInbound) (intrinsics : NrObj) : NrObj :=
  let intrinsics := nroSetHashString intrinsics "parent.type" (inbound.bind DtInbound.type)
  let intrinsics := nroSetHashString intrinsics "parent.app" (inbound.bind DtInbound.appId)
  let intrinsics := nroSetHashString intrinsics "parent.account" (inbound.bind DtInbound.accountId)
  nroSetHashString intrinsics "parent.transportType" (inbound.bind DtInbound.transportType)

/-- The intrinsics of a transaction that accepted a payload. -/
def addInboundIntrinsics (dt : Option NrDistributedTrace) (txnStart : ℕ)
    (intrinsics : NrObj) : NrObj :=
  let inbound := dt.map NrDistributedTrace.inbound
  let intrinsics := addCallerFields inbound intrinsics
  let intrinsics := nroSetHash intrinsics (ascii "parent.transportDuration")
    (.double (.ofRatio false
      (nrDistributedTraceInboundGetTimestampDelta dt txnStart / nrTimeDivisor) 1))
  let intrinsics := addCallerId intrinsics "parentSpanId" (inbound.bind DtInbound.guid)
  addCallerId intrinsics "parentId" (inbound.bind DtInbound.txnId)

def nrTxnAddDistributedTracingIntrinsics (txn : DtTxn) (intrinsics : NrObj) : NrObj :=
  let intrinsics := addDtIntrinsics txn.distributedTrace intrinsics
  if txn.typeDtInbound then addInboundIntrinsics txn.distributedTrace txn.startTime intrinsics
  else intrinsics

/-- `parent.transportDuration`, as a rational number of seconds. -/
def transportDuration (intrinsics : NrObj) : Option ℚ :=
  (nroGetHashDouble (some intrinsics) (ascii "parent.transportDuration")).bind Double.value

theorem isHash_addDtIntrinsics {obj : NrObj} (h : obj.IsHash) (dt : Option NrDistributedTrace) :
    (addDtIntrinsics dt obj).IsHash :=
  (((h.nroSetHash _ _).nroSetHash _ _).nroSetHash _ _).nroSetHash _ _

theorem isHash_addCallerFields {obj : NrObj} (h : obj.IsHash) (inbound : Option DtInbound) :
    (addCallerFields inbound obj).IsHash :=
  (((h.nroSetHash _ _).nroSetHash _ _).nroSetHash _ _).nroSetHash _ _

theorem transportDuration_addCallerId {obj : NrObj} (h : obj.IsHash) (key : String)
    (hempty : ascii key ≠ []) (hkey : ascii "parent.transportDuration" ≠ ascii key)
    (id : Option Bytes) :
    (addCallerId obj key id).IsHash ∧
      transportDuration (addCallerId obj key id) = transportDuration obj := by
  rw [addCallerId]
  split_ifs with hid
  · exact ⟨h, rfl⟩
  · refine ⟨h.nroSetHash _ _, ?_⟩
    rw [transportDuration, nroGetHashDouble, nroSetHashString,
      h.getHashValue_nroSetHash hempty, if_neg hkey]
    rfl

theorem transportDuration_intrinsics {txn : DtTxn} (hinbound : txn.typeDtInbound = true)
    {obj : NrObj} (h : obj.IsHash)
    (hdelta : nrDistributedTraceInboundGetTimestampDelta txn.distributedTrace txn.startTime <
      2 ^ 64) :
    transportDuration (nrTxnAddDistributedTracingIntrinsics txn obj) =
      some ((nrDistributedTraceInboundGetTimestampDelta txn.distributedTrace txn.startTime /
        nrTimeDivisor : ℕ) : ℚ) := by
  set whole := nrDistributedTraceInboundGetTimestampDelta txn.distributedTrace txn.startTime /
    nrTimeDivisor with hwhole
  have hlt : whole < 2 ^ 53 := by
    rw [hwhole, nrTimeDivisor]
    omega
  simp only [nrTxnAddDistributedTracingIntrinsics, hinbound, if_true, addInboundIntrinsics,
    ← hwhole]
  have hbefore := isHash_addCallerFields (isHash_addDtIntrinsics h txn.distributedTrace)
    (txn.distributedTrace.map NrDistributedTrace.inbound)
  have hset := hbefore.nroSetHash (ascii "parent.transportDuration")
    (.double (.ofRatio false whole 1))
  obtain ⟨hspan, hspanEq⟩ := transportDuration_addCallerId hset "parentSpanId" (by decide)
    (by decide) ((txn.distributedTrace.map NrDistributedTrace.inbound).bind DtInbound.guid)
  obtain ⟨-, hidEq⟩ := transportDuration_addCallerId hspan "parentId" (by decide)
    (by decide) ((txn.distributedTrace.map NrDistributedTrace.inbound).bind DtInbound.txnId)
  refine hidEq.trans (hspanEq.trans ?_)
  rw [transportDuration, nroGetHashDouble, hbefore.getHashValue_nroSetHash (by decide),
    if_pos rfl, nroGetDouble, Option.bind_some, Double.value_ofRatio_whole hlt]

/-! ### Accepted payloads -/

/-- The time that a payload tells, in milliseconds. -/
def payloadTimestamp (unset : Bytes → ℕ) (strPayload : Option Bytes) : Option ℤ :=
  match nrDistributedTraceConvertPayloadToObject unset strPayload with
  | .error _ => none
  | .ok objPayload =>
      nroGetHashLong (nroGetHashHash (some objPayload) (ascii "d")) (ascii "ti")

theorem acceptTrustedPayload_timestamp (txn : DtTxn) (dt : NrDistributedTrace)
    (objPayload : NrObj) (transportType : Option Bytes) :
    (acceptTrustedPayload txn dt objPayload transportType).typeDtInbound = true ∧
      (acceptTrustedPayload txn dt objPayload transportType).startTime = txn.startTime ∧
      ∃ dt', (acceptTrustedPayload txn dt objPayload transportType).distributedTrace = some dt' ∧
        dt'.inbound.timestamp = inboundTimestamp
          (nroGetHashLong (nroGetHashHash (some objPayload) (ascii "d")) (ascii "ti")) :=
  ⟨rfl, rfl, _, rfl, rfl⟩

/-! ### The time under way -/

/-- The seconds from the time of the payload to the start of the transaction. -/
def transportSeconds (startTime : ℕ) (t : ℤ) : ℚ :=
  if 1000 * t ≤ startTime then ((startTime - 1000 * t : ℤ) : ℚ) / 1000000 else 0

theorem inboundTimestamp_some (t : ℤ) :
    ((inboundTimestamp (some t) : ℕ) : ℤ) = 1000 * t % 2 ^ 64 := by
  rw [inboundTimestamp, Option.getD_some, Int.toNat_of_nonneg (Int.emod_nonneg _ (by decide)),
    mul_comm]

/-- The whole seconds of the difference that is taken are those of the one that
is meant only if both are zero. -/
theorem whole_eq_transportSeconds_iff {startTime : ℕ} (hstart : startTime < 2 ^ 64) (t : ℤ) :
    ((nrTimeDuration startTime (inboundTimestamp (some t)) / nrTimeDivisor : ℕ) : ℚ) =
        transportSeconds startTime t ↔
      startTime ≤ 1000 * t ∧ 1000 * t % 2 ^ 64 < startTime + 1000000 := by
  have htimestamp := inboundTimestamp_some t
  generalize inboundTimestamp (some t) = timestamp at htimestamp
  rw [nrTimeDuration_eq, nrTimeDivisor, transportSeconds]
  split_ifs with hle
  · have hcast : ∀ (n : ℕ) (i : ℤ), (n : ℚ) * 1000000 = (i : ℚ) ↔ (n : ℤ) * 1000000 = i :=
      fun n i => ⟨fun h => by exact_mod_cast h, fun h => by exact_mod_cast h⟩
    rw [eq_div_iff (by norm_num), hcast]
    rcases le_or_gt 0 t with hpos | hneg
    · have hmod : 1000 * t % 2 ^ 64 = 1000 * t := Int.emod_eq_of_lt (by omega) (by omega)
      rw [hmod] at htimestamp ⊢
      omega
    · apply iff_of_false
      · intro heq
        -- the time is less than 2 ^ 64 microseconds before the epoch
        have hdiv : 1000 * t / 2 ^ 64 = -1 := by omega
        have hmod : 1000 * t % 2 ^ 64 = 1000 * t + 2 ^ 64 := by omega
        rw [hmod] at htimestamp
        -- 2 ^ 64 is more than a second off every even number of seconds
        omega
      · omega
  · rw [Nat.cast_eq_zero]
    omega

theorem transportDuration_accept (unset : Bytes → ℕ) (txn : DtTxn)
    (strPayload transportType : Option Bytes) (entries : List (Bytes × NrObj)) {t : ℤ}
    (haccept : (nrTxnAcceptDistributedTracePayload unset txn strPayload transportType).1 = true)
    (ht : payloadTimestamp unset strPayload = some t) :
    transportDuration (nrTxnAddDistributedTracingIntrinsics
        (nrTxnAcceptDistributedTracePayload unset txn strPayload transportType).2
        (.hash entries)) =
      some ((nrTimeDuration txn.startTime (inboundTimestamp (some t)) / nrTimeDivisor : ℕ) : ℚ) := by
  obtain ⟨dt, objPayload, -, hconvert, hafter⟩ := accept_eq_true haccept
  obtain ⟨hinbound, hsame, dt', hdt', htimestamp⟩ :=
    acceptTrustedPayload_timestamp txn dt objPayload transportType
  have hlong : nroGetHashLong (nroGetHashHash (some objPayload) (ascii "d")) (ascii "ti") =
      some t := by
    simpa only [payloadTimestamp, hconvert] using ht
  rw [hlong] at htimestamp
  have hdelta : nrDistributedTraceInboundGetTimestampDelta (some dt') txn.startTime =
      nrTimeDuration txn.startTime (inboundTimestamp (some t)) := by
    rw [nrDistributedTraceInboundGetTimestampDelta, htimestamp]
  have hrange := inboundTimestamp_some t
  rw [hafter, transportDuration_intrinsics hinbound (NrObj.isHash_hash entries), hsame, hdt', hdelta]
  rw [hsame, hdt', hdelta, nrTimeDuration_eq]
  omega

/-- The duration of the transport is that from the time of an accepted payload to
the start of the transaction exactly if the start is not after the time, and the
time, as a number of 64 bits, less than a second after the start. -/
theorem transportDuration_accept_iff (unset : Bytes → ℕ) (txn : DtTxn)
    (strPayload transportType : Option Bytes) (entries : List (Bytes × NrObj)) {t : ℤ}
    (haccept : (nrTxnAcceptDistributedTracePayload unset txn strPayload transportType).1 = true)
    (ht : payloadTimestamp unset strPayload = some t) (hstart : txn.startTime < 2 ^ 64) :
    transportDuration (nrTxnAddDistributedTracingIntrinsics
        (nrTxnAcceptDistributedTracePayload unset txn strPayload transportType).2
        (.hash entries)) = some (transportSeconds txn.startTime t) ↔
      txn.startTime ≤ 1000 * t ∧ 1000 * t % 2 ^ 64 < txn.startTime + 1000000 := by
  rw [transportDuration_accept unset txn strPayload transportType entries haccept ht,
    Option.some.injEq, whole_eq_transportSeconds_iff hstart]

/-! ### A payload that was under way for a second and a half -/

theorem accept_sentPayload : payloadTimestamp (fun _ => 0) (some sentPayload) =
    some 1529445826000 := by
  decide +kernel

/-- The transaction starts with the payload. -/
theorem transportDuration_accept_atOnce :
    transportDuration (nrTxnAddDistributedTracingIntrinsics (nrTxnAcceptDistributedTracePayload
      (fun _ => 0) (receivingTxn 1529445826000000) (some sentPayload) none).2 (.hash [])) =
        some 0 := by
  have hseconds : transportSeconds 1529445826000000 1529445826000 = 0 := by
    norm_num [transportSeconds]
  rw [← hseconds]
  exact (transportDuration_accept_iff (fun _ => 0) (receivingTxn 1529445826000000)
    (some sentPayload) none [] (by decide +kernel) accept_sentPayload (by decide)).mpr (by decide)

/-- It starts a second and a half later, and the duration is zero all the same. -/
theorem transportDuration_accept_later :
    let txn := receivingTxn 1529445827500000
    let accepted := nrTxnAcceptDistributedTracePayload (fun _ => 0) txn (some sentPayload) none
    accepted.1 = true ∧ payloadTimestamp (fun _ => 0) (some sentPayload) = some 1529445826000 ∧
      transportSeconds txn.startTime 1529445826000 = 3 / 2 ∧
      transportDuration (nrTxnAddDistributedTracingIntrinsics accepted.2 (.hash [])) = some 0 ∧
      transportDuration (nrTxnAddDistributedTracingIntrinsics accepted.2 (.hash [])) ≠
        some (transportSeconds txn.startTime 1529445826000) := by
  intro txn accepted
  have haccept : accepted.1 = true := by decide +kernel
  have hseconds : transportSeconds txn.startTime 1529445826000 = 3 / 2 := by
    norm_num [txn, receivingTxn, transportSeconds]
  have hzero : transportDuration (nrTxnAddDistributedTracingIntrinsics accepted.2 (.hash [])) =
      some 0 := by
    have hwhole : nrTimeDuration txn.startTime (inboundTimestamp (some 1529445826000)) /
        nrTimeDivisor = 0 := by
      decide
    rw [transportDuration_accept _ _ _ _ _ haccept accept_sentPayload, hwhole, Nat.cast_zero]
  refine ⟨haccept, accept_sentPayload, hseconds, hzero, ?_⟩
  rw [hzero, hseconds]
  norm_num

end AxiomDaemon.Axiom

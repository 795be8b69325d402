import AxiomDaemon.Axiom.DistributedTrace
import AxiomDaemon.Axiom.Metrics
import AxiomDaemon.Lib.Transition

/-!
How a transaction creates and accepts distributed trace payloads,
`nr_txn.c`. Whether a payload may still be accepted is told by two things
that are written in different places: the flag of the metadata, and the
metric that counts the payloads that were created.
-/

namespace AxiomDaemon.Axiom

open AxiomDaemon.Lib AxiomDaemon.Util

/-- What the two functions use of `nrtxn_t`. -/
structure DtTxn where
  distributedTrace : Option NrDistributedTrace
  unscopedMetrics : NrmTable
  distributedTracingEnabled : Bool
  spanEventsEnabled : Bool
  analyticsEventsEnabled : Bool
  appConnectReply : Option NrObj
  background : Bool
  startTime : ℕ
  /-- `NR_TXN_TYPE_DT_INBOUND` is set in `type`. -/
  typeDtInbound : Bool

/-- What they use of `nr_segment_t`. -/
structure DtSegment where
  id : Option Bytes
  /-- The segment belongs to the transaction. -/
  ofTxn : Bool
  /-- `NR_SEGMENT_PRIORITY_DT` is set in `priority`. -/
  priorityDt : Bool

/-! ### The metrics that are counted -/

def createSuccess : Bytes := ascii "Supportability/DistributedTrace/CreatePayload/Success"

def createException : Bytes := ascii "Supportability/DistributedTrace/CreatePayload/Exception"

def acceptSuccess : Bytes := ascii "Supportability/DistributedTrace/AcceptPayload/Success"

def acceptMultiple : Bytes :=
  ascii "Supportability/DistributedTrace/AcceptPayload/Ignored/Multiple"

def acceptCreateBeforeAccept : Bytes :=
  ascii "Supportability/DistributedTrace/AcceptPayload/Ignored/CreateBeforeAccept"

def acceptUntrustedAccount : Bytes :=
  ascii "Supportability/DistributedTrace/AcceptPayload/Ignored/UntrustedAccount"

def nrTxnForceSingleCount (txn : DtTxn) (metricName : Bytes) : DtTxn :=
  { txn with unscopedMetrics := nrmForceAdd txn.unscopedMetrics metricName 0 }

/-- The caller, as metrics name it. -/
def callerName (dt : Option NrDistributedTrace) : Bytes :=
  match dt with
  | none => ascii "Unknown/Unknown/Unknown/Unknown"
  | some dt =>
      if dt.inbound.set then
        formatString dt.inbound.type ++ ascii "/" ++ formatString dt.inbound.accountId ++
          ascii "/" ++ formatString dt.inbound.appId ++ ascii "/" ++
          formatString dt.inbound.transportType
      else ascii "Unknown/Unknown/Unknown/Unknown"

/-- A time that is given where an `int` is taken. -/
def intOfTime (time : UInt64) : Int32 := time.toUInt32.toInt32

/-- An `int` that is given where a time is taken. -/
def timeOfInt (value : Int32) : UInt64 := value.toInt64.toUInt64

/-- What `nr_txn_create_dt_metrics` adds. -/
def dtMetricAdds (dt : Option NrDistributedTrace) (background : Bool) (metricPrefix : Bytes)
    (value : Int32) : List MetricAdd :=
  let metricName := metricPrefix ++ ascii "/" ++ callerName dt ++ ascii "/"
  let postfixName := if background then ascii "allOther" else ascii "allWeb"
  [forceAddEx (metricName ++ ascii "all") (timeOfInt value) (timeOfInt value),
    forceAddEx (metricName ++ postfixName) (timeOfInt value) (timeOfInt value)]

/-- `nr_txn_create_dt_metrics`. -/
def nrTxnCreateDtMetrics (txn : DtTxn) (metricPrefix : Bytes) (value : Int32) : DtTxn :=
  { txn with
    unscopedMetrics := (dtMetricAdds txn.distributedTrace txn.background metricPrefix value).foldl
      NrmTable.add txn.unscopedMetrics }

/-! ### Creating a payload -/

/-- `nr_txn_should_create_span_events`. -/
def DtTxn.shouldCreateSpanEvents (txn : DtTxn) : Bool :=
  (txn.distributedTrace.map NrDistributedTrace.sampled).getD false &&
    txn.distributedTracingEnabled && txn.spanEventsEnabled

/-- `nr_segment_ensure_id`; `guid` is what `nr_guid_create` returns. -/
def nrSegmentEnsureId (segment : DtSegment) (txn : DtTxn) (guid : Bytes) : DtSegment :=
  if segment.id.isNone && txn.shouldCreateSpanEvents then { segment with id := some guid }
  else segment

/-- `nr_txn_create_distributed_trace_payload`: the text, the transaction and the
segment afterwards. -/
def nrTxnCreateDistributedTracePayload (txn : DtTxn) (segment : Option DtSegment) (guid : Bytes)
    (now : ℕ) : Option Bytes × DtTxn × Option DtSegment :=
  let failed := (none, nrTxnForceSingleCount txn createException, segment)
  match segment with
  | none => failed
  | some segment =>
      if !txn.distributedTracingEnabled then failed
      else if !txn.spanEventsEnabled && !txn.analyticsEventsEnabled then failed
      else if !segment.ofTxn then failed
      else
        let segment := nrSegmentEnsureId segment txn guid
        let text := nrDistributedTracePayloadAsText
          { metadata := txn.distributedTrace, parentId := segment.id, timestamp := now }
        let txn := nrTxnForceSingleCount txn
          (if text.isSome then createSuccess else createException)
        (text, txn, some { segment with priorityDt := true })

/-! ### Accepting a payload -/

/-- `nr_txn_is_account_trusted_dt`. -/
def nrTxnIsAccountTrustedDt (txn : DtTxn) (trustedKey : Option Bytes) : Bool :=
  match trustedKey with
  | none => false
  | some trustedKey =>
      some trustedKey = nroGetHashString txn.appConnectReply (ascii "trusted_account_key")

/-- The key by which a payload is trusted. -/
def payloadTrustedKey (objPayload : NrObj) : Option Bytes :=
  match nrDistributedTraceObjectGetTrustedKey objPayload with
  | some key => some key
  | none => nrDistributedTraceObjectGetAccountId objPayload

/-- The end of `nr_txn_accept_distributed_trace_payload`, from where the payload
is known to be acceptable. -/
def acceptTrustedPayload (txn : DtTxn) (dt : NrDistributedTrace) (objPayload : NrObj)
    (transportType : Option Bytes) : DtTxn :=
  let dt := nrDistributedTraceAcceptInboundPayload dt objPayload transportType
  let dt := nrDistributedTraceInboundSetTransportType dt
    (match transportType with
    | none => some (if txn.background then ascii "Unknown" else ascii "HTTP")
    | some transportType => some transportType)
  let txn := nrTxnForceSingleCount { txn with distributedTrace := some dt } acceptSuccess
  let delta := if txn.startTime > dt.inbound.timestamp then 0
    else dt.inbound.timestamp - txn.startTime
  let txn := nrTxnCreateDtMetrics txn (ascii "TransportDuration")
    (intOfTime (UInt64.ofNat (delta / 1000000)))
  { txn with typeDtInbound := true }

/-- `nr_txn_accept_distributed_trace_payload`. -/
def nrTxnAcceptDistributedTracePayload (unset : Bytes → ℕ) (txn : DtTxn)
    (strPayload transportType : Option Bytes) : Bool × DtTxn :=
  match txn.distributedTrace with
  | none => (false, txn)
  | some dt =>
      if !txn.distributedTracingEnabled then
        (false, nrTxnForceSingleCount txn acceptException)
      else if dt.inbound.set then (false, nrTxnForceSingleCount txn acceptMultiple)
      else if (nrmFind txn.unscopedMetrics createSuccess).isSome then
        (false, nrTxnForceSingleCount txn acceptCreateBeforeAccept)
      else
        match nrDistributedTraceConvertPayloadToObject unset strPayload with
        | .error error => (false, nrTxnForceSingleCount txn error)
        | .ok objPayload =>
            if nrTxnIsAccountTrustedDt txn (payloadTrustedKey objPayload) then
              (true, acceptTrustedPayload txn dt objPayload transportType)
            else (false, nrTxnForceSingleCount txn acceptUntrustedAccount)

/-! ### Calls in any order -/

/-- A call, with the answers of the random generator and of the clock. -/
inductive DtCall
  | create (segment : Option DtSegment) (guid : Bytes) (now : ℕ)
  | accept (strPayload transportType : Option Bytes)

inductive DtReply
  | created (text : Option Bytes)
  | accepted (rv : Bool)
  deriving DecidableEq

def DtReply.isCreated : DtReply → Bool
  | .created text => text.isSome
  | .accepted _ => false

def DtReply.isAccepted : DtReply → Bool
  | .created _ => false
  | .accepted rv => rv

def execCall (unset : Bytes → ℕ) (txn : DtTxn) : DtCall → DtReply × DtTxn
  | .create segment guid now =>
      let (text, txn, _) := nrTxnCreateDistributedTracePayload txn segment guid now
      (.created text, txn)
  | .accept strPayload transportType =>
      let (rv, txn) := nrTxnAcceptDistributedTracePayload unset txn strPayload transportType
      (.accepted rv, txn)

/-- One call of a run: the transaction before and after it, and what it said. -/
structure DtStep where
  before : DtTxn
  call : DtCall
  reply : DtReply
  after : DtTxn

def dtSteps (unset : Bytes → ℕ) : DtTxn → List DtCall → List DtStep
  | _, [] => []
  | txn, call :: calls =>
      { before := txn, call, reply := (execCall unset txn call).1,
        after := (execCall unset txn call).2 } ::
        dtSteps unset (execCall unset txn call).2 calls

/-- The payload that was accepted is trusted: it is a JSON object whose key is
the one that the connect reply tells. -/
def TrustedBy (unset : Bytes → ℕ) (connectReply : Option NrObj) : DtCall → Prop
  | .create _ _ _ => False
  | .accept strPayload _ => ∃ payload objPayload key, strPayload = some payload ∧
      nroCreateFromJson unset payload = some objPayload ∧
      payloadTrustedKey objPayload = some key ∧
      nroGetHashString connectReply (ascii "trusted_account_key") = some key

/-- What a single call does: it is accepted and trusted, or it leaves the
distributed trace alone. -/
def DtStep.Ok (unset : Bytes → ℕ) (connectReply : Option NrObj) (step : DtStep) : Prop :=
  if step.reply.isAccepted then TrustedBy unset connectReply step.call
  else step.after.distributedTrace = step.before.distributedTrace

/-! ### What one call does -/

/-- No payload is accepted any more. -/
def Closed (txn : DtTxn) : Prop :=
  (∃ dt, txn.distributedTrace = some dt ∧ dt.inbound.set = true) ∨
    (nrmFind txn.unscopedMetrics createSuccess).isSome

theorem Closed.forceSingleCount {txn : DtTxn} (h : Closed txn) (name : Bytes) :
    Closed (nrTxnForceSingleCount txn name) := by
  rcases h with hset | hfound
  · exact Or.inl hset
  · exact Or.inr (nrmFind_nrmForceAdd hfound name 0)

theorem closed_createSuccess (txn : DtTxn) : Closed (nrTxnForceSingleCount txn createSuccess) :=
  Or.inr (nrmFind_nrmForceAdd_self txn.unscopedMetrics createSuccess 0)

theorem closed_acceptTrustedPayload (txn : DtTxn) (dt : NrDistributedTrace) (objPayload : NrObj)
    (transportType : Option Bytes) :
    Closed (acceptTrustedPayload txn dt objPayload transportType) :=
  Or.inl ⟨_, rfl, rfl⟩

/-- Creating a payload counts its success if and only if there is a text. -/
theorem create_cases (txn : DtTxn) (segment : Option DtSegment) (guid : Bytes) (now : ℕ) :
    let result := nrTxnCreateDistributedTracePayload txn segment guid now
    (result.1 = none ∧ result.2.1 = nrTxnForceSingleCount txn createException) ∨
      ((∃ text, result.1 = some text) ∧ result.2.1 = nrTxnForceSingleCount txn createSuccess) := by
  simp only [nrTxnCreateDistributedTracePayload]
  cases segment with
  | none => exact Or.inl ⟨rfl, rfl⟩
  | some segment =>
      simp only
      split_ifs
      · exact Or.inl ⟨rfl, rfl⟩
      · exact Or.inl ⟨rfl, rfl⟩
      · exact Or.inl ⟨rfl, rfl⟩
      · next htext => exact Or.inr ⟨Option.isSome_iff_exists.mp htext, rfl⟩
      · next htext => exact Or.inl ⟨Option.not_isSome_iff_eq_none.mp htext, rfl⟩

theorem convertPayload_eq_ok {unset : Bytes → ℕ} {strPayload : Option Bytes} {objPayload : NrObj}
    (h : nrDistributedTraceConvertPayloadToObject unset strPayload = .ok objPayload) :
    ∃ payload, strPayload = some payload ∧ nroCreateFromJson unset payload = some objPayload := by
  cases strPayload with
  | none => exact absurd h (by simp [nrDistributedTraceConvertPayloadToObject])
  | some payload =>
      rw [nrDistributedTraceConvertPayloadToObject] at h
      simp only at h
      split_ifs at h
      cases hjson : nroCreateFromJson unset payload with
      | none =>
          rw [hjson] at h
          exact absurd h (by simp)
      | some obj =>
          rw [hjson] at h
          simp only at h
          split_ifs at h
          obtain rfl := Except.ok.inj h
          exact ⟨payload, rfl, hjson⟩

/-- A payload is accepted at the end only, after every reason to reject it; a
rejection counts a metric, or nothing. -/
theorem accept_cases (unset : Bytes → ℕ) (txn : DtTxn) (strPayload transportType : Option Bytes) :
    let result := nrTxnAcceptDistributedTracePayload unset txn strPayload transportType
    (result.1 = false ∧
      (result.2 = txn ∨ ∃ name, result.2 = nrTxnForceSingleCount txn name)) ∨
    (result.1 = true ∧ ¬Closed txn ∧
      TrustedBy unset txn.appConnectReply (.accept strPayload transportType) ∧
      ∃ dt objPayload, result.2 = acceptTrustedPayload txn dt objPayload transportType) := by
  simp only [nrTxnAcceptDistributedTracePayload]
  cases hdt : txn.distributedTrace with
  | none => exact Or.inl ⟨rfl, Or.inl rfl⟩
  | some dt =>
      simp only
      split_ifs with henabled hset hcreated
      · exact Or.inl ⟨rfl, Or.inr ⟨_, rfl⟩⟩
      · exact Or.inl ⟨rfl, Or.inr ⟨_, rfl⟩⟩
      · exact Or.inl ⟨rfl, Or.inr ⟨_, rfl⟩⟩
      cases hpayload : nrDistributedTraceConvertPayloadToObject unset strPayload with
      | error error => exact Or.inl ⟨rfl, Or.inr ⟨error, rfl⟩⟩
      | ok objPayload =>
          simp only
          split_ifs with htrusted
          · right
            have hopen : ¬Closed txn := by
              rintro (⟨dt', hdt', hset'⟩ | hfound)
              · rw [hdt] at hdt'
                obtain rfl := Option.some.inj hdt'
                exact hset hset'
              · exact hcreated hfound
            obtain ⟨payload, rfl, hjson⟩ := convertPayload_eq_ok hpayload
            refine ⟨rfl, hopen, ?_, dt, objPayload, rfl⟩
            cases hkey : payloadTrustedKey objPayload with
            | none =>
                rw [hkey] at htrusted
                exact absurd htrusted (by simp [nrTxnIsAccountTrustedDt])
            | some key =>
                rw [hkey] at htrusted
                have heq : some key =
                    nroGetHashString txn.appConnectReply (ascii "trusted_account_key") := by
                  simpa [nrTxnIsAccountTrustedDt] using htrusted
                exact ⟨payload, objPayload, key, rfl, hjson, hkey, heq.symm⟩
          · exact Or.inl ⟨rfl, Or.inr ⟨_, rfl⟩⟩

/-- What every call keeps, and what it says when it changes more. -/
theorem execCall_spec (unset : Bytes → ℕ) (txn : DtTxn) (call : DtCall) :
    let (reply, after) := execCall unset txn call
    after.appConnectReply = txn.appConnectReply ∧ (Closed txn → Closed after) ∧
      (reply.isCreated = true → Closed after) ∧
      (reply.isAccepted = true → ¬Closed txn ∧ Closed after) ∧
      DtStep.Ok unset txn.appConnectReply { before := txn, call, reply, after } := by
  cases call with
  | create segment guid now =>
      simp only [execCall]
      rcases create_cases txn segment guid now with ⟨htext, htxn⟩ | ⟨⟨text, htext⟩, htxn⟩
      · simp only [htext, htxn]
        exact ⟨rfl, fun h => h.forceSingleCount _, fun h => absurd h (by simp [DtReply.isCreated]),
          fun h => absurd h (by simp [DtReply.isAccepted]), rfl⟩
      · simp only [htext, htxn]
        exact ⟨rfl, fun h => h.forceSingleCount _, fun _ => closed_createSuccess txn,
          fun h => absurd h (by simp [DtReply.isAccepted]), rfl⟩
  | accept strPayload transportType =>
      simp only [execCall]
      rcases accept_cases unset txn strPayload transportType with
        ⟨hrv, htxn | ⟨name, htxn⟩⟩ | ⟨hrv, hopen, htrusted, dt, objPayload, htxn⟩
      · simp only [hrv, htxn]
        exact ⟨trivial, id, fun h => absurd h (by simp [DtReply.isCreated]),
          fun h => absurd h (by simp [DtReply.isAccepted]), rfl⟩
      · simp only [hrv, htxn]
        exact ⟨rfl, fun h => h.forceSingleCount _, fun h => absurd h (by simp [DtReply.isCreated]),
          fun h => absurd h (by simp [DtReply.isAccepted]), rfl⟩
      · simp only [hrv, htxn]
        have hclosed := closed_acceptTrustedPayload txn dt objPayload transportType
        exact ⟨rfl, fun _ => hclosed, fun h => absurd h (by simp [DtReply.isCreated]),
          fun _ => ⟨hopen, hclosed⟩, htrusted⟩

/-! ### What a run does -/

/-- Two payloads, one of which was taken or made before the other is taken. -/
def Conflict (earlier later : DtStep) : Prop :=
  (earlier.reply.isAccepted = true ∨ earlier.reply.isCreated = true) ∧
    later.reply.isAccepted = true

theorem not_isAccepted_of_closed (unset : Bytes → ℕ) {txn : DtTxn} (h : Closed txn)
    (calls : List DtCall) : ∀ step ∈ dtSteps unset txn calls, step.reply.isAccepted = false := by
  induction calls generalizing txn with
  | nil => simp [dtSteps]
  | cons call calls ih =>
      obtain ⟨-, hkeep, -, haccepted, -⟩ := execCall_spec unset txn call
      intro step hstep
      rcases List.mem_cons.mp hstep with rfl | hrest
      · exact Bool.eq_false_iff.mpr fun hacc => (haccepted hacc).1 h
      · exact ih (hkeep h) step hrest

theorem dtSteps_pairwise (unset : Bytes → ℕ) (txn : DtTxn) (calls : List DtCall) :
    (dtSteps unset txn calls).Pairwise fun earlier later => ¬Conflict earlier later := by
  induction calls generalizing txn with
  | nil => exact List.Pairwise.nil
  | cons call calls ih =>
      obtain ⟨-, -, hcreated, haccepted, -⟩ := execCall_spec unset txn call
      refine List.Pairwise.cons ?_ (ih _)
      rintro later hlater ⟨hfirst, hacc⟩
      have hclosed : Closed (execCall unset txn call).2 := by
        rcases hfirst with h | h
        · exact (haccepted h).2
        · exact hcreated h
      rw [not_isAccepted_of_closed unset hclosed calls later hlater] at hacc
      exact absurd hacc (by simp)

/-- Of things that exclude each other there is one at most. -/
theorem countP_le_one {α : Type*} {p : α → Bool} {l : List α}
    (h : l.Pairwise fun a b => ¬(p a = true ∧ p b = true)) : l.countP p ≤ 1 := by
  induction l with
  | nil => simp
  | cons a l ih =>
      obtain ⟨hhead, htail⟩ := List.pairwise_cons.mp h
      rw [List.countP_cons]
      split_ifs with ha
      · have hnone : l.countP p = 0 :=
          List.countP_eq_zero.mpr fun b hb hpb => hhead b hb ⟨ha, hpb⟩
        omega
      · exact ih htail

theorem dtSteps_ok (unset : Bytes → ℕ) (txn : DtTxn) (calls : List DtCall) :
    ∀ step ∈ dtSteps unset txn calls, step.Ok unset txn.appConnectReply := by
  induction calls generalizing txn with
  | nil => simp [dtSteps]
  | cons call calls ih =>
      obtain ⟨hreply, -, -, -, hok⟩ := execCall_spec unset txn call
      intro step hstep
      rcases List.mem_cons.mp hstep with rfl | hrest
      · exact hok
      · rw [← hreply]
        exact ih _ step hrest

/-- Whatever the calls: no payload is accepted after another one was accepted or
created, one that is accepted is trusted, and a call that accepts none leaves
the distributed trace as it was. -/
theorem distributedTrace_calls (unset : Bytes → ℕ) (txn : DtTxn) (calls : List DtCall) :
    ((dtSteps unset txn calls).Pairwise fun earlier later => ¬Conflict earlier later) ∧
      ((dtSteps unset txn calls).countP fun step => step.reply.isAccepted) ≤ 1 ∧
      ∀ step ∈ dtSteps unset txn calls, step.Ok unset txn.appConnectReply := by
  have hpairwise := dtSteps_pairwise unset txn calls
  refine ⟨hpairwise, countP_le_one ?_, dtSteps_ok unset txn calls⟩
  exact hpairwise.imp fun hconflict hboth => hconflict ⟨Or.inl hboth.1, hboth.2⟩

end AxiomDaemon.Axiom

import AxiomDaemon.Axiom.PayloadRoundTrip
import AxiomDaemon.Axiom.SpanEventJson
import AxiomDaemon.Axiom.TxnNaming
import AxiomDaemon.Util.Base64Bounds
import AxiomDaemon.Util.ObjectWriting

/-!
Cross application tracing, `nr_header.c`: the headers that a transaction sends
with a request, what the transaction that is called makes of them, the header
with which it responds, and what the first one makes of that.

The checksum of `nr_hash_md5_low32` is a function that the calls bring along, and so
is what the `jstring` reader finds is what the `jstring` reader finds beyond a text. Pointers for results that the
caller does not want, and what is only logged, are left out. Texts are written and
hidden with the `int`s of the functions that do it, which fault where one does not
hold a size.
-/

namespace AxiomDaemon.Axiom

open AxiomDaemon.Lib AxiomDaemon.Lib.CText AxiomDaemon.Util AxiomDaemon.Util.ObjectJson

/-! ### Transactions -/

/-- `txn->cat`. -/
structure NrTxnCat where
  inboundGuid : Option Bytes
  tripId : Option Bytes
  referringPathHash : Option Bytes
  alternatePathHashes : NrObj
  clientCrossProcessId : Option Bytes

/-- `nr_cross_process_status_t`. -/
inductive NrStatusCrossProcess
  | disabled
  | start
  | responseCreated
  deriving DecidableEq

/-- The bits of `txn->type` that the headers set. -/
structure NrTxnType where
  catInbound : Bool
  catOutbound : Bool
  dtOutbound : Bool

/-- The fields of `nrtxn_t` that the headers read and write. The guid is the one of the
distributed trace; `synthetics` is the header that the synthetics of the transaction give. -/
structure CatTxn where
  named : NamedTxn
  appConnectReply : Option NrObj
  crossProcessEnabled : Bool
  distributedTracingEnabled : Bool
  syntheticsEnabled : Bool
  crossProcess : NrStatusCrossProcess
  hasInboundRecordTt : Bool
  hasOutboundRecordTt : Bool
  httpXStart : UInt64
  absStartTime : UInt64
  guid : Option Bytes
  primaryAppName : Option Bytes
  synthetics : Option Bytes
  type : NrTxnType
  cat : NrTxnCat
  intrinsics : NrObj

/-- `NR_CROSS_PROCESS_ID_LENGTH_MAX`. -/
def nrCrossProcessIdLengthMax : ℕ := 64

/-! ### Texts -/

/-- `nr_header_validate_encoded_string`. -/
def nrHeaderValidateEncodedString (encodedString : Option Bytes) : NrStatus :=
  match encodedString with
  | none | some [] => .failure
  | some encoded => if encoded.all nrB64IsValidCharacter then .success else .failure

/-- `nr_header_encode`. -/
def nrHeaderEncode (txn : CatTxn) (string : Option Bytes) : Checked (Option Bytes) :=
  let encodingKey := nroGetHashString txn.appConnectReply (ascii "encoding_key")
  Option.map cString <$>
    Memory.nrObfuscate (string.map terminated) (encodingKey.map terminated) 0

/-- `nr_header_decode`. -/
def nrHeaderDecode (txn : CatTxn) (encodedString : Option Bytes) : Checked (Option Bytes) :=
  let encodingKey := nroGetHashString txn.appConnectReply (ascii "encoding_key")
  if nrHeaderValidateEncodedString encodedString = .success then
    Option.map cString <$>
      Memory.nrDeobfuscate (encodedString.map terminated) (encodingKey.map terminated) 0
  else .ok none

/-! ### Ids -/

/-- `nr_header_account_id_from_cross_process_id`. -/
def nrHeaderAccountIdFromCrossProcessId (crossProcessId : Option Bytes) : ℤ :=
  match crossProcessId with
  | none => -1
  | some crossProcessId =>
      let (accountId, last) := strtollDecimal crossProcessId
      if last.head? ≠ some 0x23 then -1
      else if 2 ^ 31 - 1 ≤ accountId then -1
      else accountId

/-- `nr_txn_is_account_trusted`. -/
def nrTxnIsAccountTrusted (txn : CatTxn) (accountId : Int32) : Bool :=
  if accountId ≤ 0 then false
  else
    let trustedAccountIds := nroGetHashArray txn.appConnectReply (ascii "trusted_account_ids")
    0 < nroFindArrayInt trustedAccountIds accountId.toInt

/-- `nr_header_validate_decoded_id`. -/
def nrHeaderValidateDecodedId (txn : CatTxn) (decodedId : Option Bytes) : NrStatus :=
  match decodedId with
  | none => .failure
  | some decodedId =>
      if nrCrossProcessIdLengthMax ≤ decodedId.length then .failure
      else
        let accountId := nrHeaderAccountIdFromCrossProcessId (some decodedId)
        if accountId = -1 then .failure
        else if nrTxnIsAccountTrusted txn (Int32.ofInt accountId) then .success
        else .failure

/-! ### Path hashes -/

/-- `%08x`. -/
def formatHex8 (n : UInt32) : Bytes :=
  (List.range 8).map fun i => hexDigit (n.toNat / 16 ^ (7 - i) % 16)

/-- `nr_hash_cat_path`. -/
def nrHashCatPath (md5Low32 : Bytes → UInt32) (txnName : Bytes)
    (primaryAppName referringPathHash : Option Bytes) : Option Bytes :=
  match primaryAppName with
  | none => none
  | some primaryAppName =>
      let refer := (referringPathHash.bind scanHex32).getD 0
      let rotated := (refer <<< 1) ||| (refer >>> 31)
      some (formatHex8 (rotated ^^^ md5Low32 (primaryAppName ++ ascii ";" ++ txnName)))

/-- `nr_txn_current_path_hash`. -/
def nrTxnCurrentPathHash (md5Low32 : Bytes → UInt32) (txn : CatTxn) : Option Bytes :=
  let name := (txn.named.name.or txn.named.path).getD (ascii "<unknown>")
  nrHashCatPath md5Low32 name txn.primaryAppName txn.cat.referringPathHash

/-- `nr_txn_add_alternate_path_hash`, of what there is up to ten. -/
def nrTxnAddAlternatePathHash (txn : CatTxn) (pathHash : Option Bytes) : CatTxn :=
  match pathHash with
  | none | some [] => txn
  | some pathHash =>
      if 10 ≤ nroGetsize (some txn.cat.alternatePathHashes) then txn
      else
        { txn with
          cat :=
            { txn.cat with
              alternatePathHashes := nroSetHash txn.cat.alternatePathHashes pathHash .none } }

/-- `nr_txn_get_path_hash`. -/
def nrTxnGetPathHash (md5Low32 : Bytes → UInt32) (txn : CatTxn) : CatTxn × Option Bytes :=
  let pathHash := nrTxnCurrentPathHash md5Low32 txn
  (nrTxnAddAlternatePathHash txn pathHash, pathHash)

/-! ### Sending a request -/

/-- `nr_txn_get_cat_trip_id`. -/
def nrTxnGetCatTripId (txn : CatTxn) : Option Bytes := txn.cat.tripId.or txn.guid

/-- `nr_header_outbound_request_decoded`: the id, and the fields about the transaction. -/
def nrHeaderOutboundRequestDecoded (md5Low32 : Bytes → UInt32) (txn : CatTxn) :
    Checked (CatTxn × Option Bytes × Option Bytes) :=
  if !txn.crossProcessEnabled then .ok (txn, none, none)
  else
    match nroGetHashString txn.appConnectReply (ascii "cross_process_id"), txn.guid with
    | none, _ | _, none => .ok (txn, none, none)
    | some crossProcessId, some guid => do
        let tripId := nrTxnGetCatTripId txn
        let (txn, pathHash) := nrTxnGetPathHash md5Low32 txn
        let array : NrObj := .array
          [.string guid, .boolean false, .string (nrStrdup tripId), .string (nrStrdup pathHash)]
        let json ← Memory.nroToJson (some array)
        .ok ({ txn with type := { txn.type with catOutbound := true } },
          some crossProcessId, some json)

/-- The headers of a request. -/
structure OutboundHeaders where
  xNewrelicId : Option Bytes
  xNewrelicTransaction : Option Bytes
  xNewrelicSynthetics : Option Bytes
  newrelic : Option Bytes

/-- `nr_header_outbound_request_synthetics_encoded`. -/
def nrHeaderOutboundRequestSyntheticsEncoded (txn : CatTxn) : Checked (Option Bytes) :=
  if txn.syntheticsEnabled then nrHeaderEncode txn txn.synthetics else .ok none

/-- `nr_header_outbound_request`. The payload is what
`nr_txn_create_distributed_trace_payload` makes for the segment. -/
def nrHeaderOutboundRequest (md5Low32 : Bytes → UInt32) (payload : Option Bytes) (txn : CatTxn) :
    Checked (CatTxn × OutboundHeaders) :=
  if txn.distributedTracingEnabled then do
    let encoded ←
      Memory.nrB64Encode (payload.map terminated) (CMemory.nrStrlen (payload.getD []))
    let txn := { txn with type := { txn.type with dtOutbound := true } }
    let xNewrelicSynthetics ← nrHeaderOutboundRequestSyntheticsEncoded txn
    let newrelic := encoded.map fun e => cString e.1
    .ok (txn, { xNewrelicId := none, xNewrelicTransaction := none, xNewrelicSynthetics, newrelic })
  else if txn.crossProcessEnabled then do
    let (txn, decodedId, decodedTransaction) ← nrHeaderOutboundRequestDecoded md5Low32 txn
    let xNewrelicId ← nrHeaderEncode txn decodedId
    let xNewrelicTransaction ← nrHeaderEncode txn decodedTransaction
    let xNewrelicSynthetics ← nrHeaderOutboundRequestSyntheticsEncoded txn
    .ok (txn, { xNewrelicId, xNewrelicTransaction, xNewrelicSynthetics, newrelic := none })
  else do
    let xNewrelicSynthetics ← nrHeaderOutboundRequestSyntheticsEncoded txn
    .ok (txn,
      { xNewrelicId := none, xNewrelicTransaction := none, xNewrelicSynthetics, newrelic := none })

/-! ### Receiving a request -/

/-- `nr_header_obj_is_null_or_string`. -/
def nrHeaderObjIsNullOrString : Option NrObj → Bool
  | none | some .none | some (.string _) => true
  | _ => false

/-- `nr_header_process_x_newrelic_transaction`. -/
def nrHeaderProcessXNewrelicTransaction (txn : CatTxn) (xNewrelicTxn : NrObj) :
    CatTxn × NrStatus :=
  match nroGetArrayString (some xNewrelicTxn) 1, nroGetArrayBoolean (some xNewrelicTxn) 2 with
  | none, _ | _, none => (txn, .failure)
  | some inboundGuid, some inboundRecordTt =>
      let tripIdVal := nroGetArrayValue (some xNewrelicTxn) 3
      let referringPathHashVal := nroGetArrayValue (some xNewrelicTxn) 4
      if !nrHeaderObjIsNullOrString tripIdVal then (txn, .failure)
      else if !nrHeaderObjIsNullOrString referringPathHashVal then (txn, .failure)
      else
        ({ txn with
           type := { txn.type with catInbound := true }
           hasInboundRecordTt := inboundRecordTt
           intrinsics :=
             nroSetHash txn.intrinsics (ascii "referring_transaction_guid") (.string inboundGuid)
           cat :=
             { txn.cat with
               inboundGuid := some inboundGuid
               tripId := (nroGetString tripIdVal).or txn.cat.tripId
               referringPathHash :=
                 (nroGetString referringPathHashVal).or txn.cat.referringPathHash } },
         .success)

/-- `nr_header_set_cat_txn`. -/
def nrHeaderSetCatTxn (unset : Bytes → ℕ) (txn : CatTxn)
    (xNewrelicId xNewrelicTransaction : Option Bytes) : Checked (CatTxn × NrStatus) := do
  let decodedId ← nrHeaderDecode txn xNewrelicId
  if nrHeaderValidateDecodedId txn decodedId = .failure then .ok (txn, .failure)
  else do
    let txn :=
      { txn with cat := { txn.cat with clientCrossProcessId := some (nrStrdup decodedId) } }
    match ← nrHeaderDecode txn xNewrelicTransaction with
    | none => .ok (txn, .failure)
    | some decodedTxn =>
        match nroCreateFromJson unset decodedTxn with
        | none => .ok (txn, .failure)
        | some fields => .ok (nrHeaderProcessXNewrelicTransaction txn fields)

/-! ### Responding -/

/-- `nrm_add`: a table that is full counts what it does not take. -/
def nrmAdd (table : NrmTable) (name : Bytes) (duration : UInt64) : NrmTable :=
  let metrics := table.metrics.alter name (nrMkhash name)
    (NrMetric.addData 1 duration duration duration duration (duration * duration))
  if (nrmFind table name).isSome then { table with metrics }
  else if table.maxSize ≤ table.number then
    nrmForceAdd table (ascii "Supportability/MetricsDropped") 0
  else { table with number := table.number + 1, metrics }

/-- `nr_txn_unfinished_duration`. -/
def nrTxnUnfinishedDuration (txn : CatTxn) (now : UInt64) : ℕ :=
  nrTimeDuration txn.absStartTime.toNat now.toNat

/-- `nr_txn_queue_time`. -/
def nrTxnQueueTime (txn : CatTxn) : ℕ :=
  if txn.httpXStart = 0 then 0
  else nrTimeDuration txn.httpXStart.toNat txn.absStartTime.toNat

/-- The fields of a response. -/
def responseFields (crossProcessId : Bytes) (name : Option Bytes) (qtime apptime : ℕ)
    (contentLength : Int32) (guid : Bytes) : NrObj :=
  .array
    [.string crossProcessId, .string (nrStrdup name), .double (secondsOf qtime),
      .double (secondsOf apptime), .int contentLength.toInt, .string guid, .boolean false]

/-- `nr_header_inbound_response_internal`, at the time `now`. -/
def nrHeaderInboundResponseInternal (app : Option NamingApp) (now : UInt64) (txn : CatTxn)
    (contentLength : Int32) : Checked (CatTxn × Option Bytes) :=
  if !txn.named.status.recording || !txn.crossProcessEnabled then .ok (txn, none)
  else
    match txn.cat.clientCrossProcessId,
        nroGetHashString txn.appConnectReply (ascii "cross_process_id"), txn.guid with
    | some clientCrossProcessId, some crossProcessId, some guid =>
        if txn.crossProcess ≠ .start then .ok (txn, none)
        else
          let apptime := nrTxnUnfinishedDuration txn now
          let (named, status) := nrTxnFreezeNameUpdateApdex txn.named app
          let txn := { txn with named }
          if status ≠ .success then .ok (txn, none)
          else do
            -- the buffer has room for 32 bytes more than an id
            let buf := (ascii "ClientApplication/" ++ clientCrossProcessId ++ ascii "/all").take 95
            let json ← Memory.nroToJson (some
              (responseFields crossProcessId named.name (nrTxnQueueTime txn) apptime
                contentLength guid))
            .ok ({ txn with
                   named :=
                     { named with
                       unscopedMetrics := nrmAdd named.unscopedMetrics buf (UInt64.ofNat apptime) }
                   intrinsics := nroSetHash txn.intrinsics (ascii "client_cross_process_id")
                     (.string clientCrossProcessId)
                   crossProcess := .responseCreated },
              some json)
    | _, _, _ => .ok (txn, none)

/-- `nr_header_inbound_response`. -/
def nrHeaderInboundResponse (app : Option NamingApp) (now : UInt64) (txn : CatTxn)
    (contentLength : Int32) : Checked (CatTxn × Option Bytes) := do
  let (txn, response) ← nrHeaderInboundResponseInternal app now txn contentLength
  let encodedResponse ← nrHeaderEncode txn response
  .ok (txn, encodedResponse)

/-! ### Receiving a response -/

/-- What a response tells about the transaction that was called. -/
structure ExternalTxn where
  externalId : Option Bytes
  externalTxnname : Option Bytes
  externalGuid : Option Bytes
  deriving DecidableEq

def ExternalTxn.unknown : ExternalTxn :=
  { externalId := none, externalTxnname := none, externalGuid := none }

/-- `nr_header_outbound_response_object`. -/
def nrHeaderOutboundResponseObject (txn : CatTxn) (responseObj : Option NrObj) :
    CatTxn × ExternalTxn :=
  if !txn.crossProcessEnabled then (txn, .unknown)
  else
    match responseObj with
    | some (.array elements) =>
        let response : Option NrObj := some (.array elements)
        if elements.length < 5 then (txn, .unknown)
        else
          let externalId := nroGetArrayString response 1
          if externalId = none then (txn, .unknown)
          else if nrHeaderValidateDecodedId txn externalId ≠ .success then (txn, .unknown)
          else
            let externalTxnname := nroGetArrayString response 2
            if externalTxnname = none then (txn, .unknown)
            else
              let externalGuid := if 6 ≤ elements.length then nroGetArrayString response 6 else none
              if 6 ≤ elements.length ∧ externalGuid = none then (txn, .unknown)
              else
                let externalRecordTt := nroGetArrayBoolean response 7
                if 7 ≤ elements.length ∧ externalRecordTt = none then (txn, .unknown)
                else
                  ({ txn with
                     hasOutboundRecordTt :=
                       txn.hasOutboundRecordTt || externalRecordTt = some true },
                    { externalId, externalTxnname, externalGuid })
    | _ => (txn, .unknown)

/-- `nr_header_outbound_response_decoded`. -/
def nrHeaderOutboundResponseDecoded (unset : Bytes → ℕ) (txn : CatTxn)
    (decodedResponse : Option Bytes) : CatTxn × ExternalTxn :=
  nrHeaderOutboundResponseObject txn (decodedResponse.bind (nroCreateFromJson unset))

/-- `nr_header_outbound_response`. -/
def nrHeaderOutboundResponse (unset : Bytes → ℕ) (txn : CatTxn) (xNewrelicAppData : Option Bytes) :
    Checked (CatTxn × ExternalTxn) :=
  nrHeaderOutboundResponseDecoded unset txn <$> nrHeaderDecode txn xNewrelicAppData

end AxiomDaemon.Axiom

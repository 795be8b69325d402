import AxiomDaemon.Util.ObjectJson

/-!
Distributed trace metadata, `nr_distributed_trace.c`: what a transaction
knows about the trace it is part of, what it takes over from the payload of
the service that called it, and the payload that it sends itself.
-/

namespace AxiomDaemon.Axiom

open AxiomDaemon.Lib AxiomDaemon.Util

/-- `%s`. -/
def formatString (s : Option Bytes) : Bytes := s.getD (ascii "(null)")

/-- The fields that are set when a payload is accepted. -/
structure DtInbound where
  set : Bool
  type : Option Bytes
  appId : Option Bytes
  accountId : Option Bytes
  transportType : Option Bytes
  timestamp : ℕ
  guid : Option Bytes
  txnId : Option Bytes
  deriving DecidableEq

/-- `nr_distributed_trace_t`. -/
structure NrDistributedTrace where
  accountId : Option Bytes
  appId : Option Bytes
  txnId : Option Bytes
  priority : Double
  sampled : Bool
  traceId : Option Bytes
  trustedKey : Option Bytes
  inbound : DtInbound
  deriving DecidableEq

/-- `set_dt_field`: the field afterwards. An empty value leaves it `NULL`. -/
def setDtField (value : Option Bytes) : Option Bytes :=
  match value with
  | none => none
  | some value => if value = [] then none else some value

def supportedTransportTypes : List Bytes :=
  [ascii "Unknown", ascii "HTTP", ascii "HTTPS", ascii "Kafka", ascii "JMS", ascii "IronMQ",
    ascii "AMQP", ascii "Queue", ascii "Other"]

def nrDistributedTraceInboundSetTransportType (dt : NrDistributedTrace) (value : Option Bytes) :
    NrDistributedTrace :=
  let value :=
    match value with
    | some value => if value ∈ supportedTransportTypes then value else ascii "Unknown"
    | none => ascii "Unknown"
  { dt with inbound := { dt.inbound with transportType := setDtField (some value) } }

/-- `(nrtime_t)value * NR_TIME_DIVISOR_MS`; a missing timestamp is read as
`-1`. -/
def inboundTimestamp (value : Option ℤ) : ℕ := (value.getD (-1) * 1000 % 2 ^ 64).toNat

/-- `nr_distributed_trace_accept_inbound_payload` on a payload and without an
earlier error, where it cannot fail. -/
def nrDistributedTraceAcceptInboundPayload (dt : NrDistributedTrace) (objPayload : NrObj)
    (transportType : Option Bytes) : NrDistributedTrace :=
  let data := nroGetHashHash (some objPayload) (ascii "d")
  let dt :=
    { dt with
      traceId := setDtField (nroGetHashString data (ascii "tr"))
      -- the current priority and flag are kept if they are missing or invalid
      priority := (nroGetHashDouble data (ascii "pr")).getD dt.priority
      sampled := (nroGetHashBoolean data (ascii "sa")).getD dt.sampled
      inbound :=
        { dt.inbound with
          type := setDtField (nroGetHashString data (ascii "ty"))
          accountId := setDtField (nroGetHashString data (ascii "ac"))
          appId := setDtField (nroGetHashString data (ascii "ap"))
          guid := setDtField (nroGetHashString data (ascii "id"))
          txnId := setDtField (nroGetHashString data (ascii "tx"))
          timestamp := inboundTimestamp (nroGetHashLong data (ascii "ti")) } }
  let dt := nrDistributedTraceInboundSetTransportType dt transportType
  { dt with inbound := { dt.inbound with set := true } }

/-! ### The errors, which are the names of metrics -/

def acceptException : Bytes := ascii "Supportability/DistributedTrace/AcceptPayload/Exception"

def acceptParseException : Bytes :=
  ascii "Supportability/DistributedTrace/AcceptPayload/ParseException"

def acceptMajorVersion : Bytes :=
  ascii "Supportability/DistributedTrace/AcceptPayload/Ignored/MajorVersion"

def acceptNull : Bytes := ascii "Supportability/DistributedTrace/AcceptPayload/Ignored/Null"

/-! ### Payloads of others -/

def versionMajor : ℤ := 0

def versionMinor : ℤ := 1

def requiredDataFields : List Bytes :=
  [ascii "ty", ascii "ac", ascii "ap", ascii "tr", ascii "ti"]

/-- A required field is there as a string or as a `long`. -/
def hasField (data : Option NrObj) (field : Bytes) : Bool :=
  (nroGetHashString data field).isSome || (nroGetHashLong data field).isSome

/-- `nr_distributed_trace_convert_payload_to_object`, without an earlier error. -/
def nrDistributedTraceConvertPayloadToObject (unset : Bytes → ℕ) (payload : Option Bytes) :
    Except Bytes NrObj :=
  match payload with
  | none => .error acceptNull
  | some payload =>
      if payload = [] then .error acceptNull
      else
        match nroCreateFromJson unset payload with
        | none => .error acceptParseException
        | some objPayload =>
            let version := nroGetHashArray (some objPayload) (ascii "v")
            if version.isNone then .error acceptParseException
            else if versionMajor < (nroGetArrayInt version 1).getD (-1) then
              .error acceptMajorVersion
            else
              let data := nroGetHashHash (some objPayload) (ascii "d")
              if (nroGetHashString data (ascii "tx")).isNone &&
                  (nroGetHashString data (ascii "id")).isNone then
                .error acceptParseException
              else if requiredDataFields.all (hasField data) then .ok objPayload
              else .error acceptParseException

def nrDistributedTraceObjectGetAccountId (object : NrObj) : Option Bytes :=
  nroGetHashString (nroGetHashHash (some object) (ascii "d")) (ascii "ac")

def nrDistributedTraceObjectGetTrustedKey (object : NrObj) : Option Bytes :=
  nroGetHashString (nroGetHashHash (some object) (ascii "d")) (ascii "tk")

/-! ### Payloads of its own -/

/-- `nr_distributed_trace_payload_t`. -/
structure NrDistributedTracePayload where
  metadata : Option NrDistributedTrace
  parentId : Option Bytes
  timestamp : ℕ

def addFieldIfSet (obj : NrObj) (key : Bytes) (value : Option Bytes) : NrObj :=
  match value with
  | none => obj
  | some value => nroSetHash obj key (.string value)

/-- The data of a payload. The trusted key is there if it is not the account. -/
def payloadData (metadata : NrDistributedTrace) (parentId : Option Bytes) (timestamp : ℕ) : NrObj :=
  let data := nroSetHash (.hash []) (ascii "ty") (.string (ascii "App"))
  let data := addFieldIfSet data (ascii "ac") metadata.accountId
  let data := addFieldIfSet data (ascii "ap") metadata.appId
  let data := addFieldIfSet data (ascii "id") parentId
  let data := addFieldIfSet data (ascii "tr") metadata.traceId
  let data := addFieldIfSet data (ascii "tx") metadata.txnId
  let data := nroSetHash data (ascii "pr") (.double metadata.priority)
  let data := nroSetHash data (ascii "sa") (.boolean metadata.sampled)
  let data := nroSetHash data (ascii "ti") (.long (timestamp / 1000 : ℕ))
  if metadata.trustedKey = metadata.accountId then data
  else addFieldIfSet data (ascii "tk") metadata.trustedKey

/-- `nr_distributed_trace_payload_as_text`. -/
def nrDistributedTracePayloadAsText (payload : NrDistributedTracePayload) : Option Bytes :=
  match payload.metadata with
  | none => none
  | some metadata =>
      if payload.parentId.isNone && metadata.txnId.isNone then none
      else
        let version := nroAppendArray (nroAppendArray (.array []) (.int versionMajor))
          (.int versionMinor)
        let obj := nroSetHash (.hash []) (ascii "v") version
        let obj := nroSetHash obj (ascii "d")
          (payloadData metadata payload.parentId payload.timestamp)
        some (nroToJson (some obj))

end AxiomDaemon.Axiom

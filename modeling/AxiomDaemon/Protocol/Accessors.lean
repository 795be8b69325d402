import AxiomDaemon.Lib.Flatbuffers

/-!
The accessors that are generated from `protocol.fbs`, as far as the daemon reads with
them, and what the schema says of the tables.
-/

namespace AxiomDaemon.Protocol

open AxiomDaemon.Lib AxiomDaemon.Lib.Flatbuffers

/-! ### Accessors -/

/-- `GetRootAsMessage`. -/
def getRootAsMessage (buf : Bytes) (offset : UInt32) : Option Table := do
  let n ← getUint32 (← sliceFrom buf offset)
  some { bytes := buf, pos := n + offset }

/-- `MessageBody`. -/
def messageBodyNone : UInt8 := 0

def messageBodyApp : UInt8 := 1

def messageBodyAppReply : UInt8 := 2

def messageBodyTransaction : UInt8 := 3

namespace Message

def agentRunId (rcv : Table) : Option (Option Bytes) := rcv.text 4

def dataType (rcv : Table) : Option UInt8 := rcv.number 6 0 getUint8

/-- The table that is filled, if there is one. -/
def data (rcv : Table) : Option (Option Table) :=
  rcv.field 8 none fun o => do some (some (← rcv.union o))

end Message

namespace App

def license (rcv : Table) : Option (Option Bytes) := rcv.text 4

def appName (rcv : Table) : Option (Option Bytes) := rcv.text 6

def agentLanguage (rcv : Table) : Option (Option Bytes) := rcv.text 8

def agentVersion (rcv : Table) : Option (Option Bytes) := rcv.text 10

def highSecurity (rcv : Table) : Option UInt8 := rcv.number 12 0 getUint8

def redirectCollector (rcv : Table) : Option (Option Bytes) := rcv.text 14

def environment (rcv : Table) : Option (Option Bytes) := rcv.text 16

def settings (rcv : Table) : Option (Option Bytes) := rcv.text 18

def labels (rcv : Table) : Option (Option Bytes) := rcv.text 20

def displayHost (rcv : Table) : Option (Option Bytes) := rcv.text 22

def securityPolicyToken (rcv : Table) : Option (Option Bytes) := rcv.text 24

def supportedSecurityPolicies (rcv : Table) : Option (Option Bytes) := rcv.text 26

def host (rcv : Table) : Option (Option Bytes) := rcv.text 28

end App

namespace Event

def data (rcv : Table) : Option (Option Bytes) := rcv.text 4

end Event

namespace Error

def priority (rcv : Table) : Option UInt32 := rcv.number 4 0 getUint32

def data (rcv : Table) : Option (Option Bytes) := rcv.text 6

end Error

namespace MetricData

def count (rcv : Table) : Option Float := rcv.get getFloat64 (rcv.pos + 0)

def total (rcv : Table) : Option Float := rcv.get getFloat64 (rcv.pos + 8)

def exclusive (rcv : Table) : Option Float := rcv.get getFloat64 (rcv.pos + 16)

def min (rcv : Table) : Option Float := rcv.get getFloat64 (rcv.pos + 24)

def max (rcv : Table) : Option Float := rcv.get getFloat64 (rcv.pos + 32)

def sumSquares (rcv : Table) : Option Float := rcv.get getFloat64 (rcv.pos + 40)

/-- `Scoped`. -/
def isScoped (rcv : Table) : Option UInt8 := rcv.get getUint8 (rcv.pos + 48)

def forced (rcv : Table) : Option UInt8 := rcv.get getUint8 (rcv.pos + 49)

end MetricData

namespace Metric

def name (rcv : Table) : Option (Option Bytes) := rcv.text 4

/-- `obj` afterwards. -/
def data (rcv obj : Table) : Option Table := rcv.inline 6 obj

end Metric

namespace SlowSQL

def id (rcv : Table) : Option UInt32 := rcv.number 4 0 getUint32

def count (rcv : Table) : Option UInt32 := rcv.number 6 0 getUint32

def totalMicros (rcv : Table) : Option UInt64 := rcv.number 8 0 getUint64

def minMicros (rcv : Table) : Option UInt64 := rcv.number 10 0 getUint64

def maxMicros (rcv : Table) : Option UInt64 := rcv.number 12 0 getUint64

def metric (rcv : Table) : Option (Option Bytes) := rcv.text 14

def query (rcv : Table) : Option (Option Bytes) := rcv.text 16

def params (rcv : Table) : Option (Option Bytes) := rcv.text 18

end SlowSQL

namespace Trace

def timestamp (rcv : Table) : Option Float := rcv.number 4 0 getFloat64

def duration (rcv : Table) : Option Float := rcv.number 6 0 getFloat64

def guid (rcv : Table) : Option (Option Bytes) := rcv.text 8

def forcePersist (rcv : Table) : Option UInt8 := rcv.number 10 0 getUint8

def data (rcv : Table) : Option (Option Bytes) := rcv.text 12

end Trace

namespace Transaction

def name (rcv : Table) : Option (Option Bytes) := rcv.text 4

def uri (rcv : Table) : Option (Option Bytes) := rcv.text 6

def syntheticsResourceId (rcv : Table) : Option (Option Bytes) := rcv.text 8

def pid (rcv : Table) : Option UInt32 := rcv.number 10 0 getUint32

def txnEvent (rcv : Table) : Option (Option Table) := rcv.child 12

/-- `obj` afterwards, as for the other vectors. -/
def metrics (rcv obj : Table) (j : ℕ) : Option Table := rcv.element 14 obj j

def metricsLength (rcv : Table) : Option ℕ := rcv.length 14

def errors (rcv obj : Table) (j : ℕ) : Option Table := rcv.element 16 obj j

def errorsLength (rcv : Table) : Option ℕ := rcv.length 16

def slowSqls (rcv obj : Table) (j : ℕ) : Option Table := rcv.element 18 obj j

def slowSqlsLength (rcv : Table) : Option ℕ := rcv.length 18

def customEvents (rcv obj : Table) (j : ℕ) : Option Table := rcv.element 20 obj j

def customEventsLength (rcv : Table) : Option ℕ := rcv.length 20

def trace (rcv : Table) : Option (Option Table) := rcv.child 22

def errorEvents (rcv obj : Table) (j : ℕ) : Option Table := rcv.element 24 obj j

def errorEventsLength (rcv : Table) : Option ℕ := rcv.length 24

def samplingPriority (rcv : Table) : Option Float := rcv.number 26 0 getFloat64

def spanEvents (rcv obj : Table) (j : ℕ) : Option Table := rcv.element 28 obj j

def spanEventsLength (rcv : Table) : Option ℕ := rcv.length 28

end Transaction

/-! ### The schema

The tables of `protocol.fbs`; a field is given by its place in the vtable. -/

namespace Schema

def app : Verifier := .table
  [(4, .text), (6, .text), (8, .text), (10, .text), (12, .number 1), (14, .text), (16, .text),
    (18, .text), (20, .text), (22, .text), (24, .text), (26, .text), (28, .text)]

def event : Verifier := .table [(4, .text)]

def error : Verifier := .table [(4, .number 4), (6, .text)]

/-- Without the six bytes that only pad it. -/
def metricData : Verifier := .number 50

def metric : Verifier := .table [(4, .text), (6, metricData)]

def slowSQL : Verifier := .table
  [(4, .number 4), (6, .number 4), (8, .number 8), (10, .number 8), (12, .number 8), (14, .text),
    (16, .text), (18, .text)]

def trace : Verifier := .table
  [(4, .number 8), (6, .number 8), (8, .text), (10, .number 1), (12, .text)]

def transaction : Verifier := .table
  [(4, .text), (6, .text), (8, .text), (10, .number 4), (12, .child event),
    (14, .vector metric), (16, .vector error), (18, .vector slowSQL), (20, .vector event),
    (22, .child trace), (24, .vector event), (26, .number 8), (28, .vector event)]

end Schema

end AxiomDaemon.Protocol

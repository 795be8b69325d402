import Mathlib.Data.Nat.Notation

/-!
The options of a transaction, `nrtxnopt_t` in `nr_txn.h`. Those that the code
only asks for being zero or not are Booleans; times are in microseconds.
-/

namespace AxiomDaemon.Axiom

/-- `nr_tt_recordsql_t`. -/
inductive NrTtRecordsql
  | none
  | raw
  | obfuscated
  deriving DecidableEq, Repr

/-- `nrtxnopt_t`. -/
structure Nrtxnopt where
  customEventsEnabled : Bool
  syntheticsEnabled : Bool
  instanceReportingEnabled : Bool
  databaseNameReportingEnabled : Bool
  errEnabled : Bool
  requestParamsEnabled : Bool
  autorumEnabled : Bool
  analyticsEventsEnabled : Bool
  errorEventsEnabled : Bool
  ttEnabled : Bool
  epEnabled : Bool
  ttRecordsql : NrTtRecordsql
  ttSlowsql : Bool
  apdexT : UInt64
  ttThreshold : UInt64
  ttIsApdexF : Bool
  epThreshold : UInt64
  ssThreshold : UInt64
  crossProcessEnabled : Bool
  allowRawExceptionMessages : Bool
  customParametersEnabled : Bool
  distributedTracingEnabled : Bool
  spanEventsEnabled : Bool
  maxSpanEvents : UInt64
  discountMainContextBlocking : Bool
  deriving DecidableEq, Repr

/-- `nr_txn_test_options`. -/
def nrTxnTestOptions : Nrtxnopt :=
  { customEventsEnabled := false
    syntheticsEnabled := false
    instanceReportingEnabled := true
    databaseNameReportingEnabled := true
    errEnabled := true
    requestParamsEnabled := false
    autorumEnabled := true
    analyticsEventsEnabled := true
    errorEventsEnabled := true
    ttEnabled := true
    epEnabled := true
    ttRecordsql := .obfuscated
    ttSlowsql := true
    apdexT := 500000
    ttThreshold := 2000000
    ttIsApdexF := true
    epThreshold := 500000
    ssThreshold := 500000
    crossProcessEnabled := true
    allowRawExceptionMessages := false
    customParametersEnabled := false
    distributedTracingEnabled := false
    spanEventsEnabled := false
    maxSpanEvents := 0
    discountMainContextBlocking := false }

end AxiomDaemon.Axiom

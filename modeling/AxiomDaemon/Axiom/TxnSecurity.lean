import AxiomDaemon.Axiom.TxnOptions
import AxiomDaemon.Util.Reply

/-!
The options that a transaction starts with, `nr_txn_begin` and
`nr_txn_enforce_security_settings`: the local ones, less what the limits, the
reply to the connect and the security policies of the application turn off.
-/

namespace AxiomDaemon.Axiom

open AxiomDaemon.Lib AxiomDaemon.Util

/-- `nr_app_limits_t`. -/
structure NrAppLimits where
  analyticsEvents : ℤ
  customEvents : ℤ
  errorEvents : ℤ
  spanEvents : ℤ
  deriving DecidableEq

/-- What `nr_txn_begin` reads of an `nrapp_t` that is connected. `apdexT` is what
the reply has for it, in microseconds. -/
structure SecuredApp where
  connectReply : Option NrObj
  securityPolicies : Option NrObj
  securityPoliciesToken : Option Bytes
  highSecurity : Bool
  limits : NrAppLimits
  apdexT : UInt64

/-- What the policy on SQL statements makes of how they are recorded. -/
def enforceRecordSql (secPolicies : Option NrObj) (level : NrTtRecordsql) : NrTtRecordsql :=
  let recordSql := nrReplyGetBool secPolicies (ascii "record_sql") 2
  if recordSql = 0 then .none
  else if recordSql = 1 ∧ level = .raw then .obfuscated
  else level

/-- The reply or the policies turn something off. -/
def turnsOff (reply : Option NrObj) (name : String) (dflt : ℤ) : Bool :=
  nrReplyGetBool reply (ascii name) dflt = 0

/-- `nr_txn_enforce_security_settings`. -/
def nrTxnEnforceSecuritySettings (opts : Nrtxnopt) (connectReply secPolicies : Option NrObj) :
    Nrtxnopt :=
  -- a policy that is not there is neither 0 nor 1
  let opts := { opts with ttRecordsql := enforceRecordSql secPolicies opts.ttRecordsql }
  let opts :=
    if turnsOff secPolicies "allow_raw_exception_messages" 2 then
      { opts with allowRawExceptionMessages := false } else opts
  let opts :=
    if turnsOff secPolicies "custom_events" 2 then { opts with customEventsEnabled := false }
    else opts
  let opts :=
    if turnsOff secPolicies "custom_parameters" 2 then
      { opts with customParametersEnabled := false } else opts
  let opts :=
    if turnsOff connectReply "collect_analytics_events" 1 then
      { opts with analyticsEventsEnabled := false } else opts
  let opts :=
    if turnsOff connectReply "collect_custom_events" 1 then
      { opts with customEventsEnabled := false } else opts
  let opts :=
    if turnsOff connectReply "collect_traces" 0 then
      { opts with ttEnabled := false, epEnabled := false, ttSlowsql := false } else opts
  let opts :=
    if turnsOff connectReply "collect_errors" 0 then { opts with errEnabled := false } else opts
  if turnsOff connectReply "collect_error_events" 1 then
    { opts with errorEventsEnabled := false } else opts

/-- The options of a new transaction. -/
def beginOptions (app : SecuredApp) (opts : Nrtxnopt) : Nrtxnopt :=
  let opts := { opts with apdexT := app.apdexT }
  let opts := if opts.ttIsApdexF then { opts with ttThreshold := 4 * opts.apdexT } else opts
  let opts :=
    { opts with
      analyticsEventsEnabled := opts.analyticsEventsEnabled && app.limits.analyticsEvents ≠ 0
      customEventsEnabled := opts.customEventsEnabled && app.limits.customEvents ≠ 0
      errorEventsEnabled := opts.errorEventsEnabled && app.limits.errorEvents ≠ 0
      spanEventsEnabled := opts.spanEventsEnabled && app.limits.spanEvents ≠ 0 }
  let opts := nrTxnEnforceSecuritySettings opts app.connectReply app.securityPolicies
  if app.securityPoliciesToken.getD [] ≠ [] then { opts with requestParamsEnabled := false }
  else opts

end AxiomDaemon.Axiom

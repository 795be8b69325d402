import Mathlib.Data.List.Basic
import Mathlib.Algebra.Group.Int.Defs

/-!
Applications as the daemon keeps them (`app.go`), and the errors of a request
to the collector as far as the processor tells them apart
(`collector/client.go`).

Times are nanoseconds since the zero `time.Time`, so the zero value of a time
field is 0. The hash of an agent's supported policies stands for the policies:
the key of an application holds nothing else of them.
-/

namespace AxiomDaemon.Daemon

/-- `AgentRunID`: the collector's name for one connection of an application. -/
abbrev AgentRunID := String

inductive AppState
  | unknown
  | connected
  | invalidLicense
  | disconnected
  | invalidSecurityPolicies
deriving DecidableEq, Repr

/-- `AppKey`: uniquely identifies an application. -/
structure AppKey where
  license : String
  appname : String
  redirectCollector : String
  highSecurity : Bool
  agentLanguage : String
  agentPolicies : String
  agentHostname : String
deriving DecidableEq, Repr

/-- What an agent says about its application, as far as the key reads it. -/
structure AppInfo where
  license : String
  appname : String
  agentLanguage : String
  highSecurity : Bool
  redirectCollector : String
  supportedPoliciesHash : String
  hostname : String
deriving DecidableEq, Repr

def AppInfo.key (info : AppInfo) : AppKey where
  license := info.license
  appname := info.appname
  redirectCollector := info.redirectCollector
  highSecurity := info.highSecurity
  agentLanguage := info.agentLanguage
  agentPolicies := info.supportedPoliciesHash
  agentHostname := info.hostname

/-- `App`. Of the connect reply only the run id is kept; it is `none` until
the first successful connect. -/
structure App where
  state : AppState
  lastConnectAttempt : Int
  info : AppInfo
  connectReplyID : Option AgentRunID
  lastActivity : Int
deriving DecidableEq, Repr

def App.key (app : App) : AppKey := app.info.key

/-- `NewApp`. -/
def newApp (info : AppInfo) (now : Int) : App where
  state := .unknown
  lastConnectAttempt := 0
  info := info
  connectReplyID := none
  lastActivity := now

/-- `Time.Sub`: the result is a 64-bit number of nanoseconds and saturates. -/
def timeSub (t u : Int) : Int := max (-2 ^ 63) (min (2 ^ 63 - 1) (t - u))

/-- `NeedsConnectAttempt`. -/
def App.needsConnectAttempt (app : App) (now backoff : Int) : Bool :=
  if app.state ≠ .unknown then false
  else decide (timeSub now app.lastConnectAttempt ≥ backoff)

/-- `Inactive`. -/
def App.inactive (app : App) (now threshold : Int) : Bool :=
  decide (timeSub now app.lastActivity > threshold)

/-! ### Errors of a request -/

/-- An error returned by `Client.Execute`. -/
inductive CollectorError
  | rpmException (errorType : String)
  | payloadTooLarge
  | unsupportedMedia
  | other
deriving DecidableEq, Repr

def CollectorError.hasType (e : CollectorError) (expected : String) : Bool :=
  match e with
  | .rpmException errorType => errorType == expected
  | _ => false

def forceRestartType : String := "NewRelic::Agent::ForceRestartException"
def disconnectType : String := "NewRelic::Agent::ForceDisconnectException"
def licenseInvalidType : String := "NewRelic::Agent::LicenseException"

def CollectorError.isRestartException (e : CollectorError) : Bool := e.hasType forceRestartType
def CollectorError.isLicenseException (e : CollectorError) : Bool := e.hasType licenseInvalidType
def CollectorError.isDisconnect (e : CollectorError) : Bool := e.hasType disconnectType

end AxiomDaemon.Daemon

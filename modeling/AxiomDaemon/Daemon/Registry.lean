import Mathlib.Data.List.AList
import AxiomDaemon.Daemon.App
import AxiomDaemon.Lib.Transition

/-!
The registry of the daemon's processor: the applications it knows, the run
ids that are live, and the messages its `Run` loop takes (`processor.go`).

An application is reached by pointer from both maps, so applications live in
a heap and the maps hold references. The loop handles one message at a time;
what runs beside it are the goroutines that connect an application and the
ones that forward the triggers of a harvest. Both are part of the state: an
attempt under way for every connect that has not been answered, and a trigger
for every `AppHarvest` ever made, because one may already have been sent when
its harvest is closed.
-/

namespace AxiomDaemon.Daemon

open AxiomDaemon.Lib

abbrev AppRef := Nat

/-- `AppHarvest`, without the data: what is harvested is modelled apart. -/
structure AppHarvest where
  app : AppRef
deriving DecidableEq, Repr

structure ProcessorConfig where
  appTimeout : Int
  appConnectBackoff : Int

/-- `limits.AppLimit`. -/
def appLimit : Nat := 250

/-- `limits.AppConnectAttemptBackoff`, in nanoseconds. -/
def appConnectAttemptBackoff : Int := 30 * 10 ^ 9

/-- `Processor`. The fields after `util` are the heap the references point
into, the clock, and the goroutines under way. -/
structure Processor where
  apps : AList fun _ : AppKey => AppRef
  harvests : AList fun _ : AgentRunID => AppHarvest
  util : Bool
  heap : AppRef → App
  next : AppRef
  now : Int
  connecting : List AppKey
  triggers : List (AgentRunID × AppHarvest)

/-- The reply to an app-info query; of the raw connect reply the run id. -/
structure AppInfoReply where
  state : AppState
  runIDValid : Bool
  connectReplyID : Option AgentRunID
deriving DecidableEq, Repr

/-- The messages of the `Run` loop. A connect result names the attempt it
answers, a harvest the `AppHarvest` whose trigger fired. -/
inductive Message
  | elapse (d : Nat)
  | util
  | appInfo (id : Option AgentRunID) (info : AppInfo)
  | connectAttempt (i : Nat) (rep : Except CollectorError AgentRunID)
  | harvest (i : Nat)
  | harvestError (id : AgentRunID) (err : CollectorError)
  | txnData (id : AgentRunID)

namespace Processor

/-- `NewProcessor`. The heap is read at allocated references only. -/
def new (unallocated : App) : Processor where
  apps := ∅
  harvests := ∅
  util := false
  heap := fun _ => unallocated
  next := 0
  now := 0
  connecting := []
  triggers := []

/-- Assignments through a pointer to an application. -/
def modifyApp (p : Processor) (a : AppRef) (f : App → App) : Processor :=
  { p with heap := Function.update p.heap a (f (p.heap a)) }

/-- `processTxnData`, as far as the registry goes. -/
def processTxnData (p : Processor) (id : AgentRunID) : Processor :=
  match p.harvests.lookup id with
  | none => p
  | some h => p.modifyApp h.app fun app => { app with lastActivity := p.now }

def shutdownAppHarvest (p : Processor) (id : AgentRunID) : Processor :=
  if (p.harvests.lookup id).isSome then { p with harvests := p.harvests.erase id } else p

def shouldConnect (cfg : ProcessorConfig) (p : Processor) (a : AppRef) : Bool :=
  if !p.util then false
  else if !(p.heap a).needsConnectAttempt p.now cfg.appConnectBackoff then false
  else true

/-- `considerConnect`: the attempt itself runs in a goroutine and is answered
by a later message. -/
def considerConnect (cfg : ProcessorConfig) (p : Processor) (a : AppRef) : Processor :=
  if !shouldConnect cfg p a then p
  else
    { p.modifyApp a fun app => { app with lastConnectAttempt := p.now } with
      connecting := p.connecting ++ [(p.heap a).key] }

/-- Registers a new application under its key. -/
def addApp (p : Processor) (info : AppInfo) : Processor :=
  { p with
    heap := Function.update p.heap p.next (newApp info p.now)
    next := p.next + 1
    apps := p.apps.insert info.key p.next }

/-- The reply that `processAppInfo` sends for an application, before it
considers connecting it. -/
def appInfoReply (app : App) : AppInfoReply where
  state := app.state
  runIDValid := false
  connectReplyID := if app.state = .connected then app.connectReplyID else none

def processAppInfo (cfg : ProcessorConfig) (p : Processor) (id : Option AgentRunID)
    (info : AppInfo) : Processor × AppInfoReply :=
  if id.any fun r => (p.harvests.lookup r).isSome then
    (p, { state := .unknown, runIDValid := true, connectReplyID := none })
  else
    match p.apps.lookup info.key with
    | some a =>
        let p := p.modifyApp a fun app => { app with lastActivity := p.now }
        (considerConnect cfg p a, appInfoReply (p.heap a))
    | none =>
        if p.apps.entries.length > appLimit then
          (p, { state := .unknown, runIDValid := false, connectReplyID := none })
        else
          (considerConnect cfg (p.addApp info) p.next, appInfoReply (newApp info p.now))

/-- The state a failed connect attempt leaves the application in. -/
def connectErrorState (err : CollectorError) : AppState :=
  if err.isDisconnect then .disconnected
  else if err.isLicenseException then .invalidLicense
  else .unknown

/-- What a successful connect attempt with run id `id` does to the application
`a`: `NewAppHarvest` also starts the goroutine that forwards its triggers. -/
def connectApp (p : Processor) (a : AppRef) (id : AgentRunID) : Processor :=
  { p.modifyApp a fun app => { app with state := .connected, connectReplyID := some id } with
    harvests := p.harvests.insert id ⟨a⟩
    triggers := p.triggers ++ [(id, ⟨a⟩)] }

/-- `processConnectAttempt`: the result is applied to the application that is
registered under the key by now. -/
def processConnectAttempt (p : Processor) (key : AppKey)
    (rep : Except CollectorError AgentRunID) : Processor :=
  match p.apps.lookup key with
  | none => p
  | some a =>
      match rep with
      | .error err => p.modifyApp a fun app => { app with state := connectErrorState err }
      | .ok id => p.connectApp a id

/-- The condition under which `doHarvest` removes the application. -/
def removes (cfg : ProcessorConfig) (p : Processor) (a : AppRef) : Bool :=
  decide (cfg.appTimeout > 0) && (p.heap a).inactive p.now cfg.appTimeout

/-- `doHarvest`, as far as the registry goes. -/
def doHarvest (cfg : ProcessorConfig) (p : Processor) (id : AgentRunID) (ah : AppHarvest) :
    Processor :=
  if removes cfg p ah.app then
    { shutdownAppHarvest p id with apps := p.apps.erase (p.heap ah.app).key }
  else p

/-- `processHarvestError`, as far as the registry goes. -/
def processHarvestError (cfg : ProcessorConfig) (p : Processor) (id : AgentRunID)
    (err : CollectorError) : Processor :=
  match p.harvests.lookup id with
  | none => p
  | some h =>
      if err.isDisconnect then
        (p.modifyApp h.app fun app => { app with state := .disconnected }).shutdownAppHarvest id
      else if err.isLicenseException then
        (p.modifyApp h.app fun app => { app with state := .invalidLicense }).shutdownAppHarvest id
      else if err.isRestartException then
        considerConnect cfg
          ((p.modifyApp h.app fun app => { app with state := .unknown }).shutdownAppHarvest id)
          h.app
      else p

/-- One turn of the `Run` loop. -/
def step (cfg : ProcessorConfig) (p : Processor) : Message → Processor
  | .elapse d => { p with now := p.now + d }
  | .util => { p with util := true }
  | .appInfo id info => (processAppInfo cfg p id info).1
  | .connectAttempt i rep =>
      match p.connecting[i]? with
      | none => p
      | some key => { p with connecting := p.connecting.eraseIdx i }.processConnectAttempt key rep
  | .harvest i =>
      match p.triggers[i]? with
      | none => p
      | some (id, ah) => doHarvest cfg p id ah
  | .harvestError id err => processHarvestError cfg p id err
  | .txnData id => processTxnData p id

end Processor

end AxiomDaemon.Daemon

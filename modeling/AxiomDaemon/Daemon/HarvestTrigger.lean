import AxiomDaemon.Daemon.Harvest
import AxiomDaemon.Lib.Channel

/-!
The trigger of an application's harvests and how it is cancelled
(`app_harvest.go`, `harvest_trigger.go`).

`NewAppHarvest` starts a goroutine that forwards what the trigger sends to the
processor, and one that runs the trigger. A trigger of one period is a goroutine
with a ticker. Where the periods differ the trigger starts five of these, the
members of a group, and a goroutine that passes a cancellation on to them, one
after the other. `Close` sends the cancellation, waits for its confirmation on
the same channel, and closes the channels.

Every goroutine is a program over its own places, and the order of their steps is
free. The stage of the cancellation, which the places of the owner and of the
group's own goroutines tell, determines how far each member is: that is the
invariant.
-/

namespace AxiomDaemon.Daemon

open AxiomDaemon.Lib

namespace AppHarvest

/-! ### The goroutines -/

/-- A harvest trigger function: `triggerBuilder` with its type, or what
`customTriggerBuilder` makes of the types of its members. -/
inductive HarvestTrigger
  | triggerBuilder (t : HarvestType)
  | group (ts : List HarvestType)

/-- `customTriggerBuilder`. -/
def customTriggerBuilder : HarvestTrigger :=
  .group [harvestDefaultData, harvestTxnEvents, harvestCustomEvents, harvestErrorEvents,
    harvestSpanEvents]

/-- `getHarvestTrigger`, of whether the reply asks for one period for all data. -/
def getHarvestTrigger (isHarvestAll : Bool) : HarvestTrigger :=
  if isHarvestAll then .triggerBuilder harvestAllTypes else customTriggerBuilder

/-- The owner makes the `AppHarvest` and closes it. -/
inductive Goroutine
  | owner
  | forwarder
  | processor
  | starter
  | broadcaster
  | member (k : ℕ)
  deriving DecidableEq

inductive Chan
  | trigger
  | cancel
  | member (k : ℕ)
  | processor
  deriving DecidableEq

inductive Message
  | harvest (t : HarvestType)
  | flag (b : Bool)
  deriving DecidableEq

/-- Before the two `go` statements of `NewAppHarvest`, after them, and before the
statements of `Close`. -/
inductive OwnerAt
  | startForwarder
  | startTrigger
  | made
  | sendCancel
  | awaitConfirmation
  | closeTrigger
  | closeCancel
  | returned
  deriving DecidableEq

inductive ForwarderAt
  | unborn
  | range
  | forward (m : Message)
  | done

/-- The function that `customTriggerBuilder` returns: it has started `k` members. -/
inductive StarterAt
  | unborn
  | started (k : ℕ)
  | done
  deriving DecidableEq

/-- It listens for the cancellation, sends it to member `k`, or waits for the
confirmation of member `k`. -/
inductive BroadcasterAt
  | unborn
  | listen
  | tell (k : ℕ)
  | hear (k : ℕ)
  | done
  deriving DecidableEq

/-- `pending`: a tick lies in the channel of the ticker, which has room for one. -/
inductive MemberAt
  | unborn
  | select (pending : Bool)
  | sendTrigger (pending : Bool)
  | confirm
  | done
  deriving DecidableEq

abbrev Place : Goroutine → Type
  | .owner => OwnerAt
  | .forwarder => ForwarderAt
  | .processor => Unit
  | .starter => StarterAt
  | .broadcaster => BroadcasterAt
  | .member _ => MemberAt

abbrev Statements (i : Goroutine) : Type := List (Action Chan Message Place i)

/-- `NewAppHarvest`, and `Close` at any time after it. -/
def ownerProgram (w : HarvestTrigger) : OwnerAt → Statements .owner
  | .startForwarder => [.go .forwarder ForwarderAt.range OwnerAt.startTrigger]
  | .startTrigger =>
      match w with
      | .triggerBuilder _ => [.go (.member 0) (MemberAt.select false) OwnerAt.made]
      | .group _ => [.go .starter (StarterAt.started 0) OwnerAt.made]
  | .made => [.move OwnerAt.sendCancel]
  | .sendCancel => [.send .cancel (.flag true) OwnerAt.awaitConfirmation]
  | .awaitConfirmation => [.receive .cancel fun _ => OwnerAt.closeTrigger]
  | .closeTrigger => [.close .trigger OwnerAt.closeCancel]
  | .closeCancel => [.close .cancel OwnerAt.returned]
  | .returned => []

/-- `for t := range ah.trigger`. -/
def forwarderProgram : ForwarderAt → Statements .forwarder
  | .unborn => []
  | .range => [.receive .trigger fun m => m.elim ForwarderAt.done ForwarderAt.forward]
  | .forward m => [.send .processor m ForwarderAt.range]
  | .done => []

/-- A processor that keeps receiving. -/
def processorProgram : Unit → Statements .processor :=
  fun _ => [.receive .processor fun _ => ()]

def starterProgram (ts : List HarvestType) : StarterAt → Statements .starter
  | .unborn => []
  | .started k =>
      if k < ts.length then [.go (.member k) (MemberAt.select false) (StarterAt.started (k + 1))]
      else [.go .broadcaster BroadcasterAt.listen StarterAt.done]
  | .done => []

def broadcasterProgram (ts : List HarvestType) : BroadcasterAt → Statements .broadcaster
  | .unborn => []
  | .listen => [.receive .cancel fun _ => BroadcasterAt.tell 0]
  | .tell k =>
      if k < ts.length then [.send (.member k) (.flag true) (BroadcasterAt.hear k)]
      else [.send .cancel (.flag true) BroadcasterAt.done]
  | .hear k => [.receive (.member k) fun _ => BroadcasterAt.tell (k + 1)]
  | .done => []

/-- The function that `triggerBuilder` returns, run with the channel `c` for its cancellation. A tick
that finds the channel of the ticker full is dropped. -/
def triggerProgram (k : ℕ) (t : HarvestType) (c : Chan) : MemberAt → Statements (.member k)
  | .unborn => []
  | .select true =>
      [.move (MemberAt.sendTrigger false), .receive c fun _ => MemberAt.confirm]
  | .select false =>
      [.tick (MemberAt.select true), .receive c fun _ => MemberAt.confirm]
  | .sendTrigger true => [.send .trigger (.harvest t) (MemberAt.select true)]
  | .sendTrigger false =>
      [.tick (MemberAt.sendTrigger true), .send .trigger (.harvest t) (MemberAt.select false)]
  | .confirm => [.send c (.flag true) MemberAt.done]
  | .done => []

/-- A trigger of one period runs by itself, with the channel of `Close`; the members of a
group have a channel each. -/
def program (w : HarvestTrigger) : (i : Goroutine) → Place i → Statements i
  | .owner => ownerProgram w
  | .forwarder => forwarderProgram
  | .processor => processorProgram
  | .starter =>
      match w with
      | .triggerBuilder _ => fun _ => []
      | .group ts => starterProgram ts
  | .broadcaster =>
      match w with
      | .triggerBuilder _ => fun _ => []
      | .group ts => broadcasterProgram ts
  | .member k =>
      match w with
      | .triggerBuilder t => if k = 0 then triggerProgram k t .cancel else fun _ => []
      | .group ts => triggerProgram k (ts.getD k 0) (.member k)

def unbornPlace : (i : Goroutine) → Place i
  | .owner => OwnerAt.startForwarder
  | .forwarder => ForwarderAt.unborn
  | .processor => ()
  | .starter => StarterAt.unborn
  | .broadcaster => BroadcasterAt.unborn
  | .member _ => MemberAt.unborn

abbrev State : Type := Net Chan Place

/-- `NewAppHarvest` is called. -/
def start : State where
  place := unbornPlace
  closed := fun _ => false

def HarvestTrigger.members : HarvestTrigger → ℕ
  | .triggerBuilder _ => 1
  | .group ts => ts.length

example : (getHarvestTrigger true).members = 1 ∧ (getHarvestTrigger false).members = 5 :=
  ⟨rfl, rfl⟩

/-- The channel over which a member is cancelled. -/
def HarvestTrigger.cancelOf : HarvestTrigger → ℕ → Chan
  | .triggerBuilder _, _ => .cancel
  | .group _, k => .member k

/-! ### How far the cancellation is -/

/-- How far a member is. -/
inductive Phase
  | unborn
  | live
  | confirming
  | done
  deriving DecidableEq

def MemberAt.phase : MemberAt → Phase
  | .unborn => .unborn
  | .select _ => .live
  | .sendTrigger _ => .live
  | .confirm => .confirming
  | .done => .done

/-- The phase of a trigger of one period, which is cancelled by the owner. -/
def singlePhase : OwnerAt → Phase
  | .startForwarder => .unborn
  | .startTrigger => .unborn
  | .made => .live
  | .sendCancel => .live
  | .awaitConfirmation => .confirming
  | .closeTrigger => .done
  | .closeCancel => .done
  | .returned => .done

/-- The phase of member `k` of a group: members are started, and cancelled, in their
order. -/
def groupPhase (k : ℕ) : StarterAt → BroadcasterAt → Phase
  | .unborn, _ => .unborn
  | .started j, _ => if k < j then .live else .unborn
  | .done, .unborn => .live
  | .done, .listen => .live
  | .done, .tell j => if k < j then .done else .live
  | .done, .hear j => if k < j then .done else if k = j then .confirming else .live
  | .done, .done => .done

/-- The places of the group's own goroutines while the owner is at a place. -/
def groupFits (n : ℕ) : OwnerAt → StarterAt → BroadcasterAt → Prop
  | .startForwarder, st, b => st = .unborn ∧ b = .unborn
  | .startTrigger, st, b => st = .unborn ∧ b = .unborn
  | .made, .started j, b => j ≤ n ∧ b = .unborn
  | .made, st, b => st = .done ∧ b = .listen
  | .sendCancel, .started j, b => j ≤ n ∧ b = .unborn
  | .sendCancel, st, b => st = .done ∧ b = .listen
  | .awaitConfirmation, st, b => st = .done ∧ ((∃ j ≤ n, b = .tell j) ∨ ∃ j < n, b = .hear j)
  | .closeTrigger, st, b => st = .done ∧ b = .done
  | .closeCancel, st, b => st = .done ∧ b = .done
  | .returned, st, b => st = .done ∧ b = .done

section Fits

variable {n k : ℕ} {o : OwnerAt} {st : StarterAt} {b : BroadcasterAt}

theorem groupFits_started :
    groupFits n o (.started k) b ↔ (o = .made ∨ o = .sendCancel) ∧ k ≤ n ∧ b = .unborn := by
  cases o <;> simp [groupFits]

theorem groupFits_listen :
    groupFits n o st .listen ↔ (o = .made ∨ o = .sendCancel) ∧ st = .done := by
  cases o <;> cases st <;> simp [groupFits]

theorem groupFits_tell :
    groupFits n o st (.tell k) ↔ o = .awaitConfirmation ∧ st = .done ∧ k ≤ n := by
  cases o <;> cases st <;> simp [groupFits]

theorem groupFits_hear :
    groupFits n o st (.hear k) ↔ o = .awaitConfirmation ∧ st = .done ∧ k < n := by
  cases o <;> cases st <;> simp [groupFits]

end Fits

/-- The phase that a member has to be in. -/
def memberPhase (w : HarvestTrigger) (s : State) (k : ℕ) : Phase :=
  match w with
  | .triggerBuilder _ => if k = 0 then singlePhase (s.place .owner) else .unborn
  | .group ts =>
      if k < ts.length then groupPhase k (s.place .starter) (s.place .broadcaster) else .unborn

def closesTrigger : OwnerAt → Bool
  | .closeCancel => true
  | .returned => true
  | _ => false

def closesCancel : OwnerAt → Bool
  | .returned => true
  | _ => false

structure Staged (w : HarvestTrigger) (s : State) : Prop where
  phases : ∀ k, MemberAt.phase (s.place (.member k)) = memberPhase w s k
  group : ∀ ts, w = .group ts →
    groupFits ts.length (s.place .owner) (s.place .starter) (s.place .broadcaster)
  forwarder : s.place .owner ≠ OwnerAt.startForwarder → s.place .forwarder ≠ ForwarderAt.unborn
  drained : s.place .forwarder = ForwarderAt.done → s.closed .trigger = true
  trigger : s.closed .trigger = closesTrigger (s.place .owner)
  cancel : s.closed .cancel = closesCancel (s.place .owner)
  others : ∀ k, s.closed (.member k) = false
  processor : s.closed .processor = false

theorem staged_start (w : HarvestTrigger) : Staged w start where
  phases := by
    intro k
    cases w with
    | triggerBuilder t => exact (ite_self Phase.unborn).symm
    | group ts => exact (ite_self Phase.unborn).symm
  group := fun _ _ => ⟨rfl, rfl⟩
  forwarder := fun h => absurd rfl h
  drained := fun h => nomatch h
  trigger := rfl
  cancel := rfl
  others := fun _ => rfl
  processor := rfl

/-! ### What a step can be -/

abbrev Event : Type := NetEvent Goroutine Chan Message

/-- The steps that there are while the cancellation is staged. -/
inductive TriggerStep (w : HarvestTrigger) (s : State) : Event → State → Prop
  | startForwarder (h : s.place .owner = OwnerAt.startForwarder) :
      TriggerStep w s (.go .owner .forwarder)
        ((s.goto .owner OwnerAt.startTrigger).goto .forwarder ForwarderAt.range)
  | startSingle {t : HarvestType} (hw : w = .triggerBuilder t)
      (h : s.place .owner = OwnerAt.startTrigger) :
      TriggerStep w s (.go .owner (.member 0))
        ((s.goto .owner OwnerAt.made).goto (.member 0) (MemberAt.select false))
  | startGroup {ts : List HarvestType} (hw : w = .group ts)
      (h : s.place .owner = OwnerAt.startTrigger) :
      TriggerStep w s (.go .owner .starter)
        ((s.goto .owner OwnerAt.made).goto .starter (StarterAt.started 0))
  | startMember {ts : List HarvestType} {k : ℕ} (hw : w = .group ts)
      (h : s.place .starter = StarterAt.started k) (hk : k < ts.length) :
      TriggerStep w s (.go .starter (.member k))
        ((s.goto .starter (StarterAt.started (k + 1))).goto (.member k) (MemberAt.select false))
  | startBroadcaster {ts : List HarvestType} {k : ℕ} (hw : w = .group ts)
      (h : s.place .starter = StarterAt.started k) (hk : ts.length ≤ k) :
      TriggerStep w s (.go .starter .broadcaster)
        ((s.goto .starter StarterAt.done).goto .broadcaster BroadcasterAt.listen)
  | callClose (h : s.place .owner = OwnerAt.made) :
      TriggerStep w s (.move .owner) (s.goto .owner OwnerAt.sendCancel)
  | cancelSingle {t : HarvestType} {b : Bool} (hw : w = .triggerBuilder t)
      (h : s.place .owner = OwnerAt.sendCancel)
      (hm : s.place (.member 0) = MemberAt.select b) :
      TriggerStep w s (.send .owner (.member 0) .cancel (.flag true))
        ((s.goto .owner OwnerAt.awaitConfirmation).goto (.member 0) MemberAt.confirm)
  | cancelGroup {ts : List HarvestType} (hw : w = .group ts)
      (h : s.place .owner = OwnerAt.sendCancel)
      (hb : s.place .broadcaster = BroadcasterAt.listen) :
      TriggerStep w s (.send .owner .broadcaster .cancel (.flag true))
        ((s.goto .owner OwnerAt.awaitConfirmation).goto .broadcaster (BroadcasterAt.tell 0))
  | tell {ts : List HarvestType} {k : ℕ} {b : Bool} (hw : w = .group ts) (hk : k < ts.length)
      (h : s.place .broadcaster = BroadcasterAt.tell k)
      (hm : s.place (.member k) = MemberAt.select b) :
      TriggerStep w s (.send .broadcaster (.member k) (.member k) (.flag true))
        ((s.goto .broadcaster (BroadcasterAt.hear k)).goto (.member k) MemberAt.confirm)
  | hear {ts : List HarvestType} {k : ℕ} (hw : w = .group ts)
      (h : s.place .broadcaster = BroadcasterAt.hear k)
      (hm : s.place (.member k) = MemberAt.confirm) :
      TriggerStep w s (.send (.member k) .broadcaster (.member k) (.flag true))
        ((s.goto (.member k) MemberAt.done).goto .broadcaster (BroadcasterAt.tell (k + 1)))
  | confirmSingle {t : HarvestType} (hw : w = .triggerBuilder t)
      (h : s.place .owner = OwnerAt.awaitConfirmation)
      (hm : s.place (.member 0) = MemberAt.confirm) :
      TriggerStep w s (.send (.member 0) .owner .cancel (.flag true))
        ((s.goto (.member 0) MemberAt.done).goto .owner OwnerAt.closeTrigger)
  | confirmGroup {ts : List HarvestType} {k : ℕ} (hw : w = .group ts) (hk : ts.length ≤ k)
      (h : s.place .owner = OwnerAt.awaitConfirmation)
      (hb : s.place .broadcaster = BroadcasterAt.tell k) :
      TriggerStep w s (.send .broadcaster .owner .cancel (.flag true))
        ((s.goto .broadcaster BroadcasterAt.done).goto .owner OwnerAt.closeTrigger)
  | take {k : ℕ} (h : s.place (.member k) = MemberAt.select true) :
      TriggerStep w s (.move (.member k)) (s.goto (.member k) (MemberAt.sendTrigger false))
  | sendTrigger {k : ℕ} {b : Bool} {t : HarvestType}
      (h : s.place (.member k) = MemberAt.sendTrigger b)
      (hf : s.place .forwarder = ForwarderAt.range) :
      TriggerStep w s (.send (.member k) .forwarder .trigger (.harvest t))
        ((s.goto (.member k) (MemberAt.select b)).goto .forwarder
          (ForwarderAt.forward (.harvest t)))
  | forward {m : Message} (h : s.place .forwarder = ForwarderAt.forward m) :
      TriggerStep w s (.send .forwarder .processor .processor m)
        ((s.goto .forwarder ForwarderAt.range).goto .processor ())
  | drain (h : s.place .forwarder = ForwarderAt.range) (hclosed : s.closed .trigger = true) :
      TriggerStep w s (.drained .forwarder .trigger) (s.goto .forwarder ForwarderAt.done)
  | closeTrigger (h : s.place .owner = OwnerAt.closeTrigger) :
      TriggerStep w s (.close .owner .trigger) ((s.goto .owner OwnerAt.closeCancel).shut .trigger)
  | closeCancel (h : s.place .owner = OwnerAt.closeCancel) :
      TriggerStep w s (.close .owner .cancel) ((s.goto .owner OwnerAt.returned).shut .cancel)
  | tickSelect {k : ℕ} (h : s.place (.member k) = MemberAt.select false) :
      TriggerStep w s (.tick (.member k)) (s.goto (.member k) (MemberAt.select true))
  | tickSend {k : ℕ} (h : s.place (.member k) = MemberAt.sendTrigger false) :
      TriggerStep w s (.tick (.member k)) (s.goto (.member k) (MemberAt.sendTrigger true))

/-- What the goroutines offer at their places. -/
inductive Offers (w : HarvestTrigger) : (i : Goroutine) → Place i → Action Chan Message Place i → Prop
  | startForwarder {p : OwnerAt} (hp : p = .startForwarder) :
      Offers w .owner p (.go .forwarder ForwarderAt.range OwnerAt.startTrigger)
  | startSingle {t : HarvestType} {p : OwnerAt} (hw : w = .triggerBuilder t)
      (hp : p = .startTrigger) :
      Offers w .owner p (.go (.member 0) (MemberAt.select false) OwnerAt.made)
  | startGroup {ts : List HarvestType} {p : OwnerAt} (hw : w = .group ts) (hp : p = .startTrigger) :
      Offers w .owner p (.go .starter (StarterAt.started 0) OwnerAt.made)
  | callClose {p : OwnerAt} (hp : p = .made) : Offers w .owner p (.move OwnerAt.sendCancel)
  | sendCancel {p : OwnerAt} (hp : p = .sendCancel) :
      Offers w .owner p (.send .cancel (.flag true) OwnerAt.awaitConfirmation)
  | awaitConfirmation {p : OwnerAt} (hp : p = .awaitConfirmation) :
      Offers w .owner p (.receive .cancel fun _ => OwnerAt.closeTrigger)
  | closeTrigger {p : OwnerAt} (hp : p = .closeTrigger) :
      Offers w .owner p (.close .trigger OwnerAt.closeCancel)
  | closeCancel {p : OwnerAt} (hp : p = .closeCancel) :
      Offers w .owner p (.close .cancel OwnerAt.returned)
  | range {p : ForwarderAt} (hp : p = .range) :
      Offers w .forwarder p
        (.receive .trigger fun m => m.elim ForwarderAt.done ForwarderAt.forward)
  | forward {p : ForwarderAt} {m : Message} (hp : p = .forward m) :
      Offers w .forwarder p (.send .processor m ForwarderAt.range)
  | process {p : Unit} : Offers w .processor p (.receive .processor fun _ => ())
  | startMember {ts : List HarvestType} {p : StarterAt} {k : ℕ} (hw : w = .group ts)
      (hp : p = .started k) (hk : k < ts.length) :
      Offers w .starter p (.go (.member k) (MemberAt.select false) (StarterAt.started (k + 1)))
  | startBroadcaster {ts : List HarvestType} {p : StarterAt} {k : ℕ} (hw : w = .group ts)
      (hp : p = .started k) (hk : ts.length ≤ k) :
      Offers w .starter p (.go .broadcaster BroadcasterAt.listen StarterAt.done)
  | listen {ts : List HarvestType} {p : BroadcasterAt} (hw : w = .group ts) (hp : p = .listen) :
      Offers w .broadcaster p (.receive .cancel fun _ => BroadcasterAt.tell 0)
  | tell {ts : List HarvestType} {p : BroadcasterAt} {k : ℕ} (hw : w = .group ts)
      (hp : p = .tell k) (hk : k < ts.length) :
      Offers w .broadcaster p (.send (.member k) (.flag true) (BroadcasterAt.hear k))
  | hear {ts : List HarvestType} {p : BroadcasterAt} {k : ℕ} (hw : w = .group ts)
      (hp : p = .hear k) :
      Offers w .broadcaster p (.receive (.member k) fun _ => BroadcasterAt.tell (k + 1))
  | broadcastDone {ts : List HarvestType} {p : BroadcasterAt} {k : ℕ} (hw : w = .group ts)
      (hp : p = .tell k) (hk : ts.length ≤ k) :
      Offers w .broadcaster p (.send .cancel (.flag true) BroadcasterAt.done)
  | take {k : ℕ} {p : MemberAt} (hp : p = .select true) :
      Offers w (.member k) p (.move (MemberAt.sendTrigger false))
  | tickSelect {k : ℕ} {p : MemberAt} (hp : p = .select false) :
      Offers w (.member k) p (.tick (MemberAt.select true))
  | tickSend {k : ℕ} {p : MemberAt} (hp : p = .sendTrigger false) :
      Offers w (.member k) p (.tick (MemberAt.sendTrigger true))
  | sendTrigger {k : ℕ} {p : MemberAt} {b : Bool} {t : HarvestType} (hp : p = .sendTrigger b) :
      Offers w (.member k) p (.send .trigger (.harvest t) (MemberAt.select b))
  | selectSingle {t : HarvestType} {p : MemberAt} {b : Bool} (hw : w = .triggerBuilder t)
      (hp : p = .select b) : Offers w (.member 0) p (.receive .cancel fun _ => MemberAt.confirm)
  | selectGroup {ts : List HarvestType} {k : ℕ} {p : MemberAt} {b : Bool} (hw : w = .group ts)
      (hp : p = .select b) :
      Offers w (.member k) p (.receive (.member k) fun _ => MemberAt.confirm)
  | confirmSingle {t : HarvestType} {p : MemberAt} (hw : w = .triggerBuilder t)
      (hp : p = .confirm) : Offers w (.member 0) p (.send .cancel (.flag true) MemberAt.done)
  | confirmGroup {ts : List HarvestType} {k : ℕ} {p : MemberAt} (hw : w = .group ts)
      (hp : p = .confirm) : Offers w (.member k) p (.send (.member k) (.flag true) MemberAt.done)

/-- The statements of a member, whatever the channel of its cancellation. -/
theorem mem_triggerProgram {k : ℕ} {t : HarvestType} {d : Chan} {p : MemberAt}
    {a : Action Chan Message Place (.member k)} (h : a ∈ triggerProgram k t d p) :
    (p = .select true ∧ a = .move (MemberAt.sendTrigger false)) ∨
      (p = .select false ∧ a = .tick (MemberAt.select true)) ∨
      (p = .sendTrigger false ∧ a = .tick (MemberAt.sendTrigger true)) ∨
      (∃ b, p = .sendTrigger b ∧ a = .send .trigger (.harvest t) (MemberAt.select b)) ∨
      (∃ b, p = .select b ∧ a = .receive d fun _ => MemberAt.confirm) ∨
      p = .confirm ∧ a = .send d (.flag true) MemberAt.done := by
  cases p with
  | select b => cases b <;> simpa [triggerProgram] using h
  | sendTrigger b => cases b <;> simpa [triggerProgram] using h
  | confirm => simpa [triggerProgram] using h
  | _ => exact absurd h List.not_mem_nil

variable {w : HarvestTrigger}

theorem offers_of_mem {i : Goroutine} {p : Place i} {a : Action Chan Message Place i}
    (h : a ∈ program w i p) : Offers w i p a := by
  cases i with
  | owner =>
      cases p with
      | startTrigger =>
          cases w with
          | triggerBuilder t => rw [List.mem_singleton.mp h]; exact .startSingle rfl rfl
          | group ts => rw [List.mem_singleton.mp h]; exact .startGroup rfl rfl
      | startForwarder => rw [List.mem_singleton.mp h]; exact .startForwarder rfl
      | made => rw [List.mem_singleton.mp h]; exact .callClose rfl
      | sendCancel => rw [List.mem_singleton.mp h]; exact .sendCancel rfl
      | awaitConfirmation => rw [List.mem_singleton.mp h]; exact .awaitConfirmation rfl
      | closeTrigger => rw [List.mem_singleton.mp h]; exact .closeTrigger rfl
      | closeCancel => rw [List.mem_singleton.mp h]; exact .closeCancel rfl
      | returned => exact absurd h List.not_mem_nil
  | forwarder =>
      cases p with
      | range => rw [List.mem_singleton.mp h]; exact .range rfl
      | forward m => rw [List.mem_singleton.mp h]; exact .forward rfl
      | _ => exact absurd h List.not_mem_nil
  | processor => rw [List.mem_singleton.mp h]; exact .process
  | starter =>
      cases w with
      | triggerBuilder t => exact absurd h List.not_mem_nil
      | group ts =>
          cases p with
          | started k =>
              simp only [program, starterProgram] at h
              split at h
              · next hk => rw [List.mem_singleton.mp h]; exact .startMember rfl rfl hk
              · next hk =>
                  rw [List.mem_singleton.mp h]
                  exact .startBroadcaster rfl rfl (not_lt.mp hk)
          | _ => exact absurd h List.not_mem_nil
  | broadcaster =>
      cases w with
      | triggerBuilder t => exact absurd h List.not_mem_nil
      | group ts =>
          cases p with
          | listen => rw [List.mem_singleton.mp h]; exact .listen rfl rfl
          | tell k =>
              simp only [program, broadcasterProgram] at h
              split at h
              · next hk => rw [List.mem_singleton.mp h]; exact .tell rfl rfl hk
              · next hk =>
                  rw [List.mem_singleton.mp h]
                  exact .broadcastDone rfl rfl (not_lt.mp hk)
          | hear k => rw [List.mem_singleton.mp h]; exact .hear rfl rfl
          | _ => exact absurd h List.not_mem_nil
  | member k =>
      cases w with
      | triggerBuilder t =>
          simp only [program] at h
          split at h
          · next hk =>
              subst hk
              rcases mem_triggerProgram h with ⟨hp, rfl⟩ | ⟨hp, rfl⟩ | ⟨hp, rfl⟩ | ⟨b, hp, rfl⟩ |
                ⟨b, hp, rfl⟩ | ⟨hp, rfl⟩
              · exact .take hp
              · exact .tickSelect hp
              · exact .tickSend hp
              · exact .sendTrigger hp
              · exact .selectSingle rfl hp
              · exact .confirmSingle rfl hp
          · exact absurd h List.not_mem_nil
      | group ts =>
          rcases mem_triggerProgram h with ⟨hp, rfl⟩ | ⟨hp, rfl⟩ | ⟨hp, rfl⟩ | ⟨b, hp, rfl⟩ |
            ⟨b, hp, rfl⟩ | ⟨hp, rfl⟩
          · exact .take hp
          · exact .tickSelect hp
          · exact .tickSend hp
          · exact .sendTrigger hp
          · exact .selectGroup rfl hp
          · exact .confirmGroup rfl hp

variable {s t : State} {e : Event}

/-- Once the trigger is closed no member is left that could send. -/
theorem Staged.phase_of_closed (hs : Staged w s) (h : s.closed .trigger = true) (k : ℕ) :
    MemberAt.phase (s.place (.member k)) = .done ∨
      MemberAt.phase (s.place (.member k)) = .unborn := by
  have hphase := hs.phases k
  have howner := hs.trigger
  rw [h] at howner
  cases w with
  | triggerBuilder t =>
      simp only [memberPhase] at hphase
      split at hphase
      · refine Or.inl (hphase.trans ?_)
        cases ho : s.place .owner <;> simp [ho, closesTrigger] at howner <;> rfl
      · exact Or.inr hphase
  | group ts =>
      have hfits := hs.group ts rfl
      simp only [memberPhase] at hphase
      split at hphase
      · refine Or.inl (hphase.trans ?_)
        cases ho : s.place .owner <;> simp [ho, closesTrigger] at howner <;>
          simp only [ho, groupFits] at hfits <;> rw [hfits.1, hfits.2] <;> rfl
      · exact Or.inr hphase

/-- Once the channel of the cancellation is closed, nobody is left on the other side. -/
theorem Staged.owner_of_closed (hs : Staged w s) (h : s.closed .cancel = true) :
    s.place .owner = OwnerAt.returned := by
  have howner := hs.cancel
  rw [h] at howner
  cases ho : s.place .owner <;> simp [ho, closesCancel] at howner
  rfl

theorem Staged.broadcaster_of_closed (hs : Staged w s) {ts : List HarvestType}
    (hw : w = .group ts) (h : s.closed .cancel = true) :
    s.place .broadcaster = BroadcasterAt.done := by
  have hfits := hs.group ts hw
  rw [hs.owner_of_closed h] at hfits
  exact hfits.2

theorem Staged.member_of_closed (hs : Staged w s) {t : HarvestType} (hw : w = .triggerBuilder t)
    (h : s.closed .cancel = true) : MemberAt.phase (s.place (.member 0)) = .done := by
  have hphase := hs.phases 0
  subst hw
  rw [hphase, memberPhase, if_pos rfl, hs.owner_of_closed h]
  rfl

theorem Staged.open_of_send (hs : Staged w s) {i : Goroutine} {c : Chan} {v : Message} {p : Place i}
    (h : Offers w i (s.place i) (.send c v p)) : s.closed c = false := by
  rw [← Bool.not_eq_true]
  intro hclosed
  cases h with
  | sendCancel hp => rw [hs.owner_of_closed hclosed] at hp; cases hp
  | forward hp => rw [hs.processor] at hclosed; cases hclosed
  | tell hw hp hk => rw [hs.others] at hclosed; cases hclosed
  | broadcastDone hw hp hk => rw [hs.broadcaster_of_closed hw hclosed] at hp; cases hp
  | @sendTrigger k _ b t hp =>
      have hphase := hs.phase_of_closed hclosed k
      rw [hp] at hphase
      rcases hphase with hphase | hphase <;> cases hphase
  | confirmSingle hw hp =>
      have hphase := hs.member_of_closed hw hclosed
      rw [hp] at hphase
      cases hphase
  | confirmGroup hw hp => rw [hs.others] at hclosed; cases hclosed

/-- The channels that `Close` closes are open. -/
theorem Staged.open_of_close (hs : Staged w s) {i : Goroutine} {c : Chan} {p : Place i}
    (h : Offers w i (s.place i) (.close c p)) : s.closed c = false := by
  cases h with
  | closeTrigger hp => rw [hs.trigger, hp]; rfl
  | closeCancel hp => rw [hs.cancel, hp]; rfl

theorem step_send {i j : Goroutine} {p : Place i} {c : Chan} {v : Message}
    {q : Option Message → Place j} (hne : i ≠ j) (hsend : Offers w i (s.place i) (.send c v p))
    (hreceive : Offers w j (s.place j) (.receive c q)) :
    TriggerStep w s (.send i j c v) ((s.goto i p).goto j (q (some v))) := by
  cases hsend with
  | sendCancel hp =>
      cases hreceive with
      | awaitConfirmation hq => exact absurd rfl hne
      | listen hw hq => exact .cancelGroup hw hp hq
      | selectSingle hw hq => exact .cancelSingle hw hp hq
  | forward hp =>
      cases hreceive with
      | process => exact .forward hp
  | tell hw hp hk =>
      cases hreceive with
      | hear hw' hq => exact absurd rfl hne
      | selectGroup hw' hq => exact .tell hw hk hp hq
  | broadcastDone hw hp hk =>
      cases hreceive with
      | awaitConfirmation hq => exact .confirmGroup hw hk hq hp
      | listen hw' hq => exact absurd rfl hne
      | selectSingle hw' hq => rw [hw] at hw'; cases hw'
  | sendTrigger hp =>
      cases hreceive with
      | range hq => exact .sendTrigger hp hq
  | confirmSingle hw hp =>
      cases hreceive with
      | awaitConfirmation hq => exact .confirmSingle hw hq hp
      | listen hw' hq => rw [hw] at hw'; cases hw'
      | selectSingle hw' hq => exact absurd rfl hne
  | confirmGroup hw hp =>
      cases hreceive with
      | hear hw' hq => exact .hear hw hq hp
      | selectGroup hw' hq => exact absurd rfl hne

theorem Staged.step_drained (hs : Staged w s) {i : Goroutine} {c : Chan}
    {q : Option Message → Place i} (h : Offers w i (s.place i) (.receive c q))
    (hclosed : s.closed c = true) : TriggerStep w s (.drained i c) (s.goto i (q none)) := by
  cases h with
  | awaitConfirmation hp => rw [hs.owner_of_closed hclosed] at hp; cases hp
  | range hp => exact .drain hp hclosed
  | process => rw [hs.processor] at hclosed; cases hclosed
  | listen hw hp => rw [hs.broadcaster_of_closed hw hclosed] at hp; cases hp
  | hear hw hp => rw [hs.others] at hclosed; cases hclosed
  | selectSingle hw hp =>
      have hphase := hs.member_of_closed hw hclosed
      rw [hp] at hphase
      cases hphase
  | selectGroup hw hp => rw [hs.others] at hclosed; cases hclosed

/-- What a step can be while the cancellation is staged. In particular it is no panic. -/
theorem Staged.step_cases (hs : Staged w s) (h : Net.Step (program w) s e t) :
    TriggerStep w s e t := by
  cases h with
  | send hne hsend hreceive hopen =>
      exact step_send hne (offers_of_mem hsend) (offers_of_mem hreceive)
  | drained hreceive hclosed => exact hs.step_drained (offers_of_mem hreceive) hclosed
  | close hclose hopen =>
      cases offers_of_mem hclose with
      | closeTrigger hp => exact .closeTrigger hp
      | closeCancel hp => exact .closeCancel hp
  | go hgo =>
      cases offers_of_mem hgo with
      | startForwarder hp => exact .startForwarder hp
      | startSingle hw hp => exact .startSingle hw hp
      | startGroup hw hp => exact .startGroup hw hp
      | startMember hw hp hk => exact .startMember hw hp hk
      | startBroadcaster hw hp hk => exact .startBroadcaster hw hp hk
  | move hmove =>
      cases offers_of_mem hmove with
      | callClose hp => exact .callClose hp
      | take hp => exact .take hp
  | tick htick =>
      cases offers_of_mem htick with
      | tickSelect hp => exact .tickSelect hp
      | tickSend hp => exact .tickSend hp
  | panicSend hsend hclosed =>
      rw [hs.open_of_send (offers_of_mem hsend)] at hclosed
      cases hclosed
  | panicClose hclose hclosed =>
      rw [hs.open_of_close (offers_of_mem hclose)] at hclosed
      cases hclosed

/-! ### Every step keeps the stage -/

/-- A step of the cancellation: it closes no channel and the forwarder takes no part. -/
theorem Staged.advance (hs : Staged w s) (hforwarder : t.place .forwarder = s.place .forwarder)
    (hclosed : t.closed = s.closed) (hstarted : s.place .owner ≠ OwnerAt.startForwarder)
    (htrigger : closesTrigger (t.place .owner) = closesTrigger (s.place .owner))
    (hcancel : closesCancel (t.place .owner) = closesCancel (s.place .owner))
    (hphases : ∀ k, MemberAt.phase (t.place (.member k)) = memberPhase w t k)
    (hgroup : ∀ ts, w = .group ts →
      groupFits ts.length (t.place .owner) (t.place .starter) (t.place .broadcaster)) :
    Staged w t where
  phases := hphases
  group := hgroup
  forwarder := fun _ => hforwarder ▸ hs.forwarder hstarted
  drained := by
    rw [hforwarder, hclosed]
    exact hs.drained
  trigger := by rw [hclosed, hs.trigger, htrigger]
  cancel := by rw [hclosed, hs.cancel, hcancel]
  others := by
    rw [hclosed]
    exact hs.others
  processor := by rw [hclosed, hs.processor]

theorem Staged.goto_member (hs : Staged w s) {k : ℕ} {p : MemberAt}
    (hp : MemberAt.phase p = MemberAt.phase (s.place (.member k))) :
    Staged w (s.goto (.member k) p) where
  phases := by
    intro j
    have hsame : memberPhase w (s.goto (.member k) p) j = memberPhase w s j := by
      simp [memberPhase]
    rw [hsame, ← hs.phases j]
    rcases eq_or_ne j k with rfl | hjk
    · rw [Net.goto_place_self, hp]
    · rw [Net.goto_place_of_ne _ (by simpa using hjk)]
  group := by simpa using hs.group
  forwarder := by simpa using hs.forwarder
  drained := by simpa using hs.drained
  trigger := by simpa using hs.trigger
  cancel := by simpa using hs.cancel
  others := hs.others
  processor := hs.processor

theorem Staged.goto_forwarder (hs : Staged w s) {p : ForwarderAt} (hp : p ≠ .unborn)
    (hdone : p = .done → s.closed .trigger = true) : Staged w (s.goto .forwarder p) where
  phases := by simpa [memberPhase] using hs.phases
  group := by simpa using hs.group
  forwarder := by simpa using fun _ => hp
  drained := by simpa using hdone
  trigger := by simpa using hs.trigger
  cancel := by simpa using hs.cancel
  others := hs.others
  processor := hs.processor

theorem Staged.goto_processor (hs : Staged w s) : Staged w (s.goto .processor ()) where
  phases := by simpa [memberPhase] using hs.phases
  group := by simpa using hs.group
  forwarder := by simpa using hs.forwarder
  drained := by simpa using hs.drained
  trigger := by simpa using hs.trigger
  cancel := by simpa using hs.cancel
  others := hs.others
  processor := hs.processor

/-- A step of the cancellation of a single trigger: what the owner's new place asks of it. -/
theorem Staged.advance_single (hs : Staged w s) {ht : HarvestType} (hw : w = .triggerBuilder ht)
    (hforwarder : t.place .forwarder = s.place .forwarder) (hclosed : t.closed = s.closed)
    (hstarted : s.place .owner ≠ OwnerAt.startForwarder)
    (htrigger : closesTrigger (t.place .owner) = closesTrigger (s.place .owner))
    (hcancel : closesCancel (t.place .owner) = closesCancel (s.place .owner))
    (hmember : MemberAt.phase (t.place (.member 0)) = singlePhase (t.place .owner))
    (hothers : ∀ k, k ≠ 0 → t.place (.member k) = s.place (.member k)) : Staged w t := by
  subst hw
  refine hs.advance hforwarder hclosed hstarted htrigger hcancel (fun k => ?_) (by simp)
  rcases eq_or_ne k 0 with rfl | hk
  · rw [hmember, memberPhase, if_pos rfl]
  · have hphase := hs.phases k
    rw [memberPhase, if_neg hk] at hphase ⊢
    rw [hothers k hk, hphase]

/-- A step of the cancellation of a group, in which at most member `k` moves. -/
theorem Staged.advance_group (hs : Staged w s) {ts : List HarvestType} (hw : w = .group ts)
    (hforwarder : t.place .forwarder = s.place .forwarder) (hclosed : t.closed = s.closed)
    (hstarted : s.place .owner ≠ OwnerAt.startForwarder)
    (htrigger : closesTrigger (t.place .owner) = closesTrigger (s.place .owner))
    (hcancel : closesCancel (t.place .owner) = closesCancel (s.place .owner))
    (hfits : groupFits ts.length (t.place .owner) (t.place .starter) (t.place .broadcaster))
    (hmembers : ∀ k < ts.length, MemberAt.phase (t.place (.member k)) =
      groupPhase k (t.place .starter) (t.place .broadcaster))
    (hothers : ∀ k, ts.length ≤ k → t.place (.member k) = s.place (.member k)) : Staged w t := by
  subst hw
  refine hs.advance hforwarder hclosed hstarted htrigger hcancel (fun k => ?_) fun ts' hts => ?_
  · rw [memberPhase]
    split
    · next hk => exact hmembers k hk
    · next hk =>
        have hphase := hs.phases k
        rw [memberPhase, if_neg hk] at hphase
        rw [hothers k (not_lt.mp hk), hphase]
  · obtain ⟨rfl⟩ := hts
    exact hfits

theorem Staged.group_phase (hs : Staged w s) {ts : List HarvestType} (hw : w = .group ts) {k : ℕ}
    (hk : k < ts.length) : MemberAt.phase (s.place (.member k)) =
      groupPhase k (s.place .starter) (s.place .broadcaster) := by
  subst hw
  rw [hs.phases k, memberPhase, if_pos hk]

theorem Staged.step (hs : Staged w s) (h : TriggerStep w s e t) : Staged w t := by
  cases h with
  | startForwarder h =>
      have hfits := hs.group
      simp only [h, groupFits] at hfits
      exact
        { phases := by
            intro k
            have hphase := hs.phases k
            cases w <;> simpa [memberPhase, h, singlePhase] using hphase
          group := by simpa [groupFits] using hfits
          forwarder := by simp
          drained := by simp
          trigger := by simpa [h, closesTrigger] using hs.trigger
          cancel := by simpa [h, closesCancel] using hs.cancel
          others := hs.others
          processor := hs.processor }
  | startSingle hw h =>
      exact hs.advance_single hw (by simp) rfl (by simp [h]) (by simp [h, closesTrigger])
        (by simp [h, closesCancel]) (by simp [singlePhase, MemberAt.phase])
        (fun k hk => by simp [hk])
  | startGroup hw h =>
      have hfits := hs.group _ hw
      simp only [h, groupFits] at hfits
      refine hs.advance_group hw (by simp) rfl (by simp [h]) (by simp [h, closesTrigger])
        (by simp [h, closesCancel]) (by simp [groupFits, hfits.2]) (fun k hk => ?_) (by simp)
      simpa [hfits.1, groupPhase] using hs.group_phase hw hk
  | @startMember ts j hw h hj =>
      have hfits := hs.group _ hw
      rw [h, groupFits_started] at hfits
      obtain ⟨howner, _, hb⟩ := hfits
      refine hs.advance_group hw (by simp) rfl (by rcases howner with ho | ho <;> simp [ho])
        (by simp) (by simp) ?_ (fun k hk => ?_) (fun k hk => ?_)
      · simpa [groupFits_started, hb] using ⟨howner, hj⟩
      · have hphase := hs.group_phase hw hk
        rcases eq_or_ne k j with rfl | hkj
        · simp [groupPhase, MemberAt.phase]
        · have hlt : k < j + 1 ↔ k < j := by omega
          simpa [hkj, h, groupPhase, hlt] using hphase
      · have hkj : k ≠ j := by omega
        simp [hkj]
  | startBroadcaster hw h hj =>
      have hfits := hs.group _ hw
      rw [h, groupFits_started] at hfits
      obtain ⟨howner, _, hb⟩ := hfits
      refine hs.advance_group hw (by simp) rfl (by rcases howner with ho | ho <;> simp [ho])
        (by simp) (by simp) ?_ (fun k hk => ?_) (by simp)
      · simpa [groupFits_listen] using howner
      · have hphase := hs.group_phase hw hk
        simpa [h, groupPhase, lt_of_lt_of_le hk hj] using hphase
  | callClose h =>
      refine hs.advance (by simp) rfl (by simp [h]) (by simp [h, closesTrigger])
        (by simp [h, closesCancel]) (fun k => ?_) (fun ts hw => ?_)
      · have hphase := hs.phases k
        cases w <;> simpa [memberPhase, h, singlePhase] using hphase
      · have hfits := hs.group ts hw
        rw [h] at hfits
        cases hst : s.place .starter <;> simp [groupFits, hst] at hfits ⊢ <;> exact hfits
  | cancelSingle hw h hm =>
      exact hs.advance_single hw (by simp) rfl (by simp [h]) (by simp [h, closesTrigger])
        (by simp [h, closesCancel]) (by simp [singlePhase, MemberAt.phase])
        (fun k hk => by simp [hk])
  | cancelGroup hw h hb =>
      have hfits := hs.group _ hw
      rw [hb, groupFits_listen] at hfits
      refine hs.advance_group hw (by simp) rfl (by simp [h]) (by simp [h, closesTrigger])
        (by simp [h, closesCancel]) (by simp [groupFits_tell, hfits.2]) (fun k hk => ?_) (by simp)
      simpa [hfits.2, hb, groupPhase] using hs.group_phase hw hk
  | @tell ts j _ hw hj h hm =>
      have hfits := hs.group _ hw
      rw [h, groupFits_tell] at hfits
      obtain ⟨howner, hst, _⟩ := hfits
      refine hs.advance_group hw (by simp) rfl (by simp [howner]) (by simp) (by simp)
        (by simp [groupFits_hear, howner, hst, hj]) (fun k hk => ?_) (fun k hk => ?_)
      · have hphase := hs.group_phase hw hk
        rcases eq_or_ne k j with rfl | hkj
        · simp [groupPhase, MemberAt.phase, hst]
        · simpa [hkj, h, groupPhase, hst] using hphase
      · have hkj : k ≠ j := by omega
        simp [hkj]
  | @hear ts j hw h hm =>
      have hfits := hs.group _ hw
      rw [h, groupFits_hear] at hfits
      obtain ⟨howner, hst, hj⟩ := hfits
      refine hs.advance_group hw (by simp) rfl (by simp [howner]) (by simp) (by simp)
        (by simpa [groupFits_tell, howner, hst] using Nat.succ_le_of_lt hj)
        (fun k hk => ?_) (fun k hk => ?_)
      · have hphase := hs.group_phase hw hk
        rcases eq_or_ne k j with rfl | hkj
        · simp [groupPhase, MemberAt.phase, hst]
        · have hlt : k < j + 1 ↔ k < j := by omega
          simpa [hkj, h, groupPhase, hst, hlt] using hphase
      · have hkj : k ≠ j := by omega
        simp [hkj]
  | confirmSingle hw h hm =>
      exact hs.advance_single hw (by simp) rfl (by simp [h]) (by simp [h, closesTrigger])
        (by simp [h, closesCancel]) (by simp [singlePhase, MemberAt.phase])
        (fun k hk => by simp [hk])
  | confirmGroup hw hj h hb =>
      have hfits := hs.group _ hw
      rw [hb, groupFits_tell] at hfits
      refine hs.advance_group hw (by simp) rfl (by simp [h]) (by simp [h, closesTrigger])
        (by simp [h, closesCancel]) (by simp [groupFits, hfits.2.1]) (fun k hk => ?_) (by simp)
      simpa [hfits.2.1, hb, groupPhase, lt_of_lt_of_le hk hj] using hs.group_phase hw hk
  | take h => exact hs.goto_member (by rw [h]; rfl)
  | sendTrigger h hf =>
      refine (hs.goto_member ?_).goto_forwarder (by simp) (by simp)
      rw [h]
      rfl
  | forward h => exact (hs.goto_forwarder (by simp) (by simp)).goto_processor
  | drain h hclosed => exact hs.goto_forwarder (by simp) fun _ => hclosed
  | closeTrigger h =>
      exact
        { phases := by
            intro k
            have hphase := hs.phases k
            cases w <;> simpa [memberPhase, h, singlePhase] using hphase
          group := by
            intro ts hw
            simpa [h, groupFits] using hs.group ts hw
          forwarder := by simpa [h] using hs.forwarder
          drained := by simp
          trigger := by simp [closesTrigger]
          cancel := by simpa [h, closesCancel] using hs.cancel
          others := by simpa using hs.others
          processor := by simpa using hs.processor }
  | closeCancel h =>
      exact
        { phases := by
            intro k
            have hphase := hs.phases k
            cases w <;> simpa [memberPhase, h, singlePhase] using hphase
          group := by
            intro ts hw
            simpa [h, groupFits] using hs.group ts hw
          forwarder := by simpa [h] using hs.forwarder
          drained := by simpa using hs.drained
          trigger := by simpa [h, closesTrigger] using hs.trigger
          cancel := by simp [closesCancel]
          others := by simpa using hs.others
          processor := by simpa using hs.processor }
  | tickSelect h => exact hs.goto_member (by rw [h]; rfl)
  | tickSend h => exact hs.goto_member (by rw [h]; rfl)

theorem staged_run {tr : List Event} (h : Net.Run (program w) start tr s) : Staged w s :=
  h.invariant (fun _ t => Staged w t) (staged_start w)
    fun _ _ _ _ ht hstep => ht.step (ht.step_cases hstep)

end AppHarvest

end AxiomDaemon.Daemon

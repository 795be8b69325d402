import AxiomDaemon.Daemon.Harvest
import AxiomDaemon.Daemon.Registry

/-!
`CleanExit`: the processor's loop is stopped, and what is left is harvested
and sent from the caller's own goroutine (`processor.go`).

Harvesting reports a failed request on the error channel of the processor.
The channel is unbuffered and its only receiver is the loop in `Run`. Beside
`CleanExit` and the loop there are the requests of earlier harvests, whose
goroutines send on the same channel. A run is any interleaving of these; the
outcome of each request `CleanExit` makes is given.
-/

namespace AxiomDaemon.Daemon

open AxiomDaemon.Lib

variable {ι C : Type}

/-- A connected application at exit: what `doHarvest` reads of it. -/
structure ExitApp (ι C : Type) where
  app : App
  now : Int
  config : HarvestConfig
  order : MapOrder
  harvest : Harvest ι C
  spans : SpanStore ι

/-- The requests that `doHarvest` makes for an application, in order: none
when it is removed for inactivity. -/
def ExitApp.requests (cfg : ProcessorConfig) (a : ExitApp ι C) : List (Payload ι C) :=
  if decide (cfg.appTimeout > 0) && a.app.inactive a.now cfg.appTimeout then []
  else harvestAll a.config a.order a.spans a.harvest

/-- Where `CleanExit` is: sending on the quit channel, in the loop over the
applications with the requests of the current one still to be made, sending a
failure on the error channel, or done. -/
inductive ExitPoint (ι C : Type)
  | quitting (apps : List (ExitApp ι C))
  | harvesting (requests : List (Payload ι C)) (apps : List (ExitApp ι C))
  | sending (err : CollectorError) (requests : List (Payload ι C)) (apps : List (ExitApp ι C))
  | returned

/-- `running` is whether the loop of `Run` is there to receive; `made` are the
requests `CleanExit` has made, and `background` the failures that goroutines
of earlier harvests wait to send. -/
structure ExitState (ι C : Type) where
  running : Bool
  point : ExitPoint ι C
  made : List (Payload ι C)
  background : List CollectorError

/-- Who takes a step: `CleanExit`, the loop, or an earlier request that
fails. -/
inductive ExitEvent
  | cleanExit
  | receive
  | background (err : CollectorError)

/-- All requests of a list of applications. -/
def allRequests (cfg : ProcessorConfig) (apps : List (ExitApp ι C)) : List (Payload ι C) :=
  apps.flatMap (ExitApp.requests cfg)

/-- The requests still to be made. -/
def ExitPoint.todo (cfg : ProcessorConfig) : ExitPoint ι C → List (Payload ι C)
  | .quitting apps => allRequests cfg apps
  | .harvesting ps apps => ps ++ allRequests cfg apps
  | .sending _ ps apps => ps ++ allRequests cfg apps
  | .returned => []

/-- The steps `CleanExit` still needs when nothing fails. -/
def ExitPoint.remaining (cfg : ProcessorConfig) : ExitPoint ι C → Nat
  | .quitting apps => (allRequests cfg apps).length + apps.length + 2
  | .harvesting ps apps => (ps ++ allRequests cfg apps).length + apps.length + 1
  | .sending _ ps apps => (ps ++ allRequests cfg apps).length + apps.length + 2
  | .returned => 0

namespace ExitState

/-- The call of `CleanExit`. -/
def start (apps : List (ExitApp ι C)) (background : List CollectorError) : ExitState ι C where
  running := true
  point := .quitting apps
  made := []
  background := background

/-- One step of `CleanExit`. Sending needs a receiver: without one nothing
happens. -/
def cleanExit (cfg : ProcessorConfig) (outcome : Nat → Option CollectorError)
    (s : ExitState ι C) : ExitState ι C :=
  match s.point with
  | .quitting apps =>
      if s.running then { s with running := false, point := .harvesting [] apps } else s
  | .harvesting [] [] => { s with point := .returned }
  | .harvesting [] (a :: apps) => { s with point := .harvesting (a.requests cfg) apps }
  | .harvesting (p :: ps) apps =>
      match outcome s.made.length with
      | none => { s with point := .harvesting ps apps, made := s.made ++ [p] }
      | some err => { s with point := .sending err ps apps, made := s.made ++ [p] }
  | .sending _ ps apps => if s.running then { s with point := .harvesting ps apps } else s
  | .returned => s

def step (cfg : ProcessorConfig) (outcome : Nat → Option CollectorError) (s : ExitState ι C) :
    ExitEvent → ExitState ι C
  | .cleanExit => s.cleanExit cfg outcome
  | .receive => if s.running then { s with background := s.background.tail } else s
  | .background err => { s with background := s.background ++ [err] }

/-- `CleanExit` is in a send for which no receiver will ever exist. -/
def Stuck (cfg : ProcessorConfig) (outcome : Nat → Option CollectorError)
    (s : ExitState ι C) : Prop :=
  (∃ err ps apps, s.point = .sending err ps apps) ∧
    ∀ es, (runFrom (step cfg outcome) s es).running = false

/-- `CleanExit` cannot deadlock: in no state of any run it is stuck, and in
every run in which it takes enough steps it has made all requests and
returned. -/
structure ExitsCleanly (cfg : ProcessorConfig) (outcome : Nat → Option CollectorError)
    (apps : List (ExitApp ι C)) (background : List CollectorError) : Prop where
  notStuck : ∀ es, ¬ (runFrom (step cfg outcome) (start apps background) es).Stuck cfg outcome
  returns : ∃ n, ∀ es, n ≤ es.countP (· matches .cleanExit) →
    (runFrom (step cfg outcome) (start apps background) es).point = .returned ∧
      (runFrom (step cfg outcome) (start apps background) es).made = allRequests cfg apps

section Proofs

variable {cfg : ProcessorConfig} {outcome : Nat → Option CollectorError}

theorem step_running {s : ExitState ι C} (h : s.running = false) (e : ExitEvent) :
    (step cfg outcome s e).running = false := by
  cases e with
  | cleanExit =>
      rw [step, cleanExit]
      split
      · split
        · rfl
        · exact h
      · exact h
      · exact h
      · split
        · exact h
        · exact h
      · split
        · exact h
        · exact h
      · exact h
  | receive =>
      rw [step]
      split
      · exact h
      · exact h
  | background err => exact h

theorem runFrom_running {s : ExitState ι C} (h : s.running = false) (es : List ExitEvent) :
    (runFrom (step cfg outcome) s es).running = false := by
  induction es generalizing s with
  | nil => exact h
  | cons e es ih => exact ih (step_running h e)

/-! ### All requests succeed -/

/-- What holds while no request has failed. -/
structure Progress (cfg : ProcessorConfig) (apps : List (ExitApp ι C)) (s : ExitState ι C) :
    Prop where
  requests : s.made ++ s.point.todo cfg = allRequests cfg apps
  notSending : ∀ err ps rest, s.point ≠ .sending err ps rest
  quitting : ∀ rest, s.point = .quitting rest → s.running = true

theorem progress_start (apps : List (ExitApp ι C)) (background : List CollectorError) :
    Progress cfg apps (start apps background) where
  requests := List.nil_append _
  notSending := by
    intro err ps rest h
    cases h
  quitting := fun _ _ => rfl

/-- While requests succeed, every step of `CleanExit` is progress. -/
theorem progress_cleanExit {apps : List (ExitApp ι C)}
    (hsucceed : ∀ k < (allRequests cfg apps).length, outcome k = none) {s : ExitState ι C}
    (h : Progress cfg apps s) :
    Progress cfg apps (s.cleanExit cfg outcome) ∧
      (s.cleanExit cfg outcome).point.remaining cfg = s.point.remaining cfg - 1 := by
  obtain ⟨running, point, made, background⟩ := s
  obtain ⟨hrequests, hnotSending, hquitting⟩ := h
  cases point with
  | quitting rest =>
      obtain rfl : running = true := hquitting rest rfl
      exact ⟨⟨hrequests, by simp [cleanExit], by simp [cleanExit]⟩, rfl⟩
  | harvesting ps rest =>
      cases ps with
      | nil =>
          cases rest with
          | nil => exact ⟨⟨hrequests, by simp [cleanExit], by simp [cleanExit]⟩, rfl⟩
          | cons a rest =>
              refine ⟨⟨hrequests, by simp [cleanExit], by simp [cleanExit]⟩, ?_⟩
              simp only [cleanExit, ExitPoint.remaining, allRequests, List.nil_append,
                List.flatMap_cons, List.length_cons]
              omega
      | cons p ps =>
          have hlt : made.length < (allRequests cfg apps).length := by
            rw [← hrequests]
            simp only [ExitPoint.todo, List.cons_append, List.length_append, List.length_cons]
            omega
          rw [cleanExit]
          simp only [hsucceed made.length hlt]
          refine ⟨⟨?_, by simp, by simp⟩, ?_⟩
          · rw [← hrequests]
            simp only [ExitPoint.todo, List.append_assoc, List.cons_append, List.nil_append]
          · simp only [ExitPoint.remaining, List.cons_append, List.length_cons]
            omega
  | sending err ps rest => exact absurd rfl (hnotSending err ps rest)
  | returned => exact ⟨⟨hrequests, hnotSending, hquitting⟩, rfl⟩

theorem progress_run {apps : List (ExitApp ι C)}
    (hsucceed : ∀ k < (allRequests cfg apps).length, outcome k = none) {s : ExitState ι C}
    (h : Progress cfg apps s) (es : List ExitEvent) :
    Progress cfg apps (runFrom (step cfg outcome) s es) ∧
      (runFrom (step cfg outcome) s es).point.remaining cfg =
        s.point.remaining cfg - es.countP (· matches .cleanExit) := by
  induction es generalizing s with
  | nil => exact ⟨h, rfl⟩
  | cons e es ih =>
      cases e with
      | cleanExit =>
          obtain ⟨hnext, hremaining⟩ := progress_cleanExit hsucceed h
          obtain ⟨hlast, hcount⟩ := ih hnext
          refine ⟨hlast, hcount.trans ?_⟩
          rw [hremaining, List.countP_cons_of_pos rfl]
          omega
      | receive =>
          have hnext : Progress cfg apps (step cfg outcome s .receive) ∧
              (step cfg outcome s .receive).point = s.point := by
            rw [step]
            split
            · exact ⟨⟨h.requests, h.notSending, h.quitting⟩, rfl⟩
            · exact ⟨h, rfl⟩
          obtain ⟨hlast, hcount⟩ := ih hnext.1
          rw [hnext.2] at hcount
          exact ⟨hlast, hcount⟩
      | background err =>
          have hnext : Progress cfg apps (step cfg outcome s (.background err)) :=
            ⟨h.requests, h.notSending, h.quitting⟩
          exact ih hnext

theorem returned_of_remaining {point : ExitPoint ι C} (h : point.remaining cfg = 0) :
    point = .returned := by
  cases point with
  | quitting rest => simp [ExitPoint.remaining] at h
  | harvesting ps rest => simp [ExitPoint.remaining] at h
  | sending err ps rest => simp [ExitPoint.remaining] at h
  | returned => rfl

theorem exitsCleanly_of_succeed {apps : List (ExitApp ι C)} (background : List CollectorError)
    (hsucceed : ∀ k < (allRequests cfg apps).length, outcome k = none) :
    ExitsCleanly cfg outcome apps background := by
  constructor
  · rintro es ⟨⟨err, ps, rest, hsending⟩, _⟩
    have hprogress := (progress_run hsucceed (progress_start apps background) es).1
    exact hprogress.notSending err ps rest hsending
  · refine ⟨(start apps background).point.remaining cfg, fun es hes => ?_⟩
    obtain ⟨hprogress, hremaining⟩ := progress_run hsucceed (progress_start apps background) es
    have hreturned := returned_of_remaining (hremaining.trans (Nat.sub_eq_zero_of_le hes))
    refine ⟨hreturned, ?_⟩
    rw [← hprogress.requests, hreturned]
    exact (List.append_nil _).symm

/-! ### A request fails -/

/-- With the loop stopped, `CleanExit` gets stuck at the first request that
fails. -/
theorem stuck_of_failure {ps : List (Payload ι C)} {apps : List (ExitApp ι C)}
    {s : ExitState ι C} (hrunning : s.running = false) (hpoint : s.point = .harvesting ps apps)
    {k : Nat} (hge : s.made.length ≤ k)
    (hlt : k < s.made.length + (ps ++ allRequests cfg apps).length) (hfail : outcome k ≠ none) :
    ∃ n, (runFrom (step cfg outcome) s (List.replicate n .cleanExit)).Stuck cfg outcome := by
  -- By induction on the steps that are left; every step is by `cleanExit`.
  induction hn : (ExitPoint.harvesting ps apps).remaining cfg generalizing ps apps s with
  | zero => simp [ExitPoint.remaining] at hn
  | succ m ih =>
      obtain ⟨running, point, made, background⟩ := s
      obtain rfl : running = false := hrunning
      obtain rfl : point = .harvesting ps apps := hpoint
      cases ps with
      | nil =>
          cases apps with
          | nil =>
              simp only [allRequests, List.flatMap_nil, List.append_nil, List.length_nil] at hlt
              exact absurd hlt (Nat.not_lt.mpr hge)
          | cons a rest =>
              obtain ⟨n, hstuck⟩ := ih (s := ⟨false, .harvesting (a.requests cfg) rest, made,
                background⟩) rfl rfl hge hlt (by
                  simp only [ExitPoint.remaining, allRequests, List.nil_append, List.flatMap_cons,
                    List.length_cons] at hn ⊢
                  omega)
              exact ⟨n + 1, hstuck⟩
      | cons p ps =>
          cases hout : outcome made.length with
          | some err =>
              refine ⟨1, ?_⟩
              have hstep : step cfg outcome ⟨false, .harvesting (p :: ps) apps, made, background⟩
                  .cleanExit = ⟨false, .sending err ps apps, made ++ [p], background⟩ := by
                simp only [step, cleanExit, hout]
              rw [List.replicate_one, runFrom_cons, runFrom_nil, hstep]
              exact ⟨⟨err, ps, apps, rfl⟩, runFrom_running rfl⟩
          | none =>
              have hne : made.length ≠ k := by
                rintro rfl
                exact hfail hout
              have hstep : step cfg outcome ⟨false, .harvesting (p :: ps) apps, made, background⟩
                  .cleanExit = ⟨false, .harvesting ps apps, made ++ [p], background⟩ := by
                simp only [step, cleanExit, hout]
              obtain ⟨n, hstuck⟩ := ih (s := ⟨false, .harvesting ps apps, made ++ [p],
                background⟩) rfl rfl (by
                  simp only [List.length_append, List.length_singleton]
                  have : made.length ≤ k := hge
                  omega) (by
                  simp only [List.cons_append, List.length_cons, List.length_append,
                    List.length_nil] at hlt ⊢
                  omega) (by
                  simp only [ExitPoint.remaining, List.cons_append, List.length_cons] at hn ⊢
                  omega)
              refine ⟨n + 1, ?_⟩
              rw [List.replicate_succ, runFrom_cons, hstep]
              exact hstuck

theorem exists_stuck {apps : List (ExitApp ι C)} (background : List CollectorError) {k : Nat}
    (hlt : k < (allRequests cfg apps).length) (hfail : outcome k ≠ none) :
    ∃ es, (runFrom (step cfg outcome) (start apps background) es).Stuck cfg outcome := by
  obtain ⟨n, hstuck⟩ := stuck_of_failure
    (s := ⟨false, .harvesting [] apps, [], background⟩) rfl rfl (Nat.zero_le k)
    (by simpa using hlt) hfail
  exact ⟨.cleanExit :: List.replicate n .cleanExit, hstuck⟩

/-- `CleanExit` cannot deadlock exactly when every request it makes
succeeds. -/
theorem exitsCleanly_iff (cfg : ProcessorConfig) (outcome : Nat → Option CollectorError)
    (apps : List (ExitApp ι C)) (background : List CollectorError) :
    ExitsCleanly cfg outcome apps background ↔
      ∀ k < (allRequests cfg apps).length, outcome k = none := by
  constructor
  · intro h k hlt
    by_contra hfail
    obtain ⟨es, hstuck⟩ := exists_stuck background hlt hfail
    exact h.notStuck es hstuck
  · exact exitsCleanly_of_succeed background

/-- An application that was active a moment ago and has one process to
report. -/
def activeApp : ExitApp Nat Nat where
  app := newApp ⟨"license", "app", "c", false, "collector", "", "host"⟩ 0
  now := 0
  config := ⟨60, ⟨100, 100, 100, 100⟩, [], false, .ignored⟩
  order := .stored
  harvest := { newHarvest 0 ⟨100, 100, 100, 100⟩ 0 with pidSet := [1] }
  spans := ⟨fun _ => newAnalyticsEvents 100, 1⟩

def activeAppTimeout : ProcessorConfig := ⟨600 * 10 ^ 9, appConnectAttemptBackoff⟩

/-- A collector that answers every request with an error. -/
def collectorDown (_ : Nat) : Option CollectorError := some .other

theorem activeApp_deadlocks : ¬ ExitsCleanly activeAppTimeout collectorDown [activeApp] [] := by
  intro h
  have hfirst : 0 < (allRequests activeAppTimeout [activeApp]).length := by decide
  have hfail : collectorDown 0 ≠ none := by decide
  obtain ⟨es, hstuck⟩ := exists_stuck [] hfirst hfail
  exact h.notStuck es hstuck

end Proofs

end ExitState

end AxiomDaemon.Daemon

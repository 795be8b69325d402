import AxiomDaemon.Daemon.Registry
import Mathlib.Algebra.Group.Nat.Defs

/-!
What the registry promises: every live run id belongs to the application that
is registered under its key, connected, and connected under that run id.

Two kinds of message can break it. A connect result is applied to whatever
application is registered by then, whether or not it answers the last attempt
and whatever state the application is in; and a late trigger removes the
application under its key even when that application is live under another run
id. Every other message keeps the promise, and these keep it exactly when no
other run id is concerned.
-/

namespace AxiomDaemon.Daemon

open AxiomDaemon.Lib

namespace Processor

/-- The harvest of run id `r` belongs to a registered application that is
connected under `r`. -/
structure Registered (p : Processor) (r : AgentRunID) (ah : AppHarvest) : Prop where
  app : p.apps.lookup (p.heap ah.app).key = some ah.app
  state : (p.heap ah.app).state = .connected
  reply : (p.heap ah.app).connectReplyID = some r

/-- The registry invariant, and that no application has two live run ids. -/
structure RegistryOk (p : Processor) : Prop where
  registered : ∀ r ah, p.harvests.lookup r = some ah → p.Registered r ah
  oneRunID : ∀ r r' ah ah', p.harvests.lookup r = some ah → p.harvests.lookup r' = some ah' →
    ah.app = ah'.app → r = r'

theorem registryOk_iff {p : Processor} :
    p.RegistryOk ↔ ∀ r ah, p.harvests.lookup r = some ah → p.Registered r ah := by
  constructor
  · exact RegistryOk.registered
  · intro h
    refine ⟨h, ?_⟩
    intro r r' ah ah' hr hr' happ
    have hreply := (h r ah hr).reply
    have hreply' := (h r' ah' hr').reply
    rw [← happ, hreply] at hreply'
    exact Option.some.inj hreply'

/-- Registered references are allocated and sit under the key of their
application. This holds whatever messages arrive. -/
def WellFormed (p : Processor) : Prop :=
  ∀ k a, p.apps.lookup k = some a → a < p.next ∧ (p.heap a).key = k

/-! ### Messages that do not touch the registry -/

/-- Nothing the invariant reads differs between the two states. -/
structure SameRegistry (p p' : Processor) : Prop where
  apps : p'.apps = p.apps
  harvests : p'.harvests = p.harvests
  next : p'.next = p.next
  key : ∀ a, (p'.heap a).key = (p.heap a).key
  state : ∀ a, (p'.heap a).state = (p.heap a).state
  reply : ∀ a, (p'.heap a).connectReplyID = (p.heap a).connectReplyID

theorem SameRegistry.refl (p : Processor) : SameRegistry p p :=
  ⟨rfl, rfl, rfl, fun _ => rfl, fun _ => rfl, fun _ => rfl⟩

theorem SameRegistry.of_eq {p p' : Processor} (happs : p'.apps = p.apps)
    (hharvests : p'.harvests = p.harvests) (hnext : p'.next = p.next) (hheap : p'.heap = p.heap) :
    SameRegistry p p' := by
  refine ⟨happs, hharvests, hnext, ?_, ?_, ?_⟩ <;> simp only [hheap, implies_true]

theorem SameRegistry.trans {p p' p'' : Processor} (h : SameRegistry p p')
    (h' : SameRegistry p' p'') : SameRegistry p p'' where
  apps := h'.apps.trans h.apps
  harvests := h'.harvests.trans h.harvests
  next := h'.next.trans h.next
  key := fun a => (h'.key a).trans (h.key a)
  state := fun a => (h'.state a).trans (h.state a)
  reply := fun a => (h'.reply a).trans (h.reply a)

theorem SameRegistry.wellFormed {p p' : Processor} (h : SameRegistry p p') (hwf : p.WellFormed) :
    p'.WellFormed := by
  intro k a hk
  rw [h.apps] at hk
  rw [h.next, h.key]
  exact hwf k a hk

theorem SameRegistry.registryOk {p p' : Processor} (h : SameRegistry p p') (hok : p.RegistryOk) :
    p'.RegistryOk := by
  rw [registryOk_iff]
  intro r ah hr
  rw [h.harvests] at hr
  obtain ⟨happ, hstate, hreply⟩ := hok.registered r ah hr
  constructor
  · rw [h.key, h.apps]
    exact happ
  · rw [h.state]
    exact hstate
  · rw [h.reply]
    exact hreply

theorem modifyApp_heap_self (p : Processor) (a : AppRef) (f : App → App) :
    (p.modifyApp a f).heap a = f (p.heap a) := by
  show Function.update p.heap a (f (p.heap a)) a = f (p.heap a)
  rw [Function.update_self]

theorem modifyApp_heap_of_ne (p : Processor) {a b : AppRef} (f : App → App) (h : b ≠ a) :
    (p.modifyApp a f).heap b = p.heap b := by
  show Function.update p.heap a (f (p.heap a)) b = p.heap b
  rw [Function.update_of_ne h]

/-- An assignment that keeps a field of the application keeps it everywhere. -/
theorem modifyApp_heap_congr {β : Type} (p : Processor) (a : AppRef) (f : App → App) (get : App → β)
    (hget : ∀ app, get (f app) = get app) (b : AppRef) :
    get ((p.modifyApp a f).heap b) = get (p.heap b) := by
  rcases eq_or_ne b a with rfl | hne
  · rw [modifyApp_heap_self, hget]
  · rw [modifyApp_heap_of_ne p f hne]

theorem sameRegistry_modifyApp (p : Processor) (a : AppRef) {f : App → App}
    (hinfo : ∀ app, (f app).info = app.info) (hstate : ∀ app, (f app).state = app.state)
    (hreply : ∀ app, (f app).connectReplyID = app.connectReplyID) :
    SameRegistry p (p.modifyApp a f) where
  apps := rfl
  harvests := rfl
  next := rfl
  key := modifyApp_heap_congr p a f App.key fun app => by rw [App.key, hinfo, App.key]
  state := modifyApp_heap_congr p a f App.state hstate
  reply := modifyApp_heap_congr p a f App.connectReplyID hreply

theorem sameRegistry_considerConnect (cfg : ProcessorConfig) (p : Processor) (a : AppRef) :
    SameRegistry p (considerConnect cfg p a) := by
  rw [considerConnect]
  split
  · exact .refl p
  · obtain ⟨happs, hharvests, hnext, hkey, hstate, hreply⟩ :=
      sameRegistry_modifyApp p a (f := fun app => { app with lastConnectAttempt := p.now })
        (fun _ => rfl) (fun _ => rfl) (fun _ => rfl)
    exact ⟨happs, hharvests, hnext, hkey, hstate, hreply⟩

theorem sameRegistry_processTxnData (p : Processor) (id : AgentRunID) :
    SameRegistry p (processTxnData p id) := by
  rw [processTxnData]
  split
  · exact .refl p
  · exact sameRegistry_modifyApp p _ (fun _ => rfl) (fun _ => rfl) (fun _ => rfl)

/-! ### Shutting a harvest down -/

theorem lookup_shutdownAppHarvest (p : Processor) (id r : AgentRunID) :
    (p.shutdownAppHarvest id).harvests.lookup r =
      if r = id then none else p.harvests.lookup r := by
  rw [shutdownAppHarvest]
  split
  · split
    · next h => rw [h, AList.lookup_erase]
    · next h => rw [AList.lookup_erase_ne h]
  · next hnone =>
      split
      · next h => rw [h, Option.not_isSome_iff_eq_none.mp hnone]
      · rfl

theorem shutdownAppHarvest_apps (p : Processor) (id : AgentRunID) :
    (p.shutdownAppHarvest id).apps = p.apps := by
  rw [shutdownAppHarvest]
  split <;> rfl

theorem shutdownAppHarvest_heap (p : Processor) (id : AgentRunID) :
    (p.shutdownAppHarvest id).heap = p.heap := by
  rw [shutdownAppHarvest]
  split <;> rfl

theorem shutdownAppHarvest_next (p : Processor) (id : AgentRunID) :
    (p.shutdownAppHarvest id).next = p.next := by
  rw [shutdownAppHarvest]
  split <;> rfl

/-- A run id that stays live after one is shut down is another one, and was
live before. -/
theorem lookup_of_shutdownAppHarvest {p : Processor} {id r : AgentRunID} {ah : AppHarvest}
    (h : (p.shutdownAppHarvest id).harvests.lookup r = some ah) :
    r ≠ id ∧ p.harvests.lookup r = some ah := by
  rw [lookup_shutdownAppHarvest] at h
  split at h
  · cases h
  · next hne => exact ⟨hne, h⟩

/-! ### Well-formedness -/

theorem WellFormed.modifyApp {p : Processor} (hwf : p.WellFormed) (a : AppRef) {f : App → App}
    (hinfo : ∀ app, (f app).info = app.info) : (p.modifyApp a f).WellFormed := by
  intro k b hk
  have hkey : ((p.modifyApp a f).heap b).key = (p.heap b).key :=
    modifyApp_heap_congr p a f App.key (fun app => by rw [App.key, hinfo, App.key]) b
  rw [hkey]
  exact hwf k b hk

theorem WellFormed.shutdownAppHarvest {p : Processor} (hwf : p.WellFormed) (id : AgentRunID) :
    (p.shutdownAppHarvest id).WellFormed := by
  intro k a hk
  rw [shutdownAppHarvest_apps] at hk
  rw [shutdownAppHarvest_next, shutdownAppHarvest_heap]
  exact hwf k a hk

theorem addApp_heap_of_lt (p : Processor) (info : AppInfo) {a : AppRef} (h : a < p.next) :
    (p.addApp info).heap a = p.heap a := by
  show Function.update p.heap p.next (newApp info p.now) a = p.heap a
  rw [Function.update_of_ne (Nat.ne_of_lt h)]

theorem WellFormed.addApp {p : Processor} (hwf : p.WellFormed) (info : AppInfo) :
    (p.addApp info).WellFormed := by
  intro k a hk
  rcases eq_or_ne k info.key with rfl | hne
  · have ha : some p.next = some a := (AList.lookup_insert p.apps).symm.trans hk
    obtain rfl : p.next = a := Option.some.inj ha
    refine ⟨Nat.lt_succ_self p.next, ?_⟩
    show (Function.update p.heap p.next (newApp info p.now) p.next).key = info.key
    rw [Function.update_self]
    rfl
  · have ha : p.apps.lookup k = some a := (AList.lookup_insert_ne hne).symm.trans hk
    obtain ⟨hlt, hkey⟩ := hwf k a ha
    rw [addApp_heap_of_lt p info hlt]
    exact ⟨Nat.lt_succ_of_lt hlt, hkey⟩

theorem processAppInfo_cases (cfg : ProcessorConfig) (p : Processor) (id : Option AgentRunID)
    (info : AppInfo) :
    SameRegistry p (processAppInfo cfg p id info).1 ∨
      (p.apps.lookup info.key = none ∧
        SameRegistry (p.addApp info) (processAppInfo cfg p id info).1) := by
  rw [processAppInfo]
  split
  · exact .inl (.refl p)
  · split
    · next a ha =>
        have hsame := sameRegistry_modifyApp p a
          (f := fun app => { app with lastActivity := p.now })
          (fun _ => rfl) (fun _ => rfl) (fun _ => rfl)
        have hconnect := sameRegistry_considerConnect cfg
          (p.modifyApp a fun app => { app with lastActivity := p.now }) a
        exact .inl (hsame.trans hconnect)
    · next hnone =>
        split
        · exact .inl (.refl p)
        · exact .inr ⟨hnone, sameRegistry_considerConnect cfg (p.addApp info) p.next⟩

theorem WellFormed.processConnectAttempt {p : Processor} (hwf : p.WellFormed) (key : AppKey)
    (rep : Except CollectorError AgentRunID) : (p.processConnectAttempt key rep).WellFormed := by
  rw [Processor.processConnectAttempt]
  split
  · exact hwf
  · next a ha =>
      cases rep with
      | error err => exact hwf.modifyApp a fun _ => rfl
      | ok id =>
          exact hwf.modifyApp a (f := fun app =>
            { app with state := .connected, connectReplyID := some id }) fun _ => rfl

theorem WellFormed.doHarvest {p : Processor} (hwf : p.WellFormed) (cfg : ProcessorConfig)
    (id : AgentRunID) (ah : AppHarvest) : (doHarvest cfg p id ah).WellFormed := by
  rw [Processor.doHarvest]
  split
  · intro k a hk
    change (p.apps.erase (p.heap ah.app).key).lookup k = some a at hk
    change a < (p.shutdownAppHarvest id).next ∧ ((p.shutdownAppHarvest id).heap a).key = k
    rw [shutdownAppHarvest_next, shutdownAppHarvest_heap]
    rcases eq_or_ne k (p.heap ah.app).key with rfl | hne
    · rw [AList.lookup_erase] at hk
      cases hk
    · rw [AList.lookup_erase_ne hne] at hk
      exact hwf k a hk
  · exact hwf

/-- An application changes its state and one of its run ids is shut down. -/
def stopApp (p : Processor) (h : AppHarvest) (state : AppState) (id : AgentRunID) : Processor :=
  (p.modifyApp h.app fun app => { app with state := state }).shutdownAppHarvest id

theorem WellFormed.stopApp {p : Processor} (hwf : p.WellFormed) (h : AppHarvest)
    (state : AppState) (id : AgentRunID) : (p.stopApp h state id).WellFormed := by
  apply WellFormed.shutdownAppHarvest
  exact hwf.modifyApp h.app fun _ => rfl

theorem processHarvestError_cases (cfg : ProcessorConfig) (p : Processor) (id : AgentRunID)
    (err : CollectorError) :
    SameRegistry p (processHarvestError cfg p id err) ∨
      ∃ h state, p.harvests.lookup id = some h ∧
        SameRegistry (p.stopApp h state id) (processHarvestError cfg p id err) := by
  rw [processHarvestError]
  split
  · exact .inl (.refl p)
  · next h hid =>
      split
      · exact .inr ⟨h, .disconnected, hid, .refl _⟩
      · split
        · exact .inr ⟨h, .invalidLicense, hid, .refl _⟩
        · split
          · exact .inr ⟨h, .unknown, hid, sameRegistry_considerConnect cfg _ h.app⟩
          · exact .inl (.refl p)

theorem wellFormed_step {cfg : ProcessorConfig} {p : Processor} (hwf : p.WellFormed)
    (m : Message) : (step cfg p m).WellFormed := by
  cases m with
  | elapse d => exact hwf
  | util => exact hwf
  | appInfo id info =>
      rcases processAppInfo_cases cfg p id info with hsame | ⟨_, hsame⟩
      · exact hsame.wellFormed hwf
      · exact hsame.wellFormed (hwf.addApp info)
  | connectAttempt i rep =>
      rw [step]
      split
      · exact hwf
      · next key _ =>
          have hwf' : { p with connecting := p.connecting.eraseIdx i }.WellFormed := hwf
          exact hwf'.processConnectAttempt key rep
  | harvest i =>
      rw [step]
      split
      · exact hwf
      · next id ah _ => exact hwf.doHarvest cfg id ah
  | harvestError id err =>
      rcases processHarvestError_cases cfg p id err with hsame | ⟨h, state, _, hsame⟩
      · exact hsame.wellFormed hwf
      · exact hsame.wellFormed (hwf.stopApp h state id)
  | txnData id => exact (sameRegistry_processTxnData p id).wellFormed hwf

/-! ### The messages that always keep the invariant -/

theorem RegistryOk.addApp {p : Processor} (hok : p.RegistryOk) (hwf : p.WellFormed)
    {info : AppInfo} (hnew : p.apps.lookup info.key = none) : (p.addApp info).RegistryOk := by
  rw [registryOk_iff]
  intro r ah hr
  obtain ⟨happ, hstate, hreply⟩ := hok.registered r ah hr
  have hheap := addApp_heap_of_lt p info (hwf _ _ happ).1
  have hne : (p.heap ah.app).key ≠ info.key := by
    intro heq
    rw [heq, hnew] at happ
    cases happ
  constructor
  · rw [hheap]
    exact (AList.lookup_insert_ne hne).trans happ
  · rw [hheap]
    exact hstate
  · rw [hheap]
    exact hreply

theorem RegistryOk.stopApp {p : Processor} (hok : p.RegistryOk) {id : AgentRunID}
    {h : AppHarvest} (hid : p.harvests.lookup id = some h) (state : AppState) :
    (p.stopApp h state id).RegistryOk := by
  rw [registryOk_iff]
  intro r ah hr
  obtain ⟨hne, hlive⟩ := lookup_of_shutdownAppHarvest hr
  -- Another live run id belongs to another application.
  have happ : ah.app ≠ h.app := fun heq => hne (hok.oneRunID r id ah h hlive hid heq)
  have hheap : (p.stopApp h state id).heap ah.app = p.heap ah.app := by
    rw [Processor.stopApp, shutdownAppHarvest_heap, modifyApp_heap_of_ne p _ happ]
  have happs : (p.stopApp h state id).apps = p.apps := by
    rw [Processor.stopApp, shutdownAppHarvest_apps]
    rfl
  obtain ⟨hregistered, hstate, hreply⟩ := hok.registered r ah hlive
  constructor
  · rw [hheap, happs]
    exact hregistered
  · rw [hheap]
    exact hstate
  · rw [hheap]
    exact hreply

/-! ### The messages that keep it exactly when no other run id is concerned -/

theorem connectErrorState_ne_connected (err : CollectorError) :
    connectErrorState err ≠ .connected := by
  rw [connectErrorState]
  split
  · simp
  · split <;> simp

/-- A registered harvest stays registered when another application changes. -/
theorem Registered.modifyApp {p : Processor} {r : AgentRunID} {ah : AppHarvest}
    (h : p.Registered r ah) {a : AppRef} (hne : ah.app ≠ a) (f : App → App) :
    (p.modifyApp a f).Registered r ah := by
  have hheap := modifyApp_heap_of_ne p f hne
  constructor
  · rw [hheap]
    exact h.app
  · rw [hheap]
    exact h.state
  · rw [hheap]
    exact h.reply

theorem registryOk_connectError {p : Processor} (hok : p.RegistryOk) (a : AppRef)
    (err : CollectorError) :
    (p.modifyApp a fun app => { app with state := connectErrorState err }).RegistryOk ↔
      ∀ r ah, p.harvests.lookup r = some ah → ah.app ≠ a := by
  rw [registryOk_iff]
  constructor
  · rintro hok' r ah hr rfl
    have hstate := (hok' r ah hr).state
    rw [modifyApp_heap_self] at hstate
    exact connectErrorState_ne_connected err hstate
  · intro hother r ah hr
    exact (hok.registered r ah hr).modifyApp (hother r ah hr) _

theorem registryOk_connectApp {p : Processor} (hok : p.RegistryOk) (hwf : p.WellFormed)
    {key : AppKey} {a : AppRef} (ha : p.apps.lookup key = some a) (id : AgentRunID) :
    (p.connectApp a id).RegistryOk ↔
      ∀ r ah, p.harvests.lookup r = some ah → ah.app = a → r = id := by
  have hself : (p.connectApp a id).heap a =
      { p.heap a with state := .connected, connectReplyID := some id } := by
    show Function.update p.heap a _ a = _
    rw [Function.update_self]
  rw [registryOk_iff]
  constructor
  · rintro hok' r ah hr rfl
    by_contra hne
    have hlive : (p.connectApp ah.app id).harvests.lookup r = some ah :=
      (AList.lookup_insert_ne hne).trans hr
    have hreply := (hok' r ah hlive).reply
    rw [hself] at hreply
    exact hne (Option.some.inj hreply).symm
  · intro hother r ah hr
    rcases eq_or_ne r id with rfl | hne
    · have hah : some ⟨a⟩ = some ah := (AList.lookup_insert p.harvests).symm.trans hr
      obtain rfl := Option.some.inj hah
      refine ⟨?_, by rw [hself], by rw [hself]⟩
      rw [hself]
      show p.apps.lookup (p.heap a).key = some a
      rw [(hwf key a ha).2]
      exact ha
    · have hlive : p.harvests.lookup r = some ah := (AList.lookup_insert_ne hne).symm.trans hr
      have happ : ah.app ≠ a := fun heq => hne (hother r ah hlive heq)
      obtain ⟨hregistered, hstate, hreply⟩ := (hok.registered r ah hlive).modifyApp happ
        fun app => { app with state := .connected, connectReplyID := some id }
      exact ⟨hregistered, hstate, hreply⟩

/-- A connect result keeps the invariant exactly if it repeats every run id
that is live for the application it is applied to: a failure needs that there
is none, a success that there is no other. -/
theorem registryOk_processConnectAttempt {p : Processor} (hok : p.RegistryOk)
    (hwf : p.WellFormed) (key : AppKey) (rep : Except CollectorError AgentRunID) :
    (p.processConnectAttempt key rep).RegistryOk ↔
      ∀ a, p.apps.lookup key = some a → ∀ r ah, p.harvests.lookup r = some ah → ah.app = a →
        rep = .ok r := by
  rw [processConnectAttempt]
  split
  · next hnone => simp only [hnone, hok, reduceCtorEq, false_implies, implies_true]
  · next a ha =>
      simp only [ha, Option.some.injEq, forall_eq']
      cases rep with
      | error err =>
          rw [registryOk_connectError hok a err]
          simp only [reduceCtorEq, imp_false, ne_eq]
      | ok id =>
          rw [registryOk_connectApp hok hwf ha id]
          simp only [Except.ok.injEq, eq_comm]

/-- Removing an inactive application keeps the invariant exactly if no other
run id is live under its key. -/
theorem registryOk_doHarvest {p : Processor} (hok : p.RegistryOk) (cfg : ProcessorConfig)
    (id : AgentRunID) (ah : AppHarvest) :
    (doHarvest cfg p id ah).RegistryOk ↔
      (removes cfg p ah.app = true → ∀ r ah', p.harvests.lookup r = some ah' →
        (p.heap ah'.app).key = (p.heap ah.app).key → r = id) := by
  rw [doHarvest]
  split
  · next hremoves =>
      simp only [hremoves, true_implies]
      rw [registryOk_iff]
      constructor
      · intro hok' r ah' hr hkey
        by_contra hne
        have hlive : (p.shutdownAppHarvest id).harvests.lookup r = some ah' := by
          rw [lookup_shutdownAppHarvest, if_neg hne]
          exact hr
        have happ : (p.apps.erase (p.heap ah.app).key).lookup
            ((p.shutdownAppHarvest id).heap ah'.app).key = some ah'.app := (hok' r ah' hlive).app
        rw [shutdownAppHarvest_heap, hkey, AList.lookup_erase] at happ
        cases happ
      · intro hother r ah' hr
        obtain ⟨hne, hlive⟩ := lookup_of_shutdownAppHarvest hr
        have hkey : (p.heap ah'.app).key ≠ (p.heap ah.app).key :=
          fun heq => hne (hother r ah' hlive heq)
        obtain ⟨happ, hstate, hreply⟩ := hok.registered r ah' hlive
        have hheap := shutdownAppHarvest_heap p id
        refine ⟨?_, ?_, ?_⟩
        · show (p.apps.erase (p.heap ah.app).key).lookup
            ((p.shutdownAppHarvest id).heap ah'.app).key = some ah'.app
          rw [hheap, AList.lookup_erase_ne hkey]
          exact happ
        · show ((p.shutdownAppHarvest id).heap ah'.app).state = .connected
          rw [hheap]
          exact hstate
        · show ((p.shutdownAppHarvest id).heap ah'.app).connectReplyID = some r
          rw [hheap]
          exact hreply
  · next hstays => exact ⟨fun _ h => absurd h hstays, fun _ => hok⟩

/-! ### Runs -/

/-- The condition on the state before a message: a connect result repeats
every run id that is live for the application it is applied to, and an
application is removed for inactivity only when no other run id than the
trigger's is live under its key. -/
def KeepsRegistry (cfg : ProcessorConfig) (p : Processor) : Message → Prop
  | .connectAttempt i rep =>
      ∀ key ∈ p.connecting[i]?, ∀ a ∈ p.apps.lookup key, ∀ e ∈ p.harvests.entries,
        e.2.app = a → rep = .ok e.1
  | .harvest i =>
      ∀ t ∈ p.triggers[i]?, removes cfg p t.2.app = true → ∀ e ∈ p.harvests.entries,
        (p.heap e.2.app).key = (p.heap t.2.app).key → e.1 = t.1
  | _ => True

theorem forall_entries_iff {p : Processor} {P : AgentRunID → AppHarvest → Prop} :
    (∀ e ∈ p.harvests.entries, P e.1 e.2) ↔ ∀ r ah, p.harvests.lookup r = some ah → P r ah := by
  constructor
  · intro h r ah hr
    exact h ⟨r, ah⟩ (AList.mem_lookup_iff.mp hr)
  · rintro h ⟨r, ah⟩ he
    exact h r ah (AList.mem_lookup_iff.mpr he)

theorem registryOk_step {cfg : ProcessorConfig} {p : Processor} (hwf : p.WellFormed)
    (hok : p.RegistryOk) (m : Message) : (step cfg p m).RegistryOk ↔ KeepsRegistry cfg p m := by
  cases m with
  | elapse d =>
      have hsame : SameRegistry p (step cfg p (.elapse d)) := .of_eq rfl rfl rfl rfl
      exact iff_of_true (hsame.registryOk hok) trivial
  | util =>
      have hsame : SameRegistry p (step cfg p .util) := .of_eq rfl rfl rfl rfl
      exact iff_of_true (hsame.registryOk hok) trivial
  | appInfo id info =>
      refine iff_of_true ?_ trivial
      rcases processAppInfo_cases cfg p id info with hsame | ⟨hnew, hsame⟩
      · exact hsame.registryOk hok
      · exact hsame.registryOk (hok.addApp hwf hnew)
  | connectAttempt i rep =>
      rw [step, KeepsRegistry]
      split
      · next hnone => simp only [hnone, hok, Option.not_mem_none, false_implies, implies_true]
      · next key hkey =>
          have hsame : SameRegistry p { p with connecting := p.connecting.eraseIdx i } :=
            .of_eq rfl rfl rfl rfl
          rw [registryOk_processConnectAttempt (hsame.registryOk hok) hwf key rep]
          simp only [hkey, Option.mem_def, Option.some.injEq, forall_eq']
          exact forall₂_congr fun a _ =>
            (forall_entries_iff (P := fun r ah => ah.app = a → rep = .ok r)).symm
  | harvest i =>
      rw [step, KeepsRegistry]
      split
      · next hnone => simp only [hnone, hok, Option.not_mem_none, false_implies, implies_true]
      · next id ah htrigger =>
          rw [registryOk_doHarvest hok cfg id ah]
          simp only [htrigger, Option.mem_def, Option.some.injEq, forall_eq']
          exact imp_congr_right fun _ => (forall_entries_iff
            (P := fun r ah' => (p.heap ah'.app).key = (p.heap ah.app).key → r = id)).symm
  | harvestError id err =>
      refine iff_of_true ?_ trivial
      rcases processHarvestError_cases cfg p id err with hsame | ⟨h, state, hid, hsame⟩
      · exact hsame.registryOk hok
      · exact hsame.registryOk (hok.stopApp hid state)
  | txnData id => exact iff_of_true ((sameRegistry_processTxnData p id).registryOk hok) trivial

theorem wellFormed_new (unallocated : App) : (new unallocated).WellFormed := by
  intro k a hk
  cases hk

theorem registryOk_new (unallocated : App) : (new unallocated).RegistryOk := by
  rw [registryOk_iff]
  intro r ah hr
  cases hr

theorem throughout_wellFormed (cfg : ProcessorConfig) (unallocated : App) (ms : List Message) :
    Throughout (step cfg) WellFormed (new unallocated) ms :=
  throughout_of_along (fun _ m hwf _ => wellFormed_step hwf m)
    (wellFormed_new unallocated) (along_true _ ms)

/-- The registry is in order in every state of a run exactly if every message
of it meets the condition in the state in which it is handled. -/
theorem registry_throughout_iff (cfg : ProcessorConfig) (unallocated : App) (ms : List Message) :
    Throughout (step cfg) RegistryOk (new unallocated) ms ↔
      Along (step cfg) (KeepsRegistry cfg) (new unallocated) ms := by
  have hwf := throughout_wellFormed cfg unallocated ms
  have hiff : Throughout (step cfg) (fun p => p.WellFormed ∧ p.RegistryOk) (new unallocated) ms ↔
      Along (step cfg) (KeepsRegistry cfg) (new unallocated) ms := by
    apply throughout_iff_along
    · rintro p m ⟨hp, hok⟩
      rw [registryOk_step hp hok m]
      exact and_iff_right (wellFormed_step hp m)
    · exact ⟨wellFormed_new unallocated, registryOk_new unallocated⟩
  rw [← hiff, throughout_and_iff]
  exact (and_iff_right hwf).symm

/-- The daemon's configuration: ten minutes until an application is inactive. -/
def defaultConfig : ProcessorConfig where
  appTimeout := 600 * 10 ^ 9
  appConnectBackoff := appConnectAttemptBackoff

def sampleInfo : AppInfo where
  license := "license"
  appname := "app"
  agentLanguage := "c"
  highSecurity := false
  redirectCollector := "collector"
  supportedPoliciesHash := ""
  hostname := "host"

/-- Two attempts are under way for one application, because the first was not
answered within the backoff, and both succeed. -/
def twoAttempts : List Message :=
  [.util, .elapse (60 * 10 ^ 9), .appInfo none sampleInfo, .elapse (30 * 10 ^ 9),
    .appInfo none sampleInfo, .connectAttempt 0 (.ok "run1"), .connectAttempt 0 (.ok "run2")]

theorem twoAttempts_two_runIDs :
    ¬ Throughout (step defaultConfig) RegistryOk (new (newApp sampleInfo 0)) twoAttempts := by
  intro h
  have hlast := h.last
  have hone := hlast.oneRunID "run1" "run2" ⟨0⟩ ⟨0⟩ (by decide) (by decide) rfl
  exact absurd hone (by decide)

end Processor

end AxiomDaemon.Daemon

import Mathlib.Algebra.Order.Group.Nat
import AxiomDaemon.Daemon.RegistryInvariant

/-!
How applications come into the registry and leave it.

An application is registered under its key by a query, and only `doHarvest`
removes one again: the trigger of an `AppHarvest` whose application is inactive
erases whatever is registered under that application's key. References are given
out in order, so the application registered under a key is the last one that was
made with it. A trigger that is under way when its harvest is shut down still
names the application of that harvest, and by the time it is handled another
application may have been registered under the key.
-/

namespace AxiomDaemon.Daemon

open AxiomDaemon.Lib

namespace Processor

/-! ### What a message does to the registered applications -/

/-- The triggers after a message: those from before, and those of registered
applications. -/
def TriggersFrom (p p' : Processor) : Prop :=
  ∀ t ∈ p'.triggers, t ∈ p.triggers ∨ ∃ k, p.apps.lookup k = some t.2.app

/-- The three things that a message can do: nothing, register an application, or
erase a key. -/
inductive AppsStep (cfg : ProcessorConfig) (p : Processor) : Message → Processor → Prop
  | same {m : Message} {p' : Processor} (apps : p'.apps = p.apps) (next : p'.next = p.next)
      (key : ∀ a, (p'.heap a).key = (p.heap a).key) (triggers : TriggersFrom p p') :
      AppsStep cfg p m p'
  | added {id : Option AgentRunID} {info : AppInfo} {p' : Processor}
      (dead : (id.any fun r => (p.harvests.lookup r).isSome) = false)
      (unknown : p.apps.lookup info.key = none) (room : p.apps.entries.length ≤ appLimit)
      (apps : p'.apps = p.apps.insert info.key p.next) (next : p'.next = p.next + 1)
      (key : ∀ a < p.next, (p'.heap a).key = (p.heap a).key)
      (newKey : (p'.heap p.next).key = info.key) (triggers : TriggersFrom p p') :
      AppsStep cfg p (.appInfo id info) p'
  | removed {i : ℕ} {t : AgentRunID × AppHarvest} {p' : Processor}
      (trigger : p.triggers[i]? = some t) (inactive : removes cfg p t.2.app = true)
      (apps : p'.apps = p.apps.erase (p.heap t.2.app).key) (next : p'.next = p.next)
      (heap : p'.heap = p.heap) (triggers : TriggersFrom p p') : AppsStep cfg p (.harvest i) p'

theorem triggersFrom_of_eq {p p' : Processor} (h : p'.triggers = p.triggers) : TriggersFrom p p' :=
  fun _ ht => Or.inl (h ▸ ht)

theorem SameRegistry.appsStep {cfg : ProcessorConfig} {p p' : Processor} (h : SameRegistry p p')
    (htriggers : TriggersFrom p p') (m : Message) : AppsStep cfg p m p' :=
  .same h.apps h.next h.key htriggers

theorem considerConnect_triggers (cfg : ProcessorConfig) (p : Processor) (a : AppRef) :
    (considerConnect cfg p a).triggers = p.triggers := by
  rw [considerConnect]
  split <;> rfl

theorem shutdownAppHarvest_triggers (p : Processor) (id : AgentRunID) :
    (p.shutdownAppHarvest id).triggers = p.triggers := by
  rw [shutdownAppHarvest]
  split <;> rfl

theorem appsStep_appInfo (cfg : ProcessorConfig) (p : Processor) (id : Option AgentRunID)
    (info : AppInfo) : AppsStep cfg p (.appInfo id info) (processAppInfo cfg p id info).1 := by
  rw [processAppInfo]
  split
  · exact (SameRegistry.refl p).appsStep (triggersFrom_of_eq rfl) _
  · next hdead =>
      split
      · next a ha =>
          have hsame := (sameRegistry_modifyApp p a
            (f := fun app => { app with lastActivity := p.now }) (fun _ => rfl) (fun _ => rfl)
            (fun _ => rfl)).trans (sameRegistry_considerConnect cfg _ a)
          exact hsame.appsStep (triggersFrom_of_eq (considerConnect_triggers cfg _ a)) _
      · next hnone =>
          split
          · exact (SameRegistry.refl p).appsStep (triggersFrom_of_eq rfl) _
          · next hroom =>
              have hsame := sameRegistry_considerConnect cfg (p.addApp info) p.next
              refine .added (Bool.eq_false_iff.mpr hdead) hnone (not_lt.mp hroom) hsame.apps
                hsame.next (fun a ha => ?_) ?_
                (triggersFrom_of_eq (considerConnect_triggers cfg _ p.next))
              · rw [hsame.key, addApp_heap_of_lt p info ha]
              · rw [hsame.key]
                show (Function.update p.heap p.next (newApp info p.now) p.next).key = info.key
                rw [Function.update_self]
                rfl

theorem appsStep_connectAttempt (cfg : ProcessorConfig) (p : Processor) (i : ℕ)
    (rep : Except CollectorError AgentRunID) :
    AppsStep cfg p (.connectAttempt i rep) (step cfg p (.connectAttempt i rep)) := by
  rw [step]
  split
  · exact (SameRegistry.refl p).appsStep (triggersFrom_of_eq rfl) _
  · next key _ =>
      rw [processConnectAttempt]
      split
      · exact .same rfl rfl (fun _ => rfl) (triggersFrom_of_eq rfl)
      · next a ha =>
          cases rep with
          | error err =>
              refine .same rfl rfl ?_ (triggersFrom_of_eq rfl)
              exact modifyApp_heap_congr _ a _ App.key fun _ => rfl
          | ok id =>
              refine .same rfl rfl ?_ fun t ht => ?_
              · exact modifyApp_heap_congr _ a
                  (fun app => { app with state := .connected, connectReplyID := some id }) App.key
                  fun _ => rfl
              · rcases List.mem_append.mp ht with hold | hnew
                · exact Or.inl hold
                · rw [List.mem_singleton.mp hnew]
                  exact Or.inr ⟨key, ha⟩

theorem appsStep_harvest (cfg : ProcessorConfig) (p : Processor) (i : ℕ) :
    AppsStep cfg p (.harvest i) (step cfg p (.harvest i)) := by
  rw [step]
  split
  · exact (SameRegistry.refl p).appsStep (triggersFrom_of_eq rfl) _
  · next id ah htrigger =>
      rw [doHarvest]
      split
      · next hinactive =>
          exact .removed htrigger hinactive rfl (shutdownAppHarvest_next p id)
            (shutdownAppHarvest_heap p id)
            (triggersFrom_of_eq (shutdownAppHarvest_triggers p id))
      · exact (SameRegistry.refl p).appsStep (triggersFrom_of_eq rfl) _

theorem appsStep_harvestError (cfg : ProcessorConfig) (p : Processor) (id : AgentRunID)
    (err : CollectorError) :
    AppsStep cfg p (.harvestError id err) (processHarvestError cfg p id err) := by
  have htriggers : (processHarvestError cfg p id err).triggers = p.triggers := by
    rw [processHarvestError]
    split
    · rfl
    · split
      · exact shutdownAppHarvest_triggers _ id
      · split
        · exact shutdownAppHarvest_triggers _ id
        · split
          · exact (considerConnect_triggers cfg _ _).trans (shutdownAppHarvest_triggers _ id)
          · rfl
  rcases processHarvestError_cases cfg p id err with hsame | ⟨h, state, _, hsame⟩
  · exact hsame.appsStep (triggersFrom_of_eq htriggers) _
  · refine .same ?_ ?_ (fun a => ?_) (triggersFrom_of_eq htriggers)
    · rw [hsame.apps, stopApp, shutdownAppHarvest_apps]
      rfl
    · rw [hsame.next, stopApp, shutdownAppHarvest_next]
      rfl
    · rw [hsame.key, stopApp, shutdownAppHarvest_heap]
      exact modifyApp_heap_congr p h.app (fun app => { app with state := state }) App.key
        (fun _ => rfl) a

theorem appsStep (cfg : ProcessorConfig) (p : Processor) (m : Message) :
    AppsStep cfg p m (step cfg p m) := by
  cases m with
  | elapse d => exact .same rfl rfl (fun _ => rfl) (triggersFrom_of_eq rfl)
  | util => exact .same rfl rfl (fun _ => rfl) (triggersFrom_of_eq rfl)
  | appInfo id info => exact appsStep_appInfo cfg p id info
  | connectAttempt i rep => exact appsStep_connectAttempt cfg p i rep
  | harvest i => exact appsStep_harvest cfg p i
  | harvestError id err => exact appsStep_harvestError cfg p id err
  | txnData id =>
      refine (sameRegistry_processTxnData p id).appsStep (triggersFrom_of_eq ?_) _
      show (processTxnData p id).triggers = p.triggers
      rw [processTxnData]
      split <;> rfl

/-! ### The last application made with a key -/

/-- Registered applications are the last ones made with their keys, and triggers
belong to applications that were made. -/
structure Chronicle (p : Processor) : Prop where
  wellFormed : p.WellFormed
  newest : ∀ k a, p.apps.lookup k = some a → ∀ b, a < b → b < p.next → (p.heap b).key ≠ k
  made : ∀ t ∈ p.triggers, t.2.app < p.next

theorem chronicle_new (unallocated : App) : (new unallocated).Chronicle where
  wellFormed := wellFormed_new unallocated
  newest := fun _ _ hk => nomatch hk
  made := fun _ ht => nomatch ht

theorem Chronicle.made_of_from {p p' : Processor} (h : p.Chronicle) (hnext : p.next ≤ p'.next)
    (htriggers : TriggersFrom p p') : ∀ t ∈ p'.triggers, t.2.app < p'.next := by
  intro t ht
  rcases htriggers t ht with hold | ⟨k, hk⟩
  · exact lt_of_lt_of_le (h.made t hold) hnext
  · exact lt_of_lt_of_le (h.wellFormed k _ hk).1 hnext

theorem Chronicle.step {cfg : ProcessorConfig} {p : Processor} (h : p.Chronicle) (m : Message) :
    (step cfg p m).Chronicle := by
  have hwf : (Processor.step cfg p m).WellFormed := wellFormed_step h.wellFormed m
  cases appsStep cfg p m with
  | same apps next key triggers =>
      refine ⟨hwf, fun k a hk b hab hb => ?_, h.made_of_from next.ge triggers⟩
      rw [apps] at hk
      rw [next] at hb
      rw [key]
      exact h.newest k a hk b hab hb
  | @added id info _ dead unknown room apps next key newKey triggers =>
      refine ⟨hwf, fun k a hk b hab hb => ?_, h.made_of_from (next ▸ Nat.le_succ p.next) triggers⟩
      rw [apps] at hk
      rw [next] at hb
      rcases eq_or_ne k info.key with rfl | hne
      · rw [AList.lookup_insert] at hk
        obtain rfl := Option.some.inj hk
        exact absurd hab (Nat.not_lt.mpr (Nat.lt_succ_iff.mp hb))
      · rw [AList.lookup_insert_ne hne] at hk
        rcases Nat.lt_succ_iff_lt_or_eq.mp hb with hlt | rfl
        · rw [key b hlt]
          exact h.newest k a hk b hab hlt
        · rw [newKey]
          exact hne.symm
  | @removed i t _ trigger inactive apps next heap triggers =>
      refine ⟨hwf, fun k a hk b hab hb => ?_, h.made_of_from next.ge triggers⟩
      rw [apps] at hk
      rw [next] at hb
      rw [heap]
      rcases eq_or_ne k (p.heap t.2.app).key with rfl | hne
      · rw [AList.lookup_erase] at hk
        cases hk
      · rw [AList.lookup_erase_ne hne] at hk
        exact h.newest k a hk b hab hb

/-! ### Whose inactivity removes an application -/

/-- An application is only forgotten for its own inactivity: if the entry under a key is not
there after a message, the message was the trigger of the application stored there, and that
application was inactive. -/
def ForgetsOnlyInactive (cfg : ProcessorConfig) (p : Processor) (m : Message) : Prop :=
  ∀ k a, p.apps.lookup k = some a → (step cfg p m).apps.lookup k ≠ some a →
    ∃ i, m = .harvest i ∧ ∃ t, p.triggers[i]? = some t ∧ t.2.app = a ∧ removes cfg p a = true

/-- When the trigger of an inactive application is handled and its key is taken, no
application was made with that key after it. -/
def NotReplaced (cfg : ProcessorConfig) (p : Processor) : Message → Prop
  | .harvest i =>
      ∀ t ∈ p.triggers[i]?, removes cfg p t.2.app = true →
        (p.apps.lookup (p.heap t.2.app).key).isSome = true →
          ∀ b < p.next, t.2.app < b → (p.heap b).key ≠ (p.heap t.2.app).key
  | _ => True

/-- The application under the key of a trigger is the trigger's own exactly if none was made
after it. -/
theorem Chronicle.stored_iff {p : Processor} (h : p.Chronicle) {a c : AppRef} (hc : c < p.next)
    (ha : p.apps.lookup (p.heap c).key = some a) :
    a = c ↔ ∀ b < p.next, c < b → (p.heap b).key ≠ (p.heap c).key := by
  obtain ⟨hlt, hkey⟩ := h.wellFormed _ a ha
  constructor
  · rintro rfl b hb hab
    exact h.newest _ a ha b hab hb
  · intro hnone
    rcases lt_trichotomy a c with hac | heq | hca
    · exact absurd rfl (h.newest _ a ha c hac hc)
    · exact heq
    · exact absurd hkey (hnone a hlt hca)

theorem Chronicle.forgetsOnlyInactive_iff {p : Processor} (h : p.Chronicle) (cfg : ProcessorConfig)
    (m : Message) : ForgetsOnlyInactive cfg p m ↔ NotReplaced cfg p m := by
  constructor
  · intro hforgets
    cases m with
    | harvest i =>
        intro t ht hinactive htaken
        obtain ⟨a, ha⟩ := Option.isSome_iff_exists.mp htaken
        have herased : (Processor.step cfg p (.harvest i)).apps.lookup (p.heap t.2.app).key = none := by
          rw [Processor.step, ht]
          simp only [doHarvest, hinactive, if_true]
          exact AList.lookup_erase _ p.apps
        obtain ⟨j, hj, t', ht', happ, _⟩ := hforgets _ a ha (by rw [herased]; simp)
        obtain ⟨rfl⟩ := hj
        obtain rfl : t = t' := Option.some.inj (ht.symm.trans ht')
        have hmem : t ∈ p.triggers := List.mem_of_getElem? ht
        exact (h.stored_iff (h.made t hmem) ha).mp happ.symm
    | _ => trivial
  · intro hguard k a ha hgone
    cases appsStep cfg p m with
    | same apps next key triggers => exact absurd (apps ▸ ha) hgone
    | added dead unknown room apps next key newKey triggers =>
        refine absurd ?_ hgone
        rw [apps, AList.lookup_insert_ne ?_]
        · exact ha
        · rintro rfl
          rw [unknown] at ha
          cases ha
    | @removed i t _ trigger inactive apps next heap triggers =>
        have hkey : k = (p.heap t.2.app).key := by
          by_contra hne
          rw [apps, AList.lookup_erase_ne hne] at hgone
          exact hgone ha
        subst hkey
        have htaken : (p.apps.lookup (p.heap t.2.app).key).isSome = true := by rw [ha]; rfl
        have hown := (h.stored_iff (h.made t (List.mem_of_getElem? trigger)) ha).mpr
          (hguard t trigger inactive htaken)
        exact ⟨i, rfl, t, trigger, hown.symm, hown ▸ inactive⟩

theorem chronicle_run (cfg : ProcessorConfig) (unallocated : App) (ms : List Message) :
    Throughout (step cfg) Chronicle (new unallocated) ms :=
  throughout_of_along (fun _ m h _ => h.step m) (chronicle_new unallocated) (along_true _ ms)

/-- Along a run applications are only forgotten for their own inactivity exactly if no trigger
of an inactive application is handled while another one is registered that was made with its key
later. -/
theorem forgetsOnlyInactive_run_iff (cfg : ProcessorConfig) (unallocated : App)
    (ms : List Message) :
    Along (step cfg) (ForgetsOnlyInactive cfg) (new unallocated) ms ↔
      Along (step cfg) (NotReplaced cfg) (new unallocated) ms :=
  along_iff_along (chronicle_run cfg unallocated ms) fun _ m h => h.forgetsOnlyInactive_iff cfg m

/-- An application connects and falls silent. Two of its triggers are under way when it is found
inactive; before the second is handled, a query registers its key again. -/
def replacedApp : List Message :=
  [.util, .elapse (60 * 10 ^ 9), .appInfo none sampleInfo, .connectAttempt 0 (.ok "run1"),
    .elapse (601 * 10 ^ 9), .harvest 0, .appInfo none sampleInfo, .harvest 0]

theorem replacedApp_forgotten :
    ¬ Along (step defaultConfig) (ForgetsOnlyInactive defaultConfig) (new (newApp sampleInfo 0))
      replacedApp := by
  rintro ⟨_, _, _, _, _, _, _, hlast, _⟩
  obtain ⟨i, hi, t, ht, happ, _⟩ := hlast sampleInfo.key 1 (by decide) (by decide)
  obtain ⟨rfl⟩ := hi
  obtain rfl : ("run1", ⟨0⟩) = t := Option.some.inj ht
  exact absurd happ (by decide)

end Processor

end AxiomDaemon.Daemon

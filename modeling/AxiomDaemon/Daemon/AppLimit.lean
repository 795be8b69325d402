import AxiomDaemon.Axiom.AppList
import AxiomDaemon.Daemon.RegistryHistory

/-!
The two limits on the number of applications: that of the daemon's registry
(`processAppInfo`) and that of the agent's list (`nr_app_find_or_add_app`), which
are meant to match.

Both know an application again by its identity, and neither stores two of one
identity. The agent adds an application while it has fewer than the limit. The
daemon refuses one only when it has more, so that it takes one too many: it keeps
to the limit exactly as long as no unknown application asks while the registry
holds as many as the limit allows.
-/

namespace AxiomDaemon.Daemon

open AxiomDaemon.Lib

namespace Processor

/-! ### The size of the registry -/

/-- A query of an unknown application that no live run id vouches for finds the registry below
its limit. -/
def BelowLimit (p : Processor) : Message → Prop
  | .appInfo id info =>
      (id.any fun r => (p.harvests.lookup r).isSome) = false → p.apps.lookup info.key = none →
        p.apps.entries.length < appLimit
  | _ => True

theorem length_insert {p : Processor} {k : AppKey} (a : AppRef) (h : p.apps.lookup k = none) :
    (p.apps.insert k a).entries.length = p.apps.entries.length + 1 := by
  rw [AList.entries_insert_of_notMem (AList.lookup_eq_none.mp h), List.length_cons]

theorem length_erase_le (p : Processor) (k : AppKey) :
    (p.apps.erase k).entries.length ≤ p.apps.entries.length :=
  (List.kerase_sublist k p.apps.entries).length_le

/-- An unknown application is registered while there are no more than the limit. -/
theorem processAppInfo_apps (cfg : ProcessorConfig) {p : Processor} {id : Option AgentRunID}
    {info : AppInfo} (hdead : (id.any fun r => (p.harvests.lookup r).isSome) = false)
    (hunknown : p.apps.lookup info.key = none) (hroom : p.apps.entries.length ≤ appLimit) :
    (processAppInfo cfg p id info).1.apps = p.apps.insert info.key p.next := by
  rw [processAppInfo, hdead, hunknown]
  simp only [Bool.false_eq_true, if_false, if_neg (not_lt.mpr hroom)]
  exact (sameRegistry_considerConnect cfg (p.addApp info) p.next).apps

/-- A message keeps the registry within the limit exactly if it finds it below. -/
theorem length_step_iff {cfg : ProcessorConfig} {p : Processor} (m : Message)
    (h : p.apps.entries.length ≤ appLimit) :
    (step cfg p m).apps.entries.length ≤ appLimit ↔ BelowLimit p m := by
  constructor
  · intro hafter
    cases m with
    | appInfo id info =>
        intro hdead hunknown
        have happs : (step cfg p (.appInfo id info)).apps = p.apps.insert info.key p.next :=
          processAppInfo_apps cfg hdead hunknown h
        rw [happs, length_insert _ hunknown] at hafter
        exact hafter
    | _ => trivial
  · intro hbelow
    cases appsStep cfg p m with
    | same apps _ _ _ => rw [apps]; exact h
    | added dead unknown _ apps _ _ _ _ =>
        rw [apps, length_insert _ unknown]
        exact hbelow dead unknown
    | removed _ _ apps _ _ _ =>
        rw [apps]
        exact (length_erase_le p _).trans h

/-! ### Finding applications again -/

/-- A query under the key of a registered application registers nothing and is answered from that
application. -/
def FindsApp (cfg : ProcessorConfig) (p : Processor) (k : AppKey) (a : AppRef) : Prop :=
  p.apps.lookup k = some a ∧ ∀ info : AppInfo, info.key = k →
    (processAppInfo cfg p none info).1.apps = p.apps ∧
      (processAppInfo cfg p none info).2 = appInfoReply (p.heap a)

theorem findsApp_of_lookup {cfg : ProcessorConfig} {p : Processor} {k : AppKey} {a : AppRef}
    (h : p.apps.lookup k = some a) : FindsApp cfg p k a := by
  refine ⟨h, ?_⟩
  rintro info rfl
  have hsame := (sameRegistry_considerConnect cfg
    (p.modifyApp a fun app => { app with lastActivity := p.now }) a).apps
  simp only [processAppInfo, Option.any_none, Bool.false_eq_true, if_false, h]
  refine ⟨hsame, ?_⟩
  rw [modifyApp_heap_self]
  rfl

/-- The message is the trigger of an inactive application with this key. -/
def RemovesKey (cfg : ProcessorConfig) (k : AppKey) (p : Processor) (m : Message) : Prop :=
  ∃ i t, m = .harvest i ∧ p.triggers[i]? = some t ∧ removes cfg p t.2.app = true ∧
    (p.heap t.2.app).key = k

theorem lookup_step {cfg : ProcessorConfig} {p : Processor} {m : Message} {k : AppKey} {a : AppRef}
    (h : p.apps.lookup k = some a) (hkept : ¬ RemovesKey cfg k p m) :
    (step cfg p m).apps.lookup k = some a := by
  cases appsStep cfg p m with
  | same apps _ _ _ => rw [apps, h]
  | added _ unknown _ apps _ _ _ _ =>
      rw [apps, AList.lookup_insert_ne ?_, h]
      rintro rfl
      rw [unknown] at h
      cases h
  | @removed i t _ trigger inactive apps _ _ _ =>
      rw [apps, AList.lookup_erase_ne ?_, h]
      intro hk
      exact hkept ⟨i, t, rfl, trigger, inactive, hk.symm⟩

theorem lookup_run {cfg : ProcessorConfig} {p : Processor} {k : AppKey} {a : AppRef}
    (h : p.apps.lookup k = some a) {ms : List Message}
    (hkept : Along (step cfg) (fun p m => ¬ RemovesKey cfg k p m) p ms) :
    (runFrom (step cfg) p ms).apps.lookup k = some a := by
  induction ms generalizing p with
  | nil => exact h
  | cons m ms ih => exact ih (lookup_step h hkept.1) hkept.2

theorem WellFormed.unique {p : Processor} (h : p.WellFormed) {k k' : AppKey} {a a' : AppRef}
    (ha : p.apps.lookup k = some a) (ha' : p.apps.lookup k' = some a')
    (hkey : (p.heap a).key = (p.heap a').key) : a = a' := by
  have hk : k = k' := (h k a ha).2.symm.trans (hkey.trans (h k' a' ha').2)
  subst hk
  exact Option.some.inj (ha.symm.trans ha')

/-! ### Both limits -/

/-- The registry holds no more than the limit, no two applications with one identity, and every
application that was registered and not removed. -/
structure DaemonApps (cfg : ProcessorConfig) (start : Processor) (ms : List Message) : Prop where
  limit : Throughout (step cfg) (fun p => p.apps.entries.length ≤ appLimit) start ms
  unique : Throughout (step cfg) (fun p => ∀ k k' a a', p.apps.lookup k = some a →
    p.apps.lookup k' = some a' → (p.heap a).key = (p.heap a').key → a = a') start ms
  found : ∀ before after k a, ms = before ++ after →
    (runFrom (step cfg) start before).apps.lookup k = some a →
    Along (step cfg) (fun p m => ¬ RemovesKey cfg k p m) (runFrom (step cfg) start before) after →
      FindsApp cfg (runFrom (step cfg) start ms) k a

open AxiomDaemon.Axiom in
/-- The agent's list holds no more than its limit, no two applications with one identity, and
every application that it has returned. -/
structure AgentApps {ω : Type} (hostname : Bytes) (infos : List (Option (NrAppInfo ω))) : Prop where
  limit : Throughout (nrAppExec hostname) (fun applist => applist.numApps ≤ nrAppLimit)
    nrApplistCreate infos
  unique : Throughout (nrAppExec hostname) (fun applist => ∀ i j app app', applist.Stores i app →
    applist.Stores j app' → app.info.identity = app'.info.identity → i = j) nrApplistCreate infos
  found : ∀ before info after i, infos = before ++ info :: after →
    (nrAppFindOrAddApp hostname (runFrom (nrAppExec hostname) nrApplistCreate before) info).1 =
      some i →
    nrAppFindOrAddApp hostname (runFrom (nrAppExec hostname) nrApplistCreate infos) info =
      (some i, runFrom (nrAppExec hostname) nrApplistCreate infos)

open AxiomDaemon.Axiom in
theorem agentApps {ω : Type} (hostname : Bytes) (infos : List (Option (NrAppInfo ω))) :
    AgentApps hostname infos := by
  have hfilled : Throughout (nrAppExec hostname) NrAppList.Filled
      (nrApplistCreate : NrAppList ω) infos :=
    throughout_of_along (fun _ info h _ => h.step hostname info) filled_nrApplistCreate
      (along_true _ infos)
  refine ⟨hfilled.imp fun _ h => h.numApps_le, hfilled.imp fun _ h => h.distinct, ?_⟩
  rintro before info after i rfl hi
  rw [runFrom_append]
  exact findOrAdd_again hostname (filled_nrApplistCreate.run hostname before) hi after

theorem daemonApps_iff (cfg : ProcessorConfig) (unallocated : App) (ms : List Message) :
    DaemonApps cfg (new unallocated) ms ↔
      Along (step cfg) BelowLimit (new unallocated) ms := by
  have hiff : Throughout (step cfg) (fun p => p.apps.entries.length ≤ appLimit) (new unallocated)
      ms ↔ Along (step cfg) BelowLimit (new unallocated) ms :=
    throughout_iff_along (fun p m h => length_step_iff m h) (Nat.zero_le _)
  rw [← hiff]
  refine ⟨DaemonApps.limit, fun hlimit => ⟨hlimit, ?_, ?_⟩⟩
  · exact (throughout_wellFormed cfg unallocated ms).imp fun p h k k' a a' => h.unique
  · rintro before after k a rfl ha hkept
    rw [runFrom_append]
    exact findsApp_of_lookup (lookup_run ha hkept)

open AxiomDaemon.Axiom in
/-- Both registries hold no more applications than their limits, find again what they hold and
hold nothing twice, exactly if no unknown application asks the daemon while its registry is as
large as the limit. -/
theorem appLimits_iff {ω : Type} (cfg : ProcessorConfig) (unallocated : App) (ms : List Message)
    (hostname : Bytes) (infos : List (Option (NrAppInfo ω))) :
    (DaemonApps cfg (new unallocated) ms ∧ AgentApps hostname infos) ↔
      Along (step cfg) BelowLimit (new unallocated) ms := by
  rw [daemonApps_iff]
  exact and_iff_left (agentApps hostname infos)

/-- Applications of different names. -/
def infoOf (n : ℕ) : AppInfo := { sampleInfo with appname := String.ofList (List.replicate n 'a') }

theorem infoOf_key_injective {m n : ℕ} (h : (infoOf m).key = (infoOf n).key) : m = n := by
  have hname := congrArg (fun k : AppKey => k.appname.toList.length) h
  simpa [infoOf, AppInfo.key] using hname

/-- That many applications ask, one after the other. -/
def queries (n : ℕ) : List Message := (List.range n).map fun i => .appInfo none (infoOf i)

/-- As long as the registry is no larger than the limit every one of them is registered. -/
theorem runFrom_queries (cfg : ProcessorConfig) (unallocated : App) {n : ℕ}
    (hn : n ≤ appLimit + 1) :
    (runFrom (step cfg) (new unallocated) (queries n)).apps.entries.length = n ∧
      ∀ k a, (runFrom (step cfg) (new unallocated) (queries n)).apps.lookup k = some a →
        ∃ i < n, k = (infoOf i).key := by
  induction n with
  | zero => exact ⟨rfl, fun k a hk => nomatch hk⟩
  | succ n ih =>
      obtain ⟨hlen, hkeys⟩ := ih (by omega)
      have hsplit : queries (n + 1) = queries n ++ [.appInfo none (infoOf n)] := by
        rw [queries, List.range_succ, List.map_append]
        rfl
      rw [hsplit, runFrom_append]
      generalize runFrom (step cfg) (new unallocated) (queries n) = p at hlen hkeys
      have hunknown : p.apps.lookup (infoOf n).key = none := by
        rw [Option.eq_none_iff_forall_ne_some]
        intro a ha
        obtain ⟨i, hi, hkey⟩ := hkeys _ a ha
        exact absurd (infoOf_key_injective hkey) hi.ne'
      have happs : (step cfg p (.appInfo none (infoOf n))).apps =
          p.apps.insert (infoOf n).key p.next :=
        processAppInfo_apps cfg rfl hunknown (by omega)
      rw [runFrom_cons, runFrom_nil, happs]
      refine ⟨by rw [length_insert _ hunknown, hlen], fun k a hk => ?_⟩
      rcases eq_or_ne k (infoOf n).key with rfl | hne
      · exact ⟨n, Nat.lt_succ_self n, rfl⟩
      · rw [AList.lookup_insert_ne hne] at hk
        obtain ⟨i, hi, hkey⟩ := hkeys k a hk
        exact ⟨i, Nat.lt_succ_of_lt hi, hkey⟩

/-- One application more than the limit. -/
theorem appLimit_exceeded :
    ¬ (DaemonApps defaultConfig (new (newApp sampleInfo 0)) (queries 251) ∧
      AgentApps (ω := Unit) [] []) := by
  rintro ⟨hdaemon, _⟩
  have hlast := hdaemon.limit.last
  rw [(runFrom_queries defaultConfig (newApp sampleInfo 0) (n := 251) le_rfl).1] at hlast
  exact absurd hlast (by decide)

end Processor

end AxiomDaemon.Daemon

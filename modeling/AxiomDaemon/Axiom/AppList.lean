import AxiomDaemon.Axiom.SegmentTraces
import AxiomDaemon.Lib.Transition

/-!
The agent's list of applications (`nr_app.c`).

The list has a fixed number of slots, of which the first `num_apps` are in use;
an application that was added is never taken out. An application is identified by
its licence and its name. A string is given by its characters. Objects are only ever
copied, so their type `ω` is a parameter, and so is the name of the host. Locks are
left out: a call has the list to itself.
-/

namespace AxiomDaemon.Axiom

open AxiomDaemon.Lib

variable {ω : Type}

/-- `NR_APP_LIMIT`. -/
def nrAppLimit : ℕ := 250

/-- `NR_LICENSE_SIZE`. -/
def nrLicenseSize : ℕ := 40

/-- `NR_PRINTABLE_LICENSE_WINDOW_SIZE`. -/
def nrPrintableLicenseWindowSize : ℕ := 2

/-- `nrapptype_t`. -/
inductive NrAppType
  | invalid
  | unknown
  | ok
  deriving DecidableEq

/-- `nr_app_info_t`. -/
structure NrAppInfo (ω : Type) where
  highSecurity : ℤ
  license : Option Bytes
  settings : Option ω
  environment : Option ω
  labels : Option ω
  hostDisplayName : Option Bytes
  lang : Option Bytes
  version : Option Bytes
  appname : Option Bytes
  redirectCollector : Option Bytes
  securityPoliciesToken : Option Bytes
  supportedSecurityPolicies : Option ω

/-- `nrapp_t`, as far as `create_new_app` sets it. -/
structure NrApp (ω : Type) where
  info : NrAppInfo ω
  state : NrAppType
  plicense : Option Bytes
  hostName : Bytes
  entityName : Option Bytes

/-- `nrapplist_t`. -/
structure NrAppList (ω : Type) where
  numApps : ℕ
  apps : List (Option (NrApp ω))

/-- `nr_applist_create`. -/
def nrApplistCreate : NrAppList ω where
  numApps := 0
  apps := List.replicate nrAppLimit none

/-- The three dots of `NR_PRINTABLE_LICENSE_FMT`. -/
def dots : Bytes := [46, 46, 46]

/-- `nr_app_create_printable_license`. -/
def nrAppCreatePrintableLicense (license : Option Bytes) : Option Bytes :=
  match license with
  | none => none
  | some license =>
      if license.length ≠ nrLicenseSize then none
      else
        some (license.take nrPrintableLicenseWindowSize ++ dots ++
          license.drop (nrLicenseSize - nrPrintableLicenseWindowSize))

/-- `nr_app_get_primary_app_name`: the name up to the first semicolon. -/
def nrAppGetPrimaryAppName (appname : Option Bytes) : Option Bytes :=
  match appname with
  | none => none
  | some appname =>
      if appname = [] then none else some (appname.take (appname.idxOf 59))

/-- `create_new_app`. -/
def createNewApp (hostname : Bytes) (info : NrAppInfo ω) : NrApp ω where
  info :=
    { highSecurity := info.highSecurity
      license := some (nrStrdup info.license)
      settings := info.settings
      environment := info.environment
      labels := info.labels
      hostDisplayName := some (nrStrdup info.hostDisplayName)
      lang := some (nrStrdup info.lang)
      version := some (nrStrdup info.version)
      appname := some (nrStrdup info.appname)
      redirectCollector := some (nrStrdup info.redirectCollector)
      securityPoliciesToken := some (nrStrdup info.securityPoliciesToken)
      supportedSecurityPolicies := info.supportedSecurityPolicies }
  state := .unknown
  plicense := nrAppCreatePrintableLicense info.license
  hostName := hostname
  entityName := nrAppGetPrimaryAppName info.appname

/-- `nr_app_match`. `nr_strcmp` is 0 for two strings with the same characters and for two
missing ones. -/
def nrAppMatch (app : NrApp ω) (info : NrAppInfo ω) : Bool :=
  if info.license.isNone || info.appname.isNone then false
  else if info.license ≠ app.info.license then false
  else if info.appname ≠ app.info.appname then false
  else true

/-- `nr_app_info_valid`. -/
def nrAppInfoValid (info : Option (NrAppInfo ω)) : Bool :=
  match info with
  | none => false
  | some info =>
      if info.appname.isNone then false
      else if info.license.isNone then false
      else if info.environment.isNone then false
      else if info.lang.isNone then false
      else if info.version.isNone then false
      else if info.redirectCollector.isNone then false
      else true

/-- The loop that searches the list: `n` slots are left, from slot `i` on. -/
def nrAppSearch (apps : List (Option (NrApp ω))) (info : NrAppInfo ω) : ℕ → ℕ → Option ℕ
  | 0, _ => none
  | n + 1, i =>
      match apps[i]? with
      | some (some app) => if nrAppMatch app info then some i else nrAppSearch apps info n (i + 1)
      | _ => nrAppSearch apps info n (i + 1)

/-- `nr_app_find_or_add_app`, with the slot of the application it returns. -/
def nrAppFindOrAddApp (hostname : Bytes) (applist : NrAppList ω) (info : Option (NrAppInfo ω)) :
    Option ℕ × NrAppList ω :=
  match info with
  | none => (none, applist)
  | some info =>
      if !nrAppInfoValid (some info) then (none, applist)
      else
        match nrAppSearch applist.apps info applist.numApps 0 with
        | some i =>
            match applist.apps[i]? with
            | some (some app) =>
                if info.highSecurity ≠ app.info.highSecurity then (none, applist)
                else (some i, applist)
            | _ => (none, applist)
        | none =>
            if applist.numApps ≥ nrAppLimit then (none, applist)
            else
              (some applist.numApps,
                { apps := applist.apps.set applist.numApps (some (createNewApp hostname info))
                  numApps := applist.numApps + 1 })

/-! ### The identity of an application -/

/-- Licence and name. -/
def NrAppInfo.identity (info : NrAppInfo ω) : Option Bytes × Option Bytes :=
  (info.license, info.appname)

def NrAppList.Stores (applist : NrAppList ω) (i : ℕ) (app : NrApp ω) : Prop :=
  applist.apps[i]? = some (some app)

/-- The slots in use are the first ones, and hold applications of different identities. -/
structure NrAppList.Filled (applist : NrAppList ω) : Prop where
  length : applist.apps.length = nrAppLimit
  numApps_le : applist.numApps ≤ nrAppLimit
  used : ∀ i, i < applist.numApps ↔ ∃ app, applist.Stores i app
  distinct : ∀ i j app app', applist.Stores i app → applist.Stores j app' →
    app.info.identity = app'.info.identity → i = j

theorem filled_nrApplistCreate : (nrApplistCreate : NrAppList ω).Filled where
  length := List.length_replicate
  numApps_le := Nat.zero_le _
  used := by
    intro i
    refine iff_of_false (Nat.not_lt_zero i) ?_
    rintro ⟨app, happ⟩
    have hmem := List.eq_of_mem_replicate (List.mem_of_getElem? happ)
    cases hmem
  distinct := by
    intro i j app app' happ
    have hmem := List.eq_of_mem_replicate (List.mem_of_getElem? happ)
    cases hmem

theorem nrAppInfoValid_iff {info : NrAppInfo ω} :
    nrAppInfoValid (some info) = true ↔ info.appname.isSome ∧ info.license.isSome ∧
      info.environment.isSome ∧ info.lang.isSome ∧ info.version.isSome ∧
        info.redirectCollector.isSome := by
  simp only [nrAppInfoValid, ← Option.not_isSome]
  split_ifs <;> simp_all [Option.isSome_iff_ne_none]

theorem nrAppMatch_iff {app : NrApp ω} {info : NrAppInfo ω}
    (hvalid : nrAppInfoValid (some info) = true) :
    nrAppMatch app info = true ↔ app.info.identity = info.identity := by
  obtain ⟨hname, hlicense, _⟩ := nrAppInfoValid_iff.mp hvalid
  have hpresent : (info.license.isNone || info.appname.isNone) = false := by
    rw [← Option.not_isSome, ← Option.not_isSome, hname, hlicense]
    rfl
  simp only [nrAppMatch, hpresent, Bool.false_eq_true, if_false, NrAppInfo.identity, Prod.mk.injEq]
  split_ifs with hl hn
  · simp [Ne.symm hl]
  · simp [Ne.symm hn]
  · simp [not_not.mp hl, not_not.mp hn]

theorem createNewApp_identity (hostname : Bytes) {info : NrAppInfo ω}
    (hvalid : nrAppInfoValid (some info) = true) :
    (createNewApp hostname info).info.identity = info.identity := by
  obtain ⟨hname, hlicense, _⟩ := nrAppInfoValid_iff.mp hvalid
  obtain ⟨name, hname⟩ := Option.isSome_iff_exists.mp hname
  obtain ⟨license, hlicense⟩ := Option.isSome_iff_exists.mp hlicense
  simp [createNewApp, NrAppInfo.identity, nrStrdup, hname, hlicense]

/-! ### Finding and adding -/

theorem nrAppSearch_some {apps : List (Option (NrApp ω))} {info : NrAppInfo ω} {n i j : ℕ}
    (h : nrAppSearch apps info n i = some j) :
    ∃ app, apps[j]? = some (some app) ∧ nrAppMatch app info = true := by
  induction n generalizing i with
  | zero => cases h
  | succ n ih =>
      rw [nrAppSearch] at h
      split at h
      · next app happ =>
          split at h
          · next hmatch =>
              obtain rfl := Option.some.inj h
              exact ⟨app, happ, hmatch⟩
          · exact ih h
      · exact ih h

theorem nrAppSearch_none {apps : List (Option (NrApp ω))} {info : NrAppInfo ω} {n i : ℕ}
    (h : nrAppSearch apps info n i = none) {j : ℕ} (hij : i ≤ j) (hj : j < i + n) {app : NrApp ω}
    (happ : apps[j]? = some (some app)) : nrAppMatch app info = false := by
  induction n generalizing i with
  | zero => omega
  | succ n ih =>
      rw [nrAppSearch] at h
      rcases Nat.eq_or_lt_of_le hij with rfl | hlt
      · rw [happ] at h
        simp only at h
        split at h
        · cases h
        · next hmatch => exact Bool.eq_false_iff.mpr hmatch
      · split at h
        · split at h
          · cases h
          · exact ih h hlt (by omega)
        · exact ih h hlt (by omega)

/-- What a call does: an application with the identity is there and is returned, unless the
settings for high security differ; or there is none and it is added, if there is room. -/
inductive FindOrAdd (hostname : Bytes) (applist : NrAppList ω) :
    Option (NrAppInfo ω) → Option ℕ × NrAppList ω → Prop
  | invalid {info : Option (NrAppInfo ω)} (h : nrAppInfoValid info = false) :
      FindOrAdd hostname applist info (none, applist)
  | found {info : NrAppInfo ω} {i : ℕ} {app : NrApp ω} (hvalid : nrAppInfoValid (some info) = true)
      (happ : applist.Stores i app) (hidentity : app.info.identity = info.identity) :
      FindOrAdd hostname applist (some info)
        (if info.highSecurity ≠ app.info.highSecurity then none else some i, applist)
  | full {info : NrAppInfo ω} (hvalid : nrAppInfoValid (some info) = true)
      (hnone : ∀ i app, applist.Stores i app → app.info.identity ≠ info.identity)
      (hfull : nrAppLimit ≤ applist.numApps) : FindOrAdd hostname applist (some info) (none, applist)
  | added {info : NrAppInfo ω} (hvalid : nrAppInfoValid (some info) = true)
      (hnone : ∀ i app, applist.Stores i app → app.info.identity ≠ info.identity)
      (hroom : applist.numApps < nrAppLimit) :
      FindOrAdd hostname applist (some info) (some applist.numApps,
        { apps := applist.apps.set applist.numApps (some (createNewApp hostname info))
          numApps := applist.numApps + 1 })

theorem NrAppList.Filled.findOrAdd {applist : NrAppList ω} (h : applist.Filled)
    (hostname : Bytes) (info : Option (NrAppInfo ω)) :
    FindOrAdd hostname applist info (nrAppFindOrAddApp hostname applist info) := by
  cases info with
  | none => exact .invalid rfl
  | some info =>
      rw [nrAppFindOrAddApp]
      cases hvalid : nrAppInfoValid (some info) with
      | false => exact .invalid hvalid
      | true =>
          simp only [Bool.not_true, Bool.false_eq_true, if_false]
          split
          · next i hsearch =>
              obtain ⟨app, happ, hmatch⟩ := nrAppSearch_some hsearch
              have hfound : FindOrAdd hostname applist (some info)
                  (if info.highSecurity ≠ app.info.highSecurity then none else some i, applist) :=
                .found hvalid happ ((nrAppMatch_iff hvalid).mp hmatch)
              rw [happ]
              simp only
              split
              · next hne => rwa [if_pos hne] at hfound
              · next heq => rwa [if_neg heq] at hfound
          · next hsearch =>
              have hnone : ∀ i app, applist.Stores i app →
                  app.info.identity ≠ info.identity := by
                intro i app happ hidentity
                have hi : i < applist.numApps := (h.used i).mpr ⟨app, happ⟩
                have hmatch := nrAppSearch_none hsearch (Nat.zero_le i) (by omega) happ
                rw [(nrAppMatch_iff hvalid).mpr hidentity] at hmatch
                cases hmatch
              split
              · next hfull => exact .full hvalid hnone hfull
              · next hroom => exact .added hvalid hnone (not_le.mp hroom)

/-- Slots in use keep their applications, and a call adds at most the next one. -/
theorem stores_added {applist : NrAppList ω} (h : applist.Filled) (hroom : applist.numApps < nrAppLimit)
    (app : NrApp ω) (i : ℕ) (app' : NrApp ω) :
    NrAppList.Stores ⟨applist.numApps + 1, applist.apps.set applist.numApps (some app)⟩ i app' ↔
      applist.Stores i app' ∨ i = applist.numApps ∧ app' = app := by
  have hlen : applist.numApps < applist.apps.length := h.length ▸ hroom
  rw [NrAppList.Stores, NrAppList.Stores, List.getElem?_set]
  split
  · next heq =>
      subst heq
      have hfree : applist.apps[applist.numApps]? ≠ some (some app') := fun hstored =>
        absurd ((h.used _).mpr ⟨app', hstored⟩) (lt_irrefl _)
      simp only [Option.some.injEq, hfree, false_or, true_and]
      exact eq_comm
  · next hne => simp [Ne.symm hne]

theorem NrAppList.Filled.step {applist : NrAppList ω} (h : applist.Filled) (hostname : Bytes)
    (info : Option (NrAppInfo ω)) : (nrAppFindOrAddApp hostname applist info).2.Filled := by
  generalize hresult : nrAppFindOrAddApp hostname applist info = result
  have hcases := h.findOrAdd hostname info
  rw [hresult] at hcases
  cases hcases with
  | invalid _ => exact h
  | found _ _ _ => exact h
  | full _ _ _ => exact h
  | @added info hvalid hnone hroom =>
      have hstores := stores_added h hroom (createNewApp hostname info)
      have hidentity := createNewApp_identity hostname hvalid
      refine ⟨?_, hroom, fun i => ?_, fun i j app app' hi hj heq => ?_⟩
      · rw [List.length_set, h.length]
      · simp only [hstores, exists_or, exists_and_left, exists_eq, and_true, ← h.used]
        exact Nat.lt_succ_iff_lt_or_eq
      · rcases (hstores i app).mp hi with hi | ⟨rfl, rfl⟩
        · rcases (hstores j app').mp hj with hj | ⟨rfl, rfl⟩
          · exact h.distinct i j app app' hi hj heq
          · exact absurd (heq.trans hidentity) (hnone i app hi)
        · rcases (hstores j app').mp hj with hj | ⟨rfl, _⟩
          · exact absurd (heq.symm.trans hidentity) (hnone j app' hj)
          · rfl

theorem NrAppList.Filled.stores_step {applist : NrAppList ω} (h : applist.Filled) (hostname : Bytes)
    (info : Option (NrAppInfo ω)) {i : ℕ} {app : NrApp ω} (happ : applist.Stores i app) :
    (nrAppFindOrAddApp hostname applist info).2.Stores i app := by
  generalize hresult : nrAppFindOrAddApp hostname applist info = result
  have hcases := h.findOrAdd hostname info
  rw [hresult] at hcases
  cases hcases with
  | invalid _ => exact happ
  | found _ _ _ => exact happ
  | full _ _ _ => exact happ
  | @added info _ _ hroom =>
      exact (stores_added h hroom (createNewApp hostname info) i app).mpr (Or.inl happ)

/-- A call that returns an application returns one that is stored with the identity and the
setting for high security that were asked for. -/
theorem NrAppList.Filled.stores_of_some {applist : NrAppList ω} (h : applist.Filled)
    (hostname : Bytes) {info : Option (NrAppInfo ω)} {i : ℕ}
    (hi : (nrAppFindOrAddApp hostname applist info).1 = some i) :
    ∃ described app, info = some described ∧ nrAppInfoValid info = true ∧
      (nrAppFindOrAddApp hostname applist info).2.Stores i app ∧
        app.info.identity = described.identity ∧
          described.highSecurity = app.info.highSecurity := by
  generalize hresult : nrAppFindOrAddApp hostname applist info = result at hi
  have hcases := h.findOrAdd hostname info
  rw [hresult] at hcases
  cases hcases with
  | invalid _ => cases hi
  | @found described j app hvalid happ hidentity =>
      simp only at hi
      split at hi
      · cases hi
      · next hsecurity =>
          obtain rfl := Option.some.inj hi
          exact ⟨described, app, rfl, hvalid, happ, hidentity, not_not.mp hsecurity⟩
  | full _ _ _ => cases hi
  | @added described hvalid _ hroom =>
      obtain rfl := Option.some.inj hi
      refine ⟨described, createNewApp hostname described, rfl, hvalid, ?_,
        createNewApp_identity hostname hvalid, rfl⟩
      exact (stores_added h hroom _ _ _).mpr (Or.inr ⟨rfl, rfl⟩)

theorem NrAppList.Filled.finds {applist : NrAppList ω} (h : applist.Filled) (hostname : Bytes)
    {info : NrAppInfo ω} (hvalid : nrAppInfoValid (some info) = true) {i : ℕ} {app : NrApp ω}
    (happ : applist.Stores i app) (hidentity : app.info.identity = info.identity)
    (hsecurity : info.highSecurity = app.info.highSecurity) :
    nrAppFindOrAddApp hostname applist (some info) = (some i, applist) := by
  generalize hresult : nrAppFindOrAddApp hostname applist (some info) = result
  have hcases := h.findOrAdd hostname (some info)
  rw [hresult] at hcases
  cases hcases with
  | invalid hinvalid =>
      rw [hvalid] at hinvalid
      cases hinvalid
  | @found _ j app' _ happ' hidentity' =>
      obtain rfl : i = j := h.distinct i j app app' happ happ' (hidentity.trans hidentity'.symm)
      obtain rfl : app = app' := Option.some.inj (Option.some.inj (happ.symm.trans happ'))
      rw [if_neg (not_not.mpr hsecurity)]
  | full _ hnone _ => exact absurd hidentity (hnone i app happ)
  | added _ hnone _ => exact absurd hidentity (hnone i app happ)

/-! ### Runs -/

/-- The list after a call. -/
def nrAppExec (hostname : Bytes) (applist : NrAppList ω) (info : Option (NrAppInfo ω)) :
    NrAppList ω :=
  (nrAppFindOrAddApp hostname applist info).2

theorem NrAppList.Filled.run {applist : NrAppList ω} (h : applist.Filled) (hostname : Bytes)
    (infos : List (Option (NrAppInfo ω))) :
    (runFrom (nrAppExec hostname) applist infos).Filled := by
  induction infos generalizing applist with
  | nil => exact h
  | cons info infos ih => exact ih (h.step hostname info)

theorem NrAppList.Filled.stores_run {applist : NrAppList ω} (h : applist.Filled) (hostname : Bytes)
    (infos : List (Option (NrAppInfo ω))) {i : ℕ} {app : NrApp ω} (happ : applist.Stores i app) :
    (runFrom (nrAppExec hostname) applist infos).Stores i app := by
  induction infos generalizing applist with
  | nil => exact happ
  | cons info infos ih => exact ih (h.step hostname info) (h.stores_step hostname info happ)

/-- What a call once returned, the same call returns again after any others, and adds nothing
then. -/
theorem findOrAdd_again (hostname : Bytes) {applist : NrAppList ω} (h : applist.Filled)
    {info : Option (NrAppInfo ω)} {i : ℕ}
    (hi : (nrAppFindOrAddApp hostname applist info).1 = some i)
    (infos : List (Option (NrAppInfo ω))) :
    nrAppFindOrAddApp hostname (runFrom (nrAppExec hostname) applist (info :: infos)) info =
      (some i, runFrom (nrAppExec hostname) applist (info :: infos)) := by
  obtain ⟨described, app, rfl, hvalid, happ, hidentity, hsecurity⟩ := h.stores_of_some hostname hi
  have hstep := h.step hostname (some described)
  exact (hstep.run hostname infos).finds hostname hvalid (hstep.stores_run hostname infos happ)
    hidentity hsecurity

end AxiomDaemon.Axiom

import AxiomDaemon.Axiom.Metrics
import AxiomDaemon.Axiom.Rules
import AxiomDaemon.Lib.Transition

/-!
The naming of a transaction, as `nr_txn.c` does it: what sets the path, what
changes the background status, and the freeze that makes the name.

What the rules and the segment terms of the application make of a name, and the
patterns of file names, are functions that the calls bring along; a list of rules
that is `NULL` is `none`. A transaction that is `NULL` is left out.
-/

namespace AxiomDaemon.Axiom

open AxiomDaemon.Lib

/-- `nr_path_type_t`. -/
inductive NrPathType
  | unknown
  | uri
  | statusCode
  | action
  | function
  | custom
  deriving DecidableEq

/-- The number of a path type, which is its priority. -/
def NrPathType.toNat : NrPathType → ℕ
  | .unknown => 0
  | .uri => 1
  | .statusCode => 2
  | .action => 3
  | .function => 4
  | .custom => 5

/-- `nr_txn_assignment_t`. -/
inductive NrTxnAssignment
  | notOkToOverwrite
  | okToOverwrite
  deriving DecidableEq

inductive NrStatus
  | success
  | failure
  deriving DecidableEq

/-- The fields of `nrtxnstatus_t` that naming reads and writes. -/
structure NamingStatus where
  pathIsFrozen : Bool
  pathType : NrPathType
  background : Bool
  ignore : Bool
  recording : Bool
  deriving DecidableEq

/-- The fields of `nrtxnopt_t` that depend on the name. -/
structure ApdexOptions where
  apdexT : ℕ
  ttThreshold : ℕ
  ttIsApdexF : Bool

/-- The fields of `nrtxn_t` that naming reads and writes. The file naming patterns say what
they match of a file name; `webTransactionsApdex` is the reply's table of that name. -/
structure NamedTxn where
  status : NamingStatus
  path : Option Bytes
  name : Option Bytes
  options : ApdexOptions
  unscopedMetrics : NrmTable
  matchFilenames : Option (Bytes → Option Bytes)
  webTransactionsApdex : Option (Bytes → Option ℕ)

/-- What `nrapp_t` has for the name of a transaction. -/
structure NamingApp where
  urlRules : Option (Bytes → NrRulesResult × Bytes)
  txnRules : Option (Bytes → NrRulesResult × Bytes)
  segmentTerms : Bytes → Option Bytes

/-! ### Setting the path -/

/-- `nr_txn_set_path`. -/
def nrTxnSetPath (txn : NamedTxn) (path : Option Bytes) (ptype : NrPathType)
    (okToOverride : NrTxnAssignment) : NamedTxn × NrStatus :=
  match path with
  | none | some [] => (txn, .failure)
  | some path =>
      if txn.status.pathIsFrozen then (txn, .failure)
      else if ptype.toNat < txn.status.pathType.toNat then (txn, .failure)
      else if okToOverride = .notOkToOverwrite ∧ ptype = txn.status.pathType then (txn, .failure)
      else
        ({ txn with
           status := { txn.status with pathType := ptype }
           path := some path }, .success)

/-- `nr_txn_name_from_function`, with what `nr_txn_set_path` answers if it is called. -/
def nrTxnNameFromFunction (txn : NamedTxn) (funcname classname : Option Bytes) :
    NamedTxn × NrStatus :=
  match funcname with
  | none => (txn, .failure)
  | some funcname =>
      -- a function does not take the place of another function
      if NrPathType.function.toNat ≤ txn.status.pathType.toNat then (txn, .failure)
      else
        let name :=
          match classname with
          | none => funcname
          | some classname => classname ++ ascii "::" ++ funcname
        nrTxnSetPath txn (some name) .function .notOkToOverwrite

/-- `nr_txn_match_file`, with what `nr_txn_set_path` answers if it is called. -/
def nrTxnMatchFile (txn : NamedTxn) (filename : Option Bytes) : NamedTxn × NrStatus :=
  match filename with
  | none => (txn, .failure)
  | some filename =>
      if txn.status.recording = false then (txn, .failure)
      else
        match txn.matchFilenames with
        | none => (txn, .failure)
        | some nrFileNamerMatch =>
            if NrPathType.action.toNat ≤ txn.status.pathType.toNat then (txn, .failure)
            else
              match nrFileNamerMatch filename with
              | none => (txn, .failure)
              | some found => nrTxnSetPath txn (some found) .action .notOkToOverwrite

/-! ### The background status -/

def backgroundStatusChangePrevented : Bytes :=
  ascii "Supportability/background_status_change_prevented"

/-- `nr_txn_change_background_status`, with whether it is allowed. -/
def nrTxnChangeBackgroundStatus (txn : NamedTxn) (isBackground : Bool) : NamedTxn × NrStatus :=
  if txn.status.pathIsFrozen then
    ({ txn with
       unscopedMetrics := nrmForceAdd txn.unscopedMetrics backgroundStatusChangePrevented 0 },
     .failure)
  else ({ txn with status := { txn.status with background := isBackground } }, .success)

/-- `nr_txn_set_as_background_job`. -/
def nrTxnSetAsBackgroundJob (txn : NamedTxn) : NamedTxn × NrStatus :=
  nrTxnChangeBackgroundStatus txn true

/-- `nr_txn_set_as_web_transaction`. -/
def nrTxnSetAsWebTransaction (txn : NamedTxn) : NamedTxn × NrStatus :=
  nrTxnChangeBackgroundStatus txn false

/-! ### The freeze -/

/-- What `snprintf` leaves in a buffer of 512 bytes. -/
def snprintf512 (text : Bytes) : Bytes := text.take 511

/-- `nr_txn_apply_url_rules`. -/
def nrTxnApplyUrlRules (txn : NamedTxn) (rules : Option (Bytes → NrRulesResult × Bytes)) :
    NamedTxn × NrStatus :=
  match rules, txn.path with
  | some rules, some path =>
      let pathBefore := snprintf512 (if path.head? = some 0x2f then path else 0x2f :: path)
      match rules pathBefore with
      | (.ignore, _) => ({ txn with status := { txn.status with ignore := true } }, .failure)
      | (.changed, output) => ({ txn with path := some output }, .success)
      | (.unchanged, _) => (txn, .success)
  | _, _ => (txn, .success)

/-- `nr_txn_apply_txn_rules`. -/
def nrTxnApplyTxnRules (txn : NamedTxn) (rules : Option (Bytes → NrRulesResult × Bytes)) :
    NamedTxn × NrStatus :=
  match rules, txn.name with
  | some rules, some name =>
      match rules (snprintf512 name) with
      | (.ignore, _) => ({ txn with status := { txn.status with ignore := true } }, .failure)
      | (.changed, output) => ({ txn with name := some output }, .success)
      | (.unchanged, _) => (txn, .success)
  | _, _ => (txn, .success)

/-- `nr_txn_apply_segment_terms`. -/
def nrTxnApplySegmentTerms (txn : NamedTxn) (terms : Bytes → Option Bytes) : NamedTxn :=
  match txn.name.bind terms with
  | some name => { txn with name := some name }
  | none => txn

/-- `nr_txn_should_do_url_rules`. -/
def nrTxnShouldDoUrlRules (pathType : NrPathType) (isBackground : Bool) : Bool :=
  if isBackground then false
  else
    match pathType with
    | .custom | .uri => true
    | .statusCode | .action | .function | .unknown => false

/-- `nr_txn_update_apdex_if_key_txn`. -/
def nrTxnUpdateApdexIfKeyTxn (txn : NamedTxn) : NamedTxn :=
  match txn.webTransactionsApdex.bind fun keyTxns => txn.name.bind keyTxns with
  | none => txn
  | some apdexT =>
      { txn with
        options :=
          { txn.options with
            apdexT
            ttThreshold := if txn.options.ttIsApdexF then 4 * apdexT else txn.options.ttThreshold } }

/-- The prefix of the name, or the name itself. -/
def namePrefix (pathType : NrPathType) (background : Bool) : Bytes ⊕ Bytes :=
  match pathType with
  | .uri => .inl (ascii (if background then "OtherTransaction/php/" else "WebTransaction/Uri/"))
  | .statusCode =>
      .inl (ascii (if background then "OtherTransaction/StatusCode/"
        else "WebTransaction/StatusCode/"))
  | .action =>
      .inl (ascii (if background then "OtherTransaction/Action/" else "WebTransaction/Action/"))
  | .function =>
      .inl (ascii (if background then "OtherTransaction/Function/" else "WebTransaction/Function/"))
  | .custom =>
      .inl (ascii (if background then "OtherTransaction/Custom/" else "WebTransaction/Custom/"))
  | .unknown =>
      .inr (ascii (if background then "OtherTransaction/php/<unknown>"
        else "WebTransaction/Uri/<unknown>"))

/-- A slash in front of the path is dropped. -/
def NamedTxn.dropSlash (txn : NamedTxn) : NamedTxn :=
  match txn.path with
  | some (0x2f :: path) => { txn with path := some path }
  | _ => txn

/-- The URL rules, for the paths they are for. -/
def NamedTxn.freezePath (txn : NamedTxn) (app : NamingApp) : NamedTxn × NrStatus :=
  if txn.path.isSome && nrTxnShouldDoUrlRules txn.status.pathType txn.status.background then
    nrTxnApplyUrlRules txn app.urlRules
  else (txn, .success)

/-- The full name before the rules. -/
def NamedTxn.fullName (txn : NamedTxn) : Bytes :=
  match namePrefix txn.status.pathType txn.status.background with
  | .inl textBefore => textBefore ++ txn.path.getD (ascii "unknown")
  | .inr name => name

/-- `nr_txn_freeze_name_update_apdex`. The application is `none` if it cannot be verified. -/
def nrTxnFreezeNameUpdateApdex (txn : NamedTxn) (app : Option NamingApp) : NamedTxn × NrStatus :=
  if txn.status.ignore then (txn, .failure)
  else if txn.status.pathIsFrozen then (txn, .success)
  else
    let txn := { txn with status := { txn.status with pathIsFrozen := true } }
    match app with
    | none => (txn, .failure)
    | some app =>
        match txn.freezePath app with
        | (txn, .failure) => (txn, .failure)
        | (txn, .success) =>
            let txn := txn.dropSlash
            match nrTxnApplyTxnRules { txn with name := some txn.fullName } app.txnRules with
            | (txn, .failure) => (txn, .failure)
            | (txn, .success) =>
                (nrTxnUpdateApdexIfKeyTxn (nrTxnApplySegmentTerms txn app.segmentTerms), .success)

/-! ### Runs -/

inductive NamingCall
  | setPath (path : Option Bytes) (ptype : NrPathType) (okToOverride : NrTxnAssignment)
  | nameFromFunction (funcname classname : Option Bytes)
  | matchFile (filename : Option Bytes)
  | setAsBackgroundJob
  | setAsWebTransaction
  | freezeName (app : Option NamingApp)

def namingCall (txn : NamedTxn) : NamingCall → NamedTxn × NrStatus
  | .setPath path ptype okToOverride => nrTxnSetPath txn path ptype okToOverride
  | .nameFromFunction funcname classname => nrTxnNameFromFunction txn funcname classname
  | .matchFile filename => nrTxnMatchFile txn filename
  | .setAsBackgroundJob => nrTxnSetAsBackgroundJob txn
  | .setAsWebTransaction => nrTxnSetAsWebTransaction txn
  | .freezeName app => nrTxnFreezeNameUpdateApdex txn app

def execNamingCall (txn : NamedTxn) (call : NamingCall) : NamedTxn := (namingCall txn call).1

/-- A call that is turned away. -/
def NamingCall.Refused (call : NamingCall) (txn : NamedTxn) : Prop :=
  (namingCall txn call).2 = .failure

/-- A call that freezes the name, whether or not it fails later on. -/
def NamingCall.Freezes (call : NamingCall) (txn : NamedTxn) : Prop :=
  (∃ app, call = .freezeName app) ∧ txn.status.ignore = false ∧ txn.status.pathIsFrozen = false

/-! ### What a call can do -/

/-- What a freeze leaves alone. -/
def NamedTxn.SameKind (txn txn' : NamedTxn) : Prop :=
  txn'.status.pathIsFrozen = txn.status.pathIsFrozen ∧ txn'.status.pathType = txn.status.pathType ∧
    txn'.status.background = txn.status.background

/-- The effect of a call. -/
inductive NamingStep (txn : NamedTxn) : NamedTxn → Prop
  | same : NamingStep txn txn
  | counted (unscopedMetrics : NrmTable) : NamingStep txn { txn with unscopedMetrics }
  | named (path : Bytes) (ptype : NrPathType) (hfrozen : txn.status.pathIsFrozen = false)
      (hle : txn.status.pathType.toNat ≤ ptype.toNat) :
      NamingStep txn
        { txn with
          status := { txn.status with pathType := ptype }
          path := some path }
  | background (isBackground : Bool) (hfrozen : txn.status.pathIsFrozen = false) :
      NamingStep txn { txn with status := { txn.status with background := isBackground } }
  | frozen (txn' : NamedTxn) (hfrozen : txn.status.pathIsFrozen = false)
      (hkind : { txn with status := { txn.status with pathIsFrozen := true } }.SameKind txn') :
      NamingStep txn txn'

section Effects

variable {txn : NamedTxn}

namespace NamedTxn.SameKind

theorem refl (txn : NamedTxn) : txn.SameKind txn := ⟨rfl, rfl, rfl⟩

theorem trans {txn' txn'' : NamedTxn} (h : txn.SameKind txn') (h' : txn'.SameKind txn'') :
    txn.SameKind txn'' :=
  ⟨h'.1.trans h.1, h'.2.1.trans h.2.1, h'.2.2.trans h.2.2⟩

theorem applyUrlRules (txn : NamedTxn) (rules : Option (Bytes → NrRulesResult × Bytes)) :
    txn.SameKind (nrTxnApplyUrlRules txn rules).1 := by
  unfold nrTxnApplyUrlRules
  split
  · simp only
    split <;> exact ⟨rfl, rfl, rfl⟩
  · exact refl txn

theorem applyTxnRules (txn : NamedTxn) (rules : Option (Bytes → NrRulesResult × Bytes)) :
    txn.SameKind (nrTxnApplyTxnRules txn rules).1 := by
  unfold nrTxnApplyTxnRules
  split
  · split <;> exact ⟨rfl, rfl, rfl⟩
  · exact refl txn

theorem applySegmentTerms (txn : NamedTxn) (terms : Bytes → Option Bytes) :
    txn.SameKind (nrTxnApplySegmentTerms txn terms) := by
  rw [nrTxnApplySegmentTerms]
  split <;> exact ⟨rfl, rfl, rfl⟩

theorem updateApdexIfKeyTxn (txn : NamedTxn) : txn.SameKind (nrTxnUpdateApdexIfKeyTxn txn) := by
  rw [nrTxnUpdateApdexIfKeyTxn]
  split <;> exact ⟨rfl, rfl, rfl⟩

theorem dropSlash (txn : NamedTxn) : txn.SameKind txn.dropSlash := by
  rw [NamedTxn.dropSlash]
  split <;> exact ⟨rfl, rfl, rfl⟩

theorem freezePath (txn : NamedTxn) (app : NamingApp) : txn.SameKind (txn.freezePath app).1 := by
  rw [NamedTxn.freezePath]
  split
  · exact applyUrlRules txn app.urlRules
  · exact refl txn

end NamedTxn.SameKind

/-- A freeze that is not turned away freezes, whatever becomes of the name. -/
theorem nrTxnFreezeNameUpdateApdex_step (app : Option NamingApp)
    (hignore : txn.status.ignore = false) (hfrozen : txn.status.pathIsFrozen = false) :
    { txn with status := { txn.status with pathIsFrozen := true } }.SameKind
      (nrTxnFreezeNameUpdateApdex txn app).1 := by
  rw [nrTxnFreezeNameUpdateApdex, hignore, hfrozen]
  simp only [Bool.false_eq_true, if_false]
  cases app with
  | none => exact .refl _
  | some app =>
      simp only
      have hpath := NamedTxn.SameKind.freezePath
        { txn with status := { txn.status with pathIsFrozen := true } } app
      split
      · next txn₁ hfailure => rwa [hfailure] at hpath
      · next txn₁ hsuccess =>
          rw [hsuccess] at hpath
          have hrules := (NamedTxn.SameKind.dropSlash txn₁).trans
            (.applyTxnRules { txn₁.dropSlash with name := some txn₁.dropSlash.fullName } app.txnRules)
          split
          · next txn₂ hfailure =>
              rw [hfailure] at hrules
              exact hpath.trans hrules
          · next txn₂ hsuccess =>
              rw [hsuccess] at hrules
              exact hpath.trans (hrules.trans
                ((NamedTxn.SameKind.applySegmentTerms txn₂ app.segmentTerms).trans
                  (.updateApdexIfKeyTxn _)))

theorem nrTxnSetPath_step (txn : NamedTxn) (path : Option Bytes) (ptype : NrPathType)
    (okToOverride : NrTxnAssignment) :
    NamingStep txn (nrTxnSetPath txn path ptype okToOverride).1 ∧
      ((nrTxnSetPath txn path ptype okToOverride).2 = .failure →
        (nrTxnSetPath txn path ptype okToOverride).1 = txn) := by
  unfold nrTxnSetPath
  split
  · exact ⟨.same, fun _ => rfl⟩
  · exact ⟨.same, fun _ => rfl⟩
  · split
    · exact ⟨.same, fun _ => rfl⟩
    · next hfrozen =>
        split
        · exact ⟨.same, fun _ => rfl⟩
        · next hle =>
            split
            · exact ⟨.same, fun _ => rfl⟩
            · refine ⟨.named _ ptype (Bool.eq_false_iff.mpr hfrozen) (Nat.not_lt.mp hle), ?_⟩
              exact fun h => by cases h

theorem nrTxnNameFromFunction_step (txn : NamedTxn) (funcname classname : Option Bytes) :
    NamingStep txn (nrTxnNameFromFunction txn funcname classname).1 ∧
      ((nrTxnNameFromFunction txn funcname classname).2 = .failure →
        (nrTxnNameFromFunction txn funcname classname).1 = txn) := by
  unfold nrTxnNameFromFunction
  split
  · exact ⟨.same, fun _ => rfl⟩
  · split
    · exact ⟨.same, fun _ => rfl⟩
    · exact nrTxnSetPath_step txn _ .function .notOkToOverwrite

theorem nrTxnMatchFile_step (txn : NamedTxn) (filename : Option Bytes) :
    NamingStep txn (nrTxnMatchFile txn filename).1 ∧
      ((nrTxnMatchFile txn filename).2 = .failure → (nrTxnMatchFile txn filename).1 = txn) := by
  unfold nrTxnMatchFile
  split
  · exact ⟨.same, fun _ => rfl⟩
  · split
    · exact ⟨.same, fun _ => rfl⟩
    · split
      · exact ⟨.same, fun _ => rfl⟩
      · split
        · exact ⟨.same, fun _ => rfl⟩
        · split
          · exact ⟨.same, fun _ => rfl⟩
          · exact nrTxnSetPath_step txn _ .action .notOkToOverwrite

theorem nrTxnChangeBackgroundStatus_step (txn : NamedTxn) (isBackground : Bool) :
    NamingStep txn (nrTxnChangeBackgroundStatus txn isBackground).1 ∧
      ((nrTxnChangeBackgroundStatus txn isBackground).2 = .failure →
        ∃ unscopedMetrics,
          (nrTxnChangeBackgroundStatus txn isBackground).1 = { txn with unscopedMetrics }) := by
  rw [nrTxnChangeBackgroundStatus]
  split
  · exact ⟨.counted _, fun _ => ⟨_, rfl⟩⟩
  · next hfrozen =>
      exact ⟨.background isBackground (Bool.eq_false_iff.mpr hfrozen), fun h => by cases h⟩

theorem namingCall_step (txn : NamedTxn) (call : NamingCall) :
    NamingStep txn (execNamingCall txn call) := by
  cases call with
  | setPath path ptype okToOverride => exact (nrTxnSetPath_step txn path ptype okToOverride).1
  | nameFromFunction funcname classname =>
      exact (nrTxnNameFromFunction_step txn funcname classname).1
  | matchFile filename => exact (nrTxnMatchFile_step txn filename).1
  | setAsBackgroundJob => exact (nrTxnChangeBackgroundStatus_step txn true).1
  | setAsWebTransaction => exact (nrTxnChangeBackgroundStatus_step txn false).1
  | freezeName app =>
      show NamingStep txn (nrTxnFreezeNameUpdateApdex txn app).1
      cases hignore : txn.status.ignore with
      | true =>
          rw [nrTxnFreezeNameUpdateApdex, hignore]
          exact .same
      | false =>
          cases hfrozen : txn.status.pathIsFrozen with
          | true =>
              rw [nrTxnFreezeNameUpdateApdex, hignore, hfrozen]
              exact .same
          | false => exact .frozen _ hfrozen (nrTxnFreezeNameUpdateApdex_step app hignore hfrozen)

theorem nrTxnFreezeNameUpdateApdex_same (app : Option NamingApp)
    (h : ¬ NamingCall.Freezes (.freezeName app) txn) :
    (nrTxnFreezeNameUpdateApdex txn app).1 = txn := by
  rw [nrTxnFreezeNameUpdateApdex]
  split_ifs with hignore hfrozen
  · rfl
  · rfl
  · exact absurd ⟨⟨app, rfl⟩, Bool.eq_false_iff.mpr hignore, Bool.eq_false_iff.mpr hfrozen⟩ h

/-- A call that is refused changes no more than a metric, unless it freezes the name. -/
theorem execNamingCall_of_refused {call : NamingCall} (h : call.Refused txn)
    (hfreeze : ¬ call.Freezes txn) :
    ∃ unscopedMetrics, execNamingCall txn call = { txn with unscopedMetrics } := by
  cases call with
  | setPath path ptype okToOverride =>
      exact ⟨_, (nrTxnSetPath_step txn path ptype okToOverride).2 h⟩
  | nameFromFunction funcname classname =>
      exact ⟨_, (nrTxnNameFromFunction_step txn funcname classname).2 h⟩
  | matchFile filename => exact ⟨_, (nrTxnMatchFile_step txn filename).2 h⟩
  | setAsBackgroundJob => exact (nrTxnChangeBackgroundStatus_step txn true).2 h
  | setAsWebTransaction => exact (nrTxnChangeBackgroundStatus_step txn false).2 h
  | freezeName app => exact ⟨_, nrTxnFreezeNameUpdateApdex_same app hfreeze⟩

theorem execNamingCall_freezes {call : NamingCall} (h : call.Freezes txn) :
    { txn with status := { txn.status with pathIsFrozen := true } }.SameKind
      (execNamingCall txn call) := by
  obtain ⟨⟨app, rfl⟩, hignore, hfrozen⟩ := h
  exact nrTxnFreezeNameUpdateApdex_step app hignore hfrozen

theorem NamingStep.pathType_le {txn' : NamedTxn} (h : NamingStep txn txn') :
    txn.status.pathType.toNat ≤ txn'.status.pathType.toNat := by
  cases h with
  | named path ptype hfrozen hle => exact hle
  | frozen txn' hfrozen hkind => exact (congrArg NrPathType.toNat hkind.2.1).ge
  | _ => exact Nat.le_refl _

/-- What is final once the name is frozen. -/
def NamedTxn.SameName (txn txn' : NamedTxn) : Prop :=
  txn'.path = txn.path ∧ txn'.name = txn.name ∧ txn'.status = txn.status

theorem NamingStep.sameName {txn' : NamedTxn} (h : NamingStep txn txn')
    (hfrozen : txn.status.pathIsFrozen = true) : txn.SameName txn' := by
  cases h with
  | same => exact ⟨rfl, rfl, rfl⟩
  | counted unscopedMetrics => exact ⟨rfl, rfl, rfl⟩
  | named path ptype hnot hle => exact absurd (hfrozen.symm.trans hnot) (by decide)
  | background isBackground hnot => exact absurd (hfrozen.symm.trans hnot) (by decide)
  | frozen txn' hnot hkind => exact absurd (hfrozen.symm.trans hnot) (by decide)

end Effects

/-! ### Runs -/

theorem pathType_le_run (txn : NamedTxn) (calls : List NamingCall) :
    txn.status.pathType.toNat ≤ (runFrom execNamingCall txn calls).status.pathType.toNat := by
  induction calls generalizing txn with
  | nil => exact Nat.le_refl _
  | cons call calls ih => exact (namingCall_step txn call).pathType_le.trans (ih _)

theorem sameName_run (txn : NamedTxn) (hfrozen : txn.status.pathIsFrozen = true)
    (calls : List NamingCall) : txn.SameName (runFrom execNamingCall txn calls) := by
  induction calls generalizing txn with
  | nil => exact ⟨rfl, rfl, rfl⟩
  | cons call calls ih =>
      have hstep := (namingCall_step txn call).sameName hfrozen
      have hrest := ih (execNamingCall txn call) (hstep.2.2.symm ▸ hfrozen)
      exact ⟨hrest.1.trans hstep.1, hrest.2.1.trans hstep.2.1, hrest.2.2.trans hstep.2.2⟩

/-- A transaction with the path `/a`. -/
def slashedTxn : NamedTxn where
  status :=
    { pathIsFrozen := false
      pathType := .action
      background := false
      ignore := false
      recording := true }
  path := some (ascii "/a")
  name := none
  options := ⟨0, 0, false⟩
  unscopedMetrics := nrmTableCreate 0
  matchFilenames := none
  webTransactionsApdex := none

end AxiomDaemon.Axiom

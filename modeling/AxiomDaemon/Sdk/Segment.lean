import AxiomDaemon.Axiom.TxnSegments
import AxiomDaemon.Lib.Locking
import AxiomDaemon.Lib.Transition
import AxiomDaemon.Util.StringPool

/-!
The handles of segments that the API gives out, `segment.c`, `datastore.c` and
`external.c`, for one transaction that is live.

A call runs in a process that dies when it dereferences NULL; `none` stands for
that. The events of a run are the locks that are taken and given back, and the
calls that go into the segment tree. The user's variable for a handle is its
number in the order of the starts, and is NULL again when the segment has been
ended. Names are the indices that the string pool of the transaction has for
them.
-/

namespace AxiomDaemon.Sdk

open AxiomDaemon.Lib AxiomDaemon.Axiom AxiomDaemon.Util

/-- The lock of the transaction, and that of `segment.c` for allocations. -/
inductive Mutex
  | transaction
  | allocation
  deriving DecidableEq

/-- A pointer to a transaction: NULL, or the one that is live. -/
inductive TransactionPointer
  | null
  | live
  deriving DecidableEq

/-- `newrelic_segment_t`, without the parameters it keeps for the end of the
segment. -/
structure NewrelicSegment where
  transaction : TransactionPointer
  segment : Option ℕ
  txnLock : Option Mutex
  deriving DecidableEq

/-- `newrelic_txn_t` with the handles of its segments. -/
structure SdkTxn where
  txn : SegmentTxn
  handles : List (Option NewrelicSegment)
  events : List (LockEvent Mutex)

/-- `nrt_mutex_lock`: a NULL lock is not taken. -/
def nrtMutexLock (mutex : Option Mutex) (s : SdkTxn) : SdkTxn :=
  match mutex with
  | none => s
  | some m => { s with events := s.events ++ [.lock m] }

/-- `nrt_mutex_unlock`. -/
def nrtMutexUnlock (mutex : Option Mutex) (s : SdkTxn) : SdkTxn :=
  match mutex with
  | none => s
  | some m => { s with events := s.events ++ [.unlock m] }

/-- A call that goes into the segment tree. -/
def SdkTxn.change (s : SdkTxn) (f : SegmentTxn → SegmentTxn) : SdkTxn :=
  { s with txn := f s.txn, events := s.events ++ [.change] }

/-- What a variable of the user holds. -/
def SdkTxn.handle (s : SdkTxn) (pointer : Option ℕ) : Option NewrelicSegment :=
  match pointer with
  | none => none
  | some i => (s.handles[i]?).join

/-! ### Starting -/

/-- `newrelic_segment_create`. -/
def newrelicSegmentCreate (s : SdkTxn) (now : ℕ) : Option NewrelicSegment × SdkTxn :=
  match nrSegmentStart s.txn none none now with
  | (none, _) => (none, s)
  | (some segment, txn) =>
      let s := s.change fun _ => txn
      let s := nrtMutexUnlock (some .allocation) (nrtMutexLock (some .allocation) s)
      (some { transaction := .live, segment := some segment, txnLock := none }, s)

/-- `newrelic_validate_segment_param`. -/
def newrelicValidateSegmentParam (input : Option CString) : Bool :=
  match input with
  | none => true
  | some text => decide ((0x2F : UInt8) ∉ text.val)

/-- A text, or the one that stands for a text that is missing or invalid. -/
def textOr (default : String) (text : Option CString) : Bytes :=
  match text with
  | none => ascii default
  | some t => if newrelicValidateSegmentParam (some t) then t.val else ascii default

/-- `newrelic_start_segment`. `pool` gives the index of a text. -/
def newrelicStartSegment (pool : Bytes → ℕ) (s : SdkTxn) (transaction : TransactionPointer)
    (name category : Option CString) (now : ℕ) : Option (Option NewrelicSegment × SdkTxn) :=
  match transaction with
  | .null => some (none, s)
  | .live =>
      let name := textOr "Unnamed Segment" name
      let category := textOr "Custom" category
      let s := nrtMutexLock (some .transaction) s
      let (segment, s) := newrelicSegmentCreate s now
      let s :=
        match segment.bind NewrelicSegment.segment with
        | none => s
        | some a => s.change fun txn => nrSegmentSetName txn a (pool (category ++ ascii "/" ++ name))
      let s := nrtMutexUnlock (some .transaction) s
      match segment with
      -- `segment->txn_lock` is set without looking whether there is a segment
      | none => none
      | some h => some (some { h with txnLock := some .transaction }, s)

/-- `newrelic_datastore_segment_params_t`, the parameters that are validated. -/
structure DatastoreSegmentParams where
  product : Option CString
  collection : Option CString
  operation : Option CString
  host : Option CString

/-- `newrelic_external_segment_params_t`. -/
structure ExternalSegmentParams where
  uri : Option CString
  procedure : Option CString
  library : Option CString

/-- The critical section that the starts of typed segments have in common. -/
def startTagged (s : SdkTxn) (tag : SegmentTag) (now : ℕ) :
    Option (Option NewrelicSegment × SdkTxn) :=
  let s := nrtMutexLock (some .transaction) s
  match newrelicSegmentCreate s now with
  | (none, s) => some (none, nrtMutexUnlock (some .transaction) s)
  | (some h, s) =>
      match h.segment with
      | none => none
      | some a =>
          let s := s.change fun txn => txn.modify a fun seg => { seg with tag := tag }
          some (some h, nrtMutexUnlock (some .transaction) s)

/-- `newrelic_start_datastore_segment`. -/
def newrelicStartDatastoreSegment (s : SdkTxn) (transaction : TransactionPointer)
    (params : Option DatastoreSegmentParams) (now : ℕ) :
    Option (Option NewrelicSegment × SdkTxn) :=
  match transaction, params with
  | .null, _ => some (none, s)
  | .live, none => some (none, s)
  | .live, some params =>
      if params.product = none then some (none, s)
      else if !newrelicValidateSegmentParam params.product then some (none, s)
      else if !newrelicValidateSegmentParam params.collection then some (none, s)
      else if !newrelicValidateSegmentParam params.operation then some (none, s)
      else if !newrelicValidateSegmentParam params.host then some (none, s)
      else startTagged s .datastore now

/-- `newrelic_start_external_segment`. -/
def newrelicStartExternalSegment (s : SdkTxn) (transaction : TransactionPointer)
    (params : Option ExternalSegmentParams) (now : ℕ) :
    Option (Option NewrelicSegment × SdkTxn) :=
  match transaction, params with
  | .null, _ => some (none, s)
  | .live, none => some (none, s)
  | .live, some params =>
      if !newrelicValidateSegmentParam params.library then some (none, s)
      else if !newrelicValidateSegmentParam params.procedure then some (none, s)
      else if params.uri = none then some (none, s)
      else startTagged s .external now

/-- The arguments for which a datastore segment is started. -/
def DatastoreAccepted (transaction : TransactionPointer) (params : Option DatastoreSegmentParams) :
    Prop :=
  transaction = .live ∧ ∃ p, params = some p ∧ p.product.isSome ∧
    ∀ text ∈ [p.product, p.collection, p.operation, p.host], newrelicValidateSegmentParam text

/-- The arguments for which an external segment is started. -/
def ExternalAccepted (transaction : TransactionPointer) (params : Option ExternalSegmentParams) :
    Prop :=
  transaction = .live ∧ ∃ p, params = some p ∧ p.uri.isSome ∧
    ∀ text ∈ [p.library, p.procedure], newrelicValidateSegmentParam text

/-! ### Calls on a handle -/

/-- `nr_segment_set_parent` for two pointers; the child is added to the parent
without looking whether there is one. -/
def setParentOfPointers (s : SdkTxn) (segment parent : Option ℕ) : Option (Bool × SdkTxn) :=
  match segment, parent with
  | none, _ => some (false, s)
  | some a, none => if (s.txn.segment a).parent = none then some (true, s) else none
  | some a, some p =>
      some ((nrSegmentSetParent s.txn a p).1, s.change fun txn => (nrSegmentSetParent txn a p).2)

/-- `newrelic_set_segment_parent`. -/
def newrelicSetSegmentParent (s : SdkTxn) (segment parent : Option ℕ) : Option (Bool × SdkTxn) :=
  match s.handle segment, s.handle parent with
  | none, _ => some (false, s)
  | some _, none => some (false, s)
  | some h, some p =>
      if segment = parent then some (false, s)
      else
        let s := nrtMutexLock h.txnLock s
        match setParentOfPointers s h.segment p.segment with
        | none => none
        | some (ret, s) => some (ret, nrtMutexUnlock h.txnLock s)

/-- `newrelic_set_segment_parent_root`. -/
def newrelicSetSegmentParentRoot (s : SdkTxn) (segment : Option ℕ) : Option (Bool × SdkTxn) :=
  match s.handle segment with
  | none => some (false, s)
  | some h =>
      match h.transaction with
      | .null => some (false, s)
      | .live =>
          let s := nrtMutexLock h.txnLock s
          match setParentOfPointers s h.segment (some s.txn.segmentRoot) with
          | none => none
          | some (ret, s) => some (ret, nrtMutexUnlock h.txnLock s)

/-- `newrelic_set_segment_timing`. -/
def newrelicSetSegmentTiming (s : SdkTxn) (segment : Option ℕ) (startTime duration : ℕ) :
    Option (Bool × SdkTxn) :=
  match s.handle segment with
  | none => some (false, s)
  | some h =>
      let s := nrtMutexLock h.txnLock s
      match h.segment with
      | none => some (false, nrtMutexUnlock h.txnLock s)
      | some a =>
          let s := s.change fun txn => nrSegmentSetTiming txn a startTime duration
          some (true, nrtMutexUnlock h.txnLock s)

/-- `nr_segment_datastore_end`, what it does to the tree. -/
def datastoreEnded (txn : SegmentTxn) (segment name now : ℕ) : SegmentTxn :=
  let txn := nrSegmentSetName (nrSegmentEnd txn segment now) segment name
  txn.modify segment fun s => { s with tag := .datastore }

/-- The end of a segment by its type. `name` is the one its metric gives it. -/
def endByTag (txn : SegmentTxn) (segment name now : ℕ) : SegmentTxn :=
  match (txn.segment segment).tag with
  | .custom => nrSegmentEnd txn segment now
  | .datastore => datastoreEnded txn segment name now
  | .external => (nrSegmentExternalEnd txn segment { doRollup := false, name } now).2

/-- `newrelic_segment_destroy`. -/
def newrelicSegmentDestroy (s : SdkTxn) (segment : Option ℕ) : SdkTxn :=
  match segment with
  | none => s
  | some i => { s with handles := s.handles.set i none }

/-- `newrelic_end_segment`. That the transaction is the one of the segment is
all there is to it with one transaction. -/
def newrelicEndSegment (s : SdkTxn) (transaction : TransactionPointer) (segment : Option ℕ)
    (name now : ℕ) : Option (Bool × SdkTxn) :=
  match s.handle segment with
  | none => some (false, s)
  | some h =>
      match h.transaction, transaction with
      | .null, _ => some (false, newrelicSegmentDestroy s segment)
      | .live, .null => some (false, newrelicSegmentDestroy s segment)
      | .live, .live =>
          let s := nrtMutexLock (some .transaction) s
          match h.segment with
          | none => none
          | some a =>
              let s := s.change fun txn => endByTag txn a name now
              let s := nrtMutexUnlock (some .transaction) s
              some (true, newrelicSegmentDestroy s segment)

/-- `newrelic_ignore_transaction`. -/
def newrelicIgnoreTransaction (s : SdkTxn) (transaction : TransactionPointer) : Bool × SdkTxn :=
  match transaction with
  | .null => (false, s)
  | .live => (true, { s with txn := nrTxnIgnore s.txn })

/-! ### Runs -/

inductive SegmentApiCall
  | startSegment (transaction : TransactionPointer) (name category : Option CString) (now : ℕ)
  | startDatastoreSegment (transaction : TransactionPointer)
      (params : Option DatastoreSegmentParams) (now : ℕ)
  | startExternalSegment (transaction : TransactionPointer)
      (params : Option ExternalSegmentParams) (now : ℕ)
  | setSegmentParent (segment parent : Option ℕ)
  | setSegmentParentRoot (segment : Option ℕ)
  | setSegmentTiming (segment : Option ℕ) (startTime duration : ℕ)
  | endSegment (transaction : TransactionPointer) (segment : Option ℕ) (name now : ℕ)
  | ignoreTransaction (transaction : TransactionPointer)

namespace SdkTxn

/-- A transaction that was just started. -/
def begin (now : ℕ) : SdkTxn := { txn := nrTxnBegin now now, handles := [], events := [] }

/-- The user keeps what a start returns. -/
def keep (result : Option (Option NewrelicSegment × SdkTxn)) : Option SdkTxn :=
  result.map fun r => { r.2 with handles := r.2.handles ++ [r.1] }

def step (pool : Bytes → ℕ) (s : SdkTxn) : SegmentApiCall → Option SdkTxn
  | .startSegment transaction name category now =>
      keep (newrelicStartSegment pool s transaction name category now)
  | .startDatastoreSegment transaction params now =>
      keep (newrelicStartDatastoreSegment s transaction params now)
  | .startExternalSegment transaction params now =>
      keep (newrelicStartExternalSegment s transaction params now)
  | .setSegmentParent segment parent => (newrelicSetSegmentParent s segment parent).map Prod.snd
  | .setSegmentParentRoot segment => (newrelicSetSegmentParentRoot s segment).map Prod.snd
  | .setSegmentTiming segment startTime duration =>
      (newrelicSetSegmentTiming s segment startTime duration).map Prod.snd
  | .endSegment transaction segment name now =>
      (newrelicEndSegment s transaction segment name now).map Prod.snd
  | .ignoreTransaction transaction => some (newrelicIgnoreTransaction s transaction).2

/-- The next call of a process, if it is alive. -/
def exec (pool : Bytes → ℕ) (state : Option SdkTxn) (call : SegmentApiCall) : Option SdkTxn :=
  state.bind fun s => step pool s call

/-! ### What a call does to locks and handles -/

/-- A handle that can be used: it is of the transaction and has a segment. -/
def Intact (h : NewrelicSegment) : Prop := h.transaction = .live ∧ h.segment.isSome

/-- What holds between two calls, whatever the calls were. -/
structure Invariant (s : SdkTxn) : Prop where
  released : heldAfter .transaction false s.events = false
  intact : ∀ h, some h ∈ s.handles → Intact h

/-- Every handle has the lock of the transaction, and the tree was only gone
into under that lock. -/
structure Locked (s : SdkTxn) : Prop where
  guarded : Guarded .transaction false s.events
  handles : ∀ h, some h ∈ s.handles → h.txnLock = some .transaction

/-- What a call that returns has done: the events `es`, and the handle `new` if
it is a start. -/
structure Outcome (s s' : SdkTxn) (es : List (LockEvent Mutex)) (new : Option NewrelicSegment) :
    Prop where
  events : s'.events = s.events ++ es
  released : heldAfter .transaction false es = false
  old : ∀ h, some h ∈ s'.handles → some h ∈ s.handles ∨ new = some h
  kept : ∀ h, new = some h → some h ∈ s'.handles
  intact : ∀ h, new = some h → Intact h

section Outcome

variable {s s' : SdkTxn} {es : List (LockEvent Mutex)} {new : Option NewrelicSegment}

theorem Outcome.invariant (ho : Outcome s s' es new) (h : s.Invariant) : s'.Invariant := by
  refine ⟨?_, ?_⟩
  · rw [ho.events, heldAfter_append, h.released]
    exact ho.released
  · intro x hx
    obtain hold | hnew := ho.old x hx
    · exact h.intact x hold
    · exact ho.intact x hnew

theorem Outcome.locked_iff (ho : Outcome s s' es new) (h : s.Invariant) (hl : s.Locked) :
    s'.Locked ↔
      Guarded .transaction false es ∧ ∀ x, new = some x → x.txnLock = some .transaction := by
  have hguarded : Guarded .transaction false s'.events ↔ Guarded .transaction false es := by
    rw [ho.events, guarded_append, h.released]
    exact and_iff_right hl.guarded
  constructor
  · intro hl'
    exact ⟨hguarded.mp hl'.guarded, fun x hx => hl'.handles x (ho.kept x hx)⟩
  · rintro ⟨hes, hnew⟩
    refine ⟨hguarded.mpr hes, fun x hx => ?_⟩
    obtain hold | hx := ho.old x hx
    · exact hl.handles x hold
    · exact hnew x hx

theorem Outcome.unchanged (s : SdkTxn) : Outcome s s [] none :=
  ⟨(List.append_nil _).symm, rfl, fun _ hx => .inl hx, nofun, nofun⟩

/-- A start that returns `new`. -/
theorem Outcome.keep (hevents : s'.events = s.events ++ es) (hhandles : s'.handles = s.handles)
    (hreleased : heldAfter .transaction false es = false)
    (hintact : ∀ h, new = some h → Intact h) :
    Outcome s { s' with handles := s'.handles ++ [new] } es new := by
  refine ⟨hevents, hreleased, ?_, ?_, hintact⟩
  · intro h hh
    rw [hhandles] at hh
    obtain hold | hlast := List.mem_append.mp hh
    · exact .inl hold
    · exact .inr (List.mem_singleton.mp hlast).symm
  · rintro h rfl
    exact List.mem_append_right _ (List.mem_singleton_self _)

end Outcome

/-- The events of a call that takes a lock for one change of the tree. -/
def bracket (mutex : Option Mutex) : List (LockEvent Mutex) :=
  (mutex.map .lock).toList ++ [.change] ++ (mutex.map .unlock).toList

theorem released_bracket (mutex : Option Mutex) :
    heldAfter .transaction false (bracket mutex) = false := by
  rcases mutex with _ | _ | _ <;> rfl

theorem events_bracket (mutex : Option Mutex) (s : SdkTxn) (f : SegmentTxn → SegmentTxn) :
    (nrtMutexUnlock mutex ((nrtMutexLock mutex s).change f)).events =
      s.events ++ bracket mutex := by
  cases mutex with
  | none => rfl
  | some m =>
      simp only [nrtMutexLock, change, nrtMutexUnlock, bracket, Option.map_some, Option.toList_some,
        List.append_assoc]

theorem handles_bracket (mutex : Option Mutex) (s : SdkTxn) (f : SegmentTxn → SegmentTxn) :
    (nrtMutexUnlock mutex ((nrtMutexLock mutex s).change f)).handles = s.handles := by
  cases mutex <;> rfl

/-- A change of the tree that is bracketed by the lock of a handle. -/
theorem Outcome.bracket (mutex : Option Mutex) (s : SdkTxn) (f : SegmentTxn → SegmentTxn) :
    Outcome s (nrtMutexUnlock mutex ((nrtMutexLock mutex s).change f)) (bracket mutex) none :=
  ⟨events_bracket mutex s f, released_bracket mutex,
    fun _ hx => .inl (handles_bracket mutex s f ▸ hx), nofun, nofun⟩

theorem mem_handles {s : SdkTxn} {pointer : Option ℕ} {h : NewrelicSegment}
    (hp : s.handle pointer = some h) : some h ∈ s.handles := by
  cases pointer with
  | none => cases hp
  | some i =>
      rw [handle, Option.join_eq_some_iff] at hp
      exact List.mem_of_getElem? hp

theorem Outcome.destroy {s s' : SdkTxn} {es : List (LockEvent Mutex)}
    (ho : Outcome s s' es none) (pointer : Option ℕ) :
    Outcome s (newrelicSegmentDestroy s' pointer) es none := by
  cases pointer with
  | none => exact ho
  | some i =>
      refine ⟨ho.events, ho.released, fun h hh => ?_, nofun, nofun⟩
      obtain hmem | hnone := List.mem_or_eq_of_mem_set hh
      · exact ho.old h hmem
      · cases hnone

/-! ### The calls one by one -/

theorem newrelicSegmentCreate_of_recording {s : SdkTxn} (h : s.txn.recording = true) (now : ℕ) :
    ∃ s', newrelicSegmentCreate s now =
        (some { transaction := .live, segment := some s.txn.used, txnLock := none }, s') ∧
      s'.handles = s.handles ∧
      s'.events = s.events ++ [.change, .lock .allocation, .unlock .allocation] := by
  rw [newrelicSegmentCreate, nrSegmentStart_of_recording h]
  refine ⟨_, rfl, rfl, ?_⟩
  simp only [nrtMutexUnlock, nrtMutexLock, change, List.append_assoc, List.cons_append,
    List.nil_append]

theorem newrelicSegmentCreate_of_not_recording {s : SdkTxn} (h : s.txn.recording = false)
    (now : ℕ) : newrelicSegmentCreate s now = (none, s) := by
  rw [newrelicSegmentCreate, nrSegmentStart_of_not_recording h]

/-- The events of a start that is not refused. -/
def startEvents : List (LockEvent Mutex) :=
  [.lock .transaction, .change, .lock .allocation, .unlock .allocation, .change,
    .unlock .transaction]

theorem guarded_startEvents : Guarded .transaction false startEvents :=
  ⟨rfl, rfl, trivial⟩

/-- A start whose arguments are in order returns a handle with the lock if the
transaction is recording, and dereferences NULL otherwise. -/
theorem newrelicStartSegment_live (pool : Bytes → ℕ) (s : SdkTxn) (name category : Option CString)
    (now : ℕ) :
    (s.txn.recording = false ∧ newrelicStartSegment pool s .live name category now = none) ∨
    (s.txn.recording = true ∧ ∃ h s', Intact h ∧ h.txnLock = some .transaction ∧
      newrelicStartSegment pool s .live name category now = some (some h, s') ∧
      s'.handles = s.handles ∧ s'.events = s.events ++ startEvents) := by
  cases hrecording : s.txn.recording with
  | false =>
      refine .inl ⟨rfl, ?_⟩
      simp only [newrelicStartSegment]
      rw [newrelicSegmentCreate_of_not_recording (s := nrtMutexLock (some .transaction) s)
        hrecording]
  | true =>
      obtain ⟨t, hcreate, hhandles, hevents⟩ := newrelicSegmentCreate_of_recording
        (s := nrtMutexLock (some .transaction) s) hrecording now
      have hstart : newrelicStartSegment pool s .live name category now =
          some (some ⟨.live, some s.txn.used, some .transaction⟩,
            nrtMutexUnlock (some .transaction) (t.change fun txn => nrSegmentSetName txn s.txn.used
              (pool (textOr "Custom" category ++ ascii "/" ++ textOr "Unnamed Segment" name)))) := by
        simp only [newrelicStartSegment]
        rw [hcreate]
        rfl
      refine .inr ⟨rfl, _, _, ⟨rfl, rfl⟩, rfl, hstart, hhandles, ?_⟩
      simp only [nrtMutexUnlock, change, hevents, nrtMutexLock, startEvents, List.append_assoc,
        List.cons_append, List.nil_append]

/-- A typed start whose parameters are in order returns a handle without a
lock, unless recording has stopped. -/
theorem startTagged_cases (s : SdkTxn) (tag : SegmentTag) (now : ℕ) :
    (s.txn.recording = false ∧ ∃ s', startTagged s tag now = some (none, s') ∧
      s'.handles = s.handles ∧
      s'.events = s.events ++ [.lock .transaction, .unlock .transaction]) ∨
    (s.txn.recording = true ∧ ∃ h s', Intact h ∧ h.txnLock = none ∧
      startTagged s tag now = some (some h, s') ∧
      s'.handles = s.handles ∧ s'.events = s.events ++ startEvents) := by
  cases hrecording : s.txn.recording with
  | false =>
      have hstart : startTagged s tag now =
          some (none, nrtMutexUnlock (some .transaction) (nrtMutexLock (some .transaction) s)) := by
        simp only [startTagged]
        rw [newrelicSegmentCreate_of_not_recording (s := nrtMutexLock (some .transaction) s)
        hrecording]
      refine .inl ⟨rfl, _, hstart, rfl, ?_⟩
      simp only [nrtMutexUnlock, nrtMutexLock, List.append_assoc, List.cons_append, List.nil_append]
  | true =>
      obtain ⟨t, hcreate, hhandles, hevents⟩ := newrelicSegmentCreate_of_recording
        (s := nrtMutexLock (some .transaction) s) hrecording now
      have hstart : startTagged s tag now =
          some (some ⟨.live, some s.txn.used, none⟩, nrtMutexUnlock (some .transaction)
            (t.change fun txn => txn.modify s.txn.used fun seg => { seg with tag := tag })) := by
        simp only [startTagged]
        rw [hcreate]
        rfl
      refine .inr ⟨rfl, _, _, ⟨rfl, rfl⟩, rfl, hstart, hhandles, ?_⟩
      simp only [nrtMutexUnlock, change, hevents, nrtMutexLock, startEvents, List.append_assoc,
        List.cons_append, List.nil_append]

theorem newrelicStartDatastoreSegment_cases (s : SdkTxn) (transaction : TransactionPointer)
    (params : Option DatastoreSegmentParams) (now : ℕ) :
    (DatastoreAccepted transaction params ∧
      newrelicStartDatastoreSegment s transaction params now = startTagged s .datastore now) ∨
    (¬ DatastoreAccepted transaction params ∧
      newrelicStartDatastoreSegment s transaction params now = some (none, s)) := by
  cases transaction with
  | null => exact .inr ⟨(fun h => nomatch h.1), rfl⟩
  | live =>
      cases params with
      | none => exact .inr ⟨(fun ⟨_, _, h, _⟩ => nomatch h), rfl⟩
      | some p =>
          have haccepted : DatastoreAccepted .live (some p) ↔ p.product ≠ none ∧
              newrelicValidateSegmentParam p.product ∧ newrelicValidateSegmentParam p.collection ∧
              newrelicValidateSegmentParam p.operation ∧ newrelicValidateSegmentParam p.host := by
            simp [DatastoreAccepted, Option.isSome_iff_ne_none]
          rw [haccepted]
          simp only [newrelicStartDatastoreSegment]
          split_ifs with h₁ h₂ h₃ h₄ h₅ <;> simp_all

theorem newrelicStartExternalSegment_cases (s : SdkTxn) (transaction : TransactionPointer)
    (params : Option ExternalSegmentParams) (now : ℕ) :
    (ExternalAccepted transaction params ∧
      newrelicStartExternalSegment s transaction params now = startTagged s .external now) ∨
    (¬ ExternalAccepted transaction params ∧
      newrelicStartExternalSegment s transaction params now = some (none, s)) := by
  cases transaction with
  | null => exact .inr ⟨(fun h => nomatch h.1), rfl⟩
  | live =>
      cases params with
      | none => exact .inr ⟨(fun ⟨_, _, h, _⟩ => nomatch h), rfl⟩
      | some p =>
          have haccepted : ExternalAccepted .live (some p) ↔ p.uri ≠ none ∧
              newrelicValidateSegmentParam p.library ∧
              newrelicValidateSegmentParam p.procedure := by
            simp [ExternalAccepted, Option.isSome_iff_ne_none]
          rw [haccepted]
          simp only [newrelicStartExternalSegment]
          split_ifs with h₁ h₂ h₃ <;> simp_all

/-- The calls after which locks and handles are in order: an untyped segment is
started while the transaction is recording, a typed one is refused. -/
def Safe (s : SdkTxn) : SegmentApiCall → Prop
  | .startSegment transaction _ _ _ => transaction = .live → s.txn.recording = true
  | .startDatastoreSegment transaction params _ =>
      s.txn.recording = true → ¬ DatastoreAccepted transaction params
  | .startExternalSegment transaction params _ =>
      s.txn.recording = true → ¬ ExternalAccepted transaction params
  | _ => True

/-- What a call does, and that it is right exactly when it is safe: it
dereferences NULL, or it has an outcome. -/
def Decided (pool : Bytes → ℕ) (s : SdkTxn) (call : SegmentApiCall) : Prop :=
  (step pool s call = none ∧ ¬ s.Safe call) ∨
  ∃ s' es new, step pool s call = some s' ∧ Outcome s s' es new ∧
    (s.Locked → ((Guarded .transaction false es ∧
      ∀ x, new = some x → x.txnLock = some .transaction) ↔ s.Safe call))

section Decided

variable {pool : Bytes → ℕ} {s : SdkTxn} {call : SegmentApiCall}

theorem decided_of_unchanged (hstep : step pool s call = some s) (hsafe : s.Safe call) :
    Decided pool s call :=
  .inr ⟨s, [], none, hstep, .unchanged s, fun _ => iff_of_true ⟨trivial, nofun⟩ hsafe⟩

theorem decided_of_null (hstep : step pool s call = keep (some (none, s))) (hsafe : s.Safe call) :
    Decided pool s call :=
  .inr ⟨_, [], none, hstep, .keep (List.append_nil _).symm rfl rfl nofun,
    fun _ => iff_of_true ⟨trivial, nofun⟩ hsafe⟩

theorem decided_startSegment (transaction : TransactionPointer) (name category : Option CString)
    (now : ℕ) : Decided pool s (.startSegment transaction name category now) := by
  cases transaction with
  | null => exact decided_of_null rfl (fun h => nomatch h)
  | live =>
      obtain ⟨hrecording, hnone⟩ | ⟨hrecording, h, t, hintact, hlock, hstart, hhandles, hevents⟩ :=
        newrelicStartSegment_live pool s name category now
      · refine .inl ⟨?_, fun hsafe => ?_⟩
        · rw [step, hnone]
          rfl
        · rw [hsafe rfl] at hrecording
          cases hrecording
      · refine .inr ⟨_, startEvents, some h, ?_, .keep hevents hhandles rfl ?_, fun _ => ?_⟩
        · rw [step, hstart]
          rfl
        · rintro x hx
          exact Option.some.inj hx ▸ hintact
        · refine iff_of_true ⟨guarded_startEvents, fun x hx => ?_⟩ fun _ => hrecording
          exact Option.some.inj hx ▸ hlock

/-- A typed start, for the arguments that `accepted` says. -/
theorem decided_of_typed {result : Option (Option NewrelicSegment × SdkTxn)} {accepted : Prop}
    {tag : SegmentTag} {now : ℕ} (hstep : step pool s call = keep result)
    (hcases : accepted ∧ result = startTagged s tag now ∨ ¬ accepted ∧ result = some (none, s))
    (hsafe : s.Safe call ↔ (s.txn.recording = true → ¬ accepted)) : Decided pool s call := by
  obtain ⟨haccepted, rfl⟩ | ⟨haccepted, rfl⟩ := hcases
  · obtain ⟨hrecording, t, hstart, hhandles, hevents⟩ |
      ⟨hrecording, h, t, hintact, hlock, hstart, hhandles, hevents⟩ := startTagged_cases s tag now
    · rw [hstart] at hstep
      refine .inr ⟨_, _, none, hstep, .keep hevents hhandles rfl nofun, fun _ => ?_⟩
      refine iff_of_true ⟨trivial, nofun⟩ (hsafe.mpr fun hr => ?_)
      rw [hrecording] at hr
      cases hr
    · rw [hstart] at hstep
      refine .inr ⟨_, startEvents, some h, hstep, .keep hevents hhandles rfl ?_, fun _ => ?_⟩
      · rintro x hx
        exact Option.some.inj hx ▸ hintact
      · refine iff_of_false (fun hgood => ?_) fun hs => hsafe.mp hs hrecording haccepted
        have := hgood.2 h rfl
        rw [hlock] at this
        cases this
  · exact decided_of_null hstep (hsafe.mpr fun _ => haccepted)

theorem decided_of_bracket {h : NewrelicSegment} (hmem : some h ∈ s.handles)
    {f : SegmentTxn → SegmentTxn}
    (hstep : step pool s call =
      some (nrtMutexUnlock h.txnLock ((nrtMutexLock h.txnLock s).change f)))
    (hsafe : s.Safe call) : Decided pool s call := by
  refine .inr ⟨_, _, none, hstep, .bracket h.txnLock s f, fun hl => ?_⟩
  refine iff_of_true ⟨?_, nofun⟩ hsafe
  rw [hl.handles h hmem]
  exact ⟨rfl, trivial⟩

theorem decided_setSegmentParent (h : s.Invariant) (segment parent : Option ℕ) :
    Decided pool s (.setSegmentParent segment parent) := by
  cases hsegment : s.handle segment with
  | none =>
      refine decided_of_unchanged ?_ trivial
      simp only [step, newrelicSetSegmentParent, hsegment, Option.map_some]
  | some x =>
      cases hparent : s.handle parent with
      | none =>
          refine decided_of_unchanged ?_ trivial
          simp only [step, newrelicSetSegmentParent, hsegment, hparent, Option.map_some]
      | some y =>
          by_cases hsame : segment = parent
          · refine decided_of_unchanged ?_ trivial
            simp only [step, newrelicSetSegmentParent, hsegment, hparent, if_pos hsame,
              Option.map_some]
          · obtain ⟨a, ha⟩ := Option.isSome_iff_exists.mp (h.intact x (mem_handles hsegment)).2
            obtain ⟨b, hb⟩ := Option.isSome_iff_exists.mp (h.intact y (mem_handles hparent)).2
            refine decided_of_bracket (mem_handles hsegment)
              (f := fun txn => (nrSegmentSetParent txn a b).2) ?_ trivial
            simp only [step, newrelicSetSegmentParent, hsegment, hparent, if_neg hsame, ha, hb,
              setParentOfPointers, Option.map_some]

theorem decided_setSegmentParentRoot (h : s.Invariant) (segment : Option ℕ) :
    Decided pool s (.setSegmentParentRoot segment) := by
  cases hsegment : s.handle segment with
  | none =>
      refine decided_of_unchanged ?_ trivial
      simp only [step, newrelicSetSegmentParentRoot, hsegment, Option.map_some]
  | some x =>
      obtain ⟨hlive, hsome⟩ := h.intact x (mem_handles hsegment)
      obtain ⟨a, ha⟩ := Option.isSome_iff_exists.mp hsome
      refine decided_of_bracket (mem_handles hsegment)
        (f := fun txn => (nrSegmentSetParent txn a
          (nrtMutexLock x.txnLock s).txn.segmentRoot).2) ?_ trivial
      simp only [step, newrelicSetSegmentParentRoot, hsegment, hlive, ha, setParentOfPointers,
        Option.map_some]

theorem decided_setSegmentTiming (h : s.Invariant) (segment : Option ℕ) (startTime duration : ℕ) :
    Decided pool s (.setSegmentTiming segment startTime duration) := by
  cases hsegment : s.handle segment with
  | none =>
      refine decided_of_unchanged ?_ trivial
      simp only [step, newrelicSetSegmentTiming, hsegment, Option.map_some]
  | some x =>
      obtain ⟨a, ha⟩ := Option.isSome_iff_exists.mp (h.intact x (mem_handles hsegment)).2
      refine decided_of_bracket (mem_handles hsegment)
        (f := fun txn => nrSegmentSetTiming txn a startTime duration) ?_ trivial
      simp only [step, newrelicSetSegmentTiming, hsegment, ha, Option.map_some]

/-- The end of a segment takes the lock from the transaction it is given, not
from the handle. -/
theorem decided_endSegment (h : s.Invariant) (transaction : TransactionPointer)
    (segment : Option ℕ) (name now : ℕ) :
    Decided pool s (.endSegment transaction segment name now) := by
  cases hsegment : s.handle segment with
  | none =>
      refine decided_of_unchanged ?_ trivial
      simp only [step, newrelicEndSegment, hsegment, Option.map_some]
  | some x =>
      obtain ⟨hlive, hsome⟩ := h.intact x (mem_handles hsegment)
      obtain ⟨a, ha⟩ := Option.isSome_iff_exists.mp hsome
      cases transaction with
      | null =>
          refine .inr ⟨_, [], none, ?_, (Outcome.unchanged s).destroy segment,
            fun _ => iff_of_true ⟨trivial, nofun⟩ trivial⟩
          simp only [step, newrelicEndSegment, hsegment, hlive, Option.map_some]
      | live =>
          refine .inr ⟨_, _, none, ?_,
            (Outcome.bracket (some .transaction) s fun txn => endByTag txn a name now).destroy
              segment,
            fun _ => iff_of_true ⟨⟨rfl, trivial⟩, nofun⟩ trivial⟩
          simp only [step, newrelicEndSegment, hsegment, hlive, ha, Option.map_some]

theorem decided_step (pool : Bytes → ℕ) (h : s.Invariant) (call : SegmentApiCall) :
    Decided pool s call := by
  cases call with
  | startSegment transaction name category now =>
      exact decided_startSegment transaction name category now
  | startDatastoreSegment transaction params now =>
      exact decided_of_typed rfl (newrelicStartDatastoreSegment_cases s transaction params now)
        Iff.rfl
  | startExternalSegment transaction params now =>
      exact decided_of_typed rfl (newrelicStartExternalSegment_cases s transaction params now)
        Iff.rfl
  | setSegmentParent segment parent => exact decided_setSegmentParent h segment parent
  | setSegmentParentRoot segment => exact decided_setSegmentParentRoot h segment
  | setSegmentTiming segment startTime duration =>
      exact decided_setSegmentTiming h segment startTime duration
  | endSegment transaction segment name now =>
      exact decided_endSegment h transaction segment name now
  | ignoreTransaction transaction =>
      cases transaction with
      | null => exact decided_of_unchanged rfl trivial
      | live =>
          refine .inr ⟨_, [], none, rfl, ?_, fun _ => iff_of_true ⟨trivial, nofun⟩ trivial⟩
          exact ⟨(List.append_nil _).symm, rfl, fun _ hx => .inl hx, nofun, nofun⟩

end Decided

/-! ### Runs of calls -/

/-- No call dereferenced NULL, every handle there is has the lock, and the tree
was only gone into under it. -/
def Usable (state : Option SdkTxn) : Prop := ∃ s, state = some s ∧ s.Locked

/-- The invariant, of a process that is alive. -/
def Keeps (state : Option SdkTxn) : Prop := ∀ s, state = some s → s.Invariant

/-- A call is safe in a process that is alive. -/
def SafeIn (state : Option SdkTxn) (call : SegmentApiCall) : Prop :=
  ∀ s, state = some s → s.Safe call

theorem keeps_exec (pool : Bytes → ℕ) (state : Option SdkTxn) (call : SegmentApiCall)
    (h : Keeps state) : Keeps (exec pool state call) := by
  intro t ht
  cases state with
  | none => cases ht
  | some s =>
      have hstep : step pool s call = some t := ht
      obtain ⟨hnone, -⟩ | ⟨s', es, new, hsome, ho, -⟩ :=
        decided_step pool (h s rfl) call
      · rw [hnone] at hstep
        cases hstep
      · rw [hsome] at hstep
        obtain rfl := Option.some.inj hstep
        exact ho.invariant (h s rfl)

theorem usable_exec_iff (pool : Bytes → ℕ) (state : Option SdkTxn) (call : SegmentApiCall)
    (h : Keeps state) (hu : Usable state) :
    Usable (exec pool state call) ↔ SafeIn state call := by
  obtain ⟨s, rfl, hl⟩ := hu
  have hsafe : SafeIn (some s) call ↔ s.Safe call :=
    ⟨fun hs => hs s rfl, fun hs t ht => Option.some.inj ht ▸ hs⟩
  rw [hsafe]
  show Usable (step pool s call) ↔ s.Safe call
  obtain ⟨hnone, hunsafe⟩ | ⟨s', es, new, hsome, ho, hiff⟩ :=
    decided_step pool (h s rfl) call
  · rw [hnone]
    exact iff_of_false (fun ⟨_, hx, _⟩ => nomatch hx) hunsafe
  · rw [hsome]
    calc Usable (some s') ↔ s'.Locked :=
          ⟨fun ⟨t, ht, htl⟩ => Option.some.inj ht ▸ htl, fun hl' => ⟨s', rfl, hl'⟩⟩
      _ ↔ _ := ho.locked_iff (h s rfl) hl
      _ ↔ s.Safe call := hiff hl

theorem invariant_begin (now : ℕ) : (begin now).Invariant := ⟨rfl, nofun⟩

theorem locked_begin (now : ℕ) : (begin now).Locked := ⟨trivial, nofun⟩

/-- In every run, every handle has the lock of the transaction, every change of
the tree is made under it and NULL is not dereferenced, if and only if untyped
segments are only started while the transaction is recording, and typed ones only
when the start is refused. -/
theorem segment_handles_usable_iff (pool : Bytes → ℕ) (now : ℕ) (calls : List SegmentApiCall) :
    Throughout (exec pool) Usable (some (begin now)) calls ↔
      Along (exec pool) SafeIn (some (begin now)) calls := by
  have hkeeps : Keeps (some (begin now)) := fun s hs => Option.some.inj hs ▸ invariant_begin now
  have hthroughout : Throughout (exec pool) Keeps (some (begin now)) calls :=
    throughout_of_along (fun state call h _ => keeps_exec pool state call h) hkeeps
      (along_true _ _)
  have hboth : Throughout (exec pool) (fun state => Usable state ∧ Keeps state)
      (some (begin now)) calls ↔ Along (exec pool) SafeIn (some (begin now)) calls := by
    refine throughout_iff_along (fun state call h => ?_)
      ⟨⟨begin now, rfl, locked_begin now⟩, hkeeps⟩
    calc Usable (exec pool state call) ∧ Keeps (exec pool state call)
        ↔ Usable (exec pool state call) := and_iff_left (keeps_exec pool state call h.2)
      _ ↔ SafeIn state call := usable_exec_iff pool state call h.2 h.1
  rw [← hboth, throughout_and_iff]
  exact (and_iff_left hthroughout).symm

/-- An external segment is started, and its times are set. -/
def externalCalls : List SegmentApiCall :=
  [.startExternalSegment .live (some ⟨some ⟨ascii "uri", by decide⟩, none, none⟩) 0,
    .setSegmentTiming (some 0) 5 5]

/-- A start after the transaction was ignored dereferences NULL. An external
segment has no lock, and its times are set without one. -/
theorem segment_handle_without_lock :
    runFrom (exec fun _ => 0) (some (begin 0))
        [.ignoreTransaction .live, .startSegment .live none none 0] = none ∧
    ∃ s, runFrom (exec fun _ => 0) (some (begin 0)) externalCalls = some s ∧
      s.handles = [some { transaction := .live, segment := some 1, txnLock := none }] ∧
      (s.txn.segment 1).startTime = 5 ∧ ¬ Guarded .transaction false s.events := by
  refine ⟨rfl, _, rfl, rfl, rfl, ?_⟩
  rintro ⟨-, -, hheld, -⟩
  cases hheld

end SdkTxn

end AxiomDaemon.Sdk

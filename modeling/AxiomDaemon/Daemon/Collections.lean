import Mathlib.Algebra.Order.Group.Multiset
import Mathlib.Algebra.BigOperators.Group.Multiset.Basic
import AxiomDaemon.Lib.BinaryHeap

/-!
The bounded collections of a harvest: reservoirs of events
(`analytics_events.go`), traced errors (`errors.go`), slow SQL statements
(`slow_sqls.go`) and transaction traces (`txn_traces.go`).

The daemon never looks into the JSON of an event, an error or a trace, so its
type `ι` is a parameter. It only ever adds the counts of two observations of
one SQL statement, so their type is a parameter too: for the daemon a 32-bit
integer, and a multiset of observations where it matters which observations a
statement stands for. Numbers that are floating point in the source are so
here.

For every collection there is one bound: what it contains after an addition
was in it before, or was added.
-/

namespace AxiomDaemon.Daemon

open AxiomDaemon.Lib

variable {ι C : Type}

theorem coe_map_heapPush_le {α : Type} (f : α → ι) (less : α → α → Bool) {l l' : List α}
    (h : l.Subperm l') (x : α) :
    (↑((heapPush less l x).map f) : Multiset ι) ≤ f x ::ₘ ↑(l'.map f) := by
  have hsub : (heapPush less l x).Subperm (x :: l') :=
    (heapPush_perm less l x).subperm.trans ((List.subperm_cons x).mpr h)
  exact Multiset.map_le_map (f := f) (Multiset.coe_le.mpr hsub)

/-! ### Reservoirs of events -/

/-- `limits.FailedEventsAttemptsLimit`. -/
def failedEventsAttemptsLimit : Nat := 10

structure AnalyticsEvent (ι : Type) where
  priority : Float
  data : ι

/-- `IsLowerPriority`. -/
def isLowerPriority (x y : Float) : Bool := decide (x < y)

def AnalyticsEvent.less (x y : AnalyticsEvent ι) : Bool := isLowerPriority x.priority y.priority

/-- `analyticsEvents`: `cap` is the capacity of the slice, which is the size
of the reservoir. -/
structure AnalyticsEvents (ι : Type) where
  numSeen : Nat
  events : List (AnalyticsEvent ι)
  cap : Nat
  failedHarvests : Nat
  bounded : events.length ≤ cap

def newAnalyticsEvents (max : Nat) : AnalyticsEvents ι where
  numSeen := 0
  events := []
  cap := max
  failedHarvests := 0
  bounded := Nat.zero_le max

namespace AnalyticsEvents

def contents (evs : AnalyticsEvents ι) : Multiset ι := ↑(evs.events.map AnalyticsEvent.data)

def empty (evs : AnalyticsEvents ι) : Bool := decide (0 = evs.events.length)

/-- An event is appended while there is room. The heap is built when the
reservoir becomes full. -/
def push (events : List (AnalyticsEvent ι)) (cap : Nat) (e : AnalyticsEvent ι) :
    List (AnalyticsEvent ι) :=
  if (events ++ [e]).length = cap then heapInit AnalyticsEvent.less (events ++ [e])
  else events ++ [e]

theorem push_perm (events : List (AnalyticsEvent ι)) (cap : Nat) (e : AnalyticsEvent ι) :
    (push events cap e).Perm (e :: events) := by
  rw [push]
  split
  · exact (heapInit_perm _ _).trans (List.perm_append_singleton e events)
  · exact List.perm_append_singleton e events

/-- In a full reservoir the event takes the place of one of lowest priority,
unless its own is lower. -/
def replace (events : List (AnalyticsEvent ι)) (e : AnalyticsEvent ι) : List (AnalyticsEvent ι) :=
  match events.head? with
  | none => events
  | some root =>
      if isLowerPriority e.priority root.priority then events
      else heapPush AnalyticsEvent.less (heapPop AnalyticsEvent.less events) e

theorem length_replace (events : List (AnalyticsEvent ι)) (e : AnalyticsEvent ι) :
    (replace events e).length = events.length := by
  rw [replace]
  split
  · rfl
  · next root hroot =>
      split
      · rfl
      · have hpos : 0 < events.length := List.length_pos_of_mem (List.mem_of_head? hroot)
        rw [length_heapPush, length_heapPop]
        omega

theorem replace_subperm (events : List (AnalyticsEvent ι)) (e : AnalyticsEvent ι) :
    (replace events e).Subperm (e :: events) := by
  have hself : events.Subperm (e :: events) := (List.sublist_cons_self e events).subperm
  rw [replace]
  split
  · exact hself
  · split
    · exact hself
    · have hpop := heapPop_subperm AnalyticsEvent.less events
      exact (heapPush_perm _ _ e).subperm.trans ((List.subperm_cons e).mpr hpop)

/-- `AddEvent`. A capacity of zero means that events are disabled. -/
def addEvent (evs : AnalyticsEvents ι) (e : AnalyticsEvent ι) : AnalyticsEvents ι :=
  if h : evs.events.length < evs.cap then
    { evs with
      numSeen := evs.numSeen + 1
      events := push evs.events evs.cap e
      bounded := by rw [(push_perm evs.events evs.cap e).length_eq]; exact h }
  else if evs.cap = 0 then { evs with numSeen := evs.numSeen + 1 }
  else
    { evs with
      numSeen := evs.numSeen + 1
      events := replace evs.events e
      bounded := by rw [length_replace]; exact evs.bounded }

theorem coe_map_le_of_subperm {xs ys : List (AnalyticsEvent ι)} (h : xs.Subperm ys) :
    (↑(xs.map AnalyticsEvent.data) : Multiset ι) ≤ ↑(ys.map AnalyticsEvent.data) :=
  Multiset.map_le_map (Multiset.coe_le.mpr h)

theorem contents_addEvent (evs : AnalyticsEvents ι) (e : AnalyticsEvent ι) :
    (evs.addEvent e).contents ≤ e.data ::ₘ evs.contents := by
  rw [addEvent]
  split
  · exact coe_map_le_of_subperm (push_perm evs.events evs.cap e).subperm
  · split
    · exact Multiset.le_cons_self _ _
    · exact coe_map_le_of_subperm (replace_subperm evs.events e)

def addEvents (evs : AnalyticsEvents ι) (es : List (AnalyticsEvent ι)) : AnalyticsEvents ι :=
  es.foldl addEvent evs

theorem contents_addEvents (evs : AnalyticsEvents ι) (es : List (AnalyticsEvent ι)) :
    (evs.addEvents es).contents ≤ evs.contents + ↑(es.map AnalyticsEvent.data) := by
  induction es generalizing evs with
  | nil => exact (add_zero evs.contents).ge
  | cons e es ih =>
      calc (addEvents evs (e :: es)).contents
          ≤ (evs.addEvent e).contents + ↑(es.map AnalyticsEvent.data) := ih (evs.addEvent e)
        _ ≤ e.data ::ₘ evs.contents + ↑(es.map AnalyticsEvent.data) :=
            add_le_add_left (contents_addEvent evs e) _
        _ = evs.contents + ↑((e :: es).map AnalyticsEvent.data) := by
            rw [List.map_cons, ← Multiset.cons_coe, Multiset.cons_add, Multiset.add_cons]

/-- `Merge`. -/
def merge (evs other : AnalyticsEvents ι) : AnalyticsEvents ι :=
  { evs.addEvents other.events with numSeen := evs.numSeen + other.numSeen }

/-- `MergeFailed`. -/
def mergeFailed (evs other : AnalyticsEvents ι) : AnalyticsEvents ι :=
  let fails := other.failedHarvests + 1
  if fails > failedEventsAttemptsLimit then evs
  else merge { evs with failedHarvests := fails } other

theorem contents_merge (evs other : AnalyticsEvents ι) :
    (evs.merge other).contents ≤ evs.contents + other.contents :=
  contents_addEvents evs other.events

theorem contents_mergeFailed (evs other : AnalyticsEvents ι) :
    (evs.mergeFailed other).contents ≤ evs.contents + other.contents := by
  rw [mergeFailed]
  split
  · exact Multiset.le_add_right _ _
  · exact contents_merge _ other

/-- One half of a split reservoir: its capacity is its length. -/
def half (evs : AnalyticsEvents ι) (events : List (AnalyticsEvent ι)) : AnalyticsEvents ι where
  numSeen := events.length
  events := events
  cap := events.length
  failedHarvests := evs.failedHarvests
  bounded := le_rfl

/-- `Split`. -/
def split (evs : AnalyticsEvents ι) : AnalyticsEvents ι × AnalyticsEvents ι :=
  (evs.half (evs.events.take (evs.events.length / 2)),
    evs.half (evs.events.drop (evs.events.length / 2)))

theorem contents_split (evs : AnalyticsEvents ι) :
    evs.split.1.contents + evs.split.2.contents = evs.contents := by
  rw [split, contents, contents, contents, Multiset.coe_add, ← List.map_append]
  exact congrArg _ (congrArg _ (List.take_append_drop _ evs.events))

end AnalyticsEvents

/-! ### Traced errors -/

/-- `limits.MaxErrors`. -/
def maxErrors : Nat := 20

/-- `Error`. -/
structure TracedError (ι : Type) where
  priority : Int
  data : ι

def TracedError.less (x y : TracedError ι) : Bool := decide (x.priority < y.priority)

structure ErrorHeap (ι : Type) where
  errors : List (TracedError ι)
  cap : Nat

def newErrorHeap (max : Nat) : ErrorHeap ι where
  errors := []
  cap := max

namespace ErrorHeap

def contents (h : ErrorHeap ι) : Multiset ι := ↑(h.errors.map TracedError.data)

def empty (h : ErrorHeap ι) : Bool := decide (0 = h.errors.length)

/-- `AddError`. When the heap is full, a tie is decided for the error that was
added first. -/
def addError (h : ErrorHeap ι) (e : TracedError ι) : ErrorHeap ι :=
  if h.errors.length = h.cap then
    match h.errors.head? with
    | none => h
    | some root =>
        if e.priority ≤ root.priority then h
        else { h with errors := heapPush TracedError.less (heapPop TracedError.less h.errors) e }
  else { h with errors := heapPush TracedError.less h.errors e }

theorem contents_addError (h : ErrorHeap ι) (e : TracedError ι) :
    (h.addError e).contents ≤ e.data ::ₘ h.contents := by
  rw [addError]
  split
  · split
    · exact Multiset.le_cons_self _ _
    · split
      · exact Multiset.le_cons_self _ _
      · exact coe_map_heapPush_le TracedError.data _ (heapPop_subperm _ h.errors) e
  · exact coe_map_heapPush_le TracedError.data _ (List.Subperm.refl h.errors) e

end ErrorHeap

/-! ### Transaction traces -/

/-- `limits.MaxRegularTraces`. -/
def maxRegularTraces : Nat := 1

/-- `limits.MaxForcePersistTraces`. -/
def maxForcePersistTraces : Nat := 10

/-- `limits.MaxSyntheticsTraces`. -/
def maxSyntheticsTraces : Nat := 20

/-- `TxnTrace`, as far as the collection reads it. -/
structure TxnTrace (ι : Type) where
  durationMillis : Float
  data : ι
  forcePersist : Bool
  syntheticsResourceID : String

def TxnTrace.less (x y : TxnTrace ι) : Bool := decide (x.durationMillis < y.durationMillis)

structure TxnTraceHeap (ι : Type) where
  traces : List (TxnTrace ι)
  cap : Nat

def newTxnTraceHeap (max : Nat) : TxnTraceHeap ι where
  traces := []
  cap := max

namespace TxnTraceHeap

def contents (h : TxnTraceHeap ι) : Multiset ι := ↑(h.traces.map TxnTrace.data)

def isEmpty (h : TxnTraceHeap ι) : Bool := decide (0 = h.traces.length)

def isKeeper (h : TxnTraceHeap ι) (tt : TxnTrace ι) : Bool :=
  if h.traces.length < h.cap then true
  else
    match h.traces.head? with
    | none => false
    | some root => decide (tt.durationMillis ≥ root.durationMillis)

def addTxnTrace (h : TxnTraceHeap ι) (t : TxnTrace ι) : TxnTraceHeap ι :=
  if h.traces.length < h.cap then { h with traces := heapPush TxnTrace.less h.traces t }
  else
    match h.traces.head? with
    | none => h
    | some root =>
        if t.durationMillis < root.durationMillis then h
        else { h with traces := heapPush TxnTrace.less (heapPop TxnTrace.less h.traces) t }

theorem contents_addTxnTrace (h : TxnTraceHeap ι) (t : TxnTrace ι) :
    (h.addTxnTrace t).contents ≤ t.data ::ₘ h.contents := by
  rw [addTxnTrace]
  split
  · exact coe_map_heapPush_le TxnTrace.data _ (List.Subperm.refl h.traces) t
  · split
    · exact Multiset.le_cons_self _ _
    · split
      · exact Multiset.le_cons_self _ _
      · exact coe_map_heapPush_le TxnTrace.data _ (heapPop_subperm _ h.traces) t

end TxnTraceHeap

structure TxnTraces (ι : Type) where
  regular : TxnTraceHeap ι
  forcePersisted : TxnTraceHeap ι
  synthetics : TxnTraceHeap ι

def newTxnTraces : TxnTraces ι where
  regular := newTxnTraceHeap maxRegularTraces
  forcePersisted := newTxnTraceHeap maxForcePersistTraces
  synthetics := newTxnTraceHeap maxSyntheticsTraces

namespace TxnTraces

def contents (traces : TxnTraces ι) : Multiset ι :=
  traces.synthetics.contents + traces.forcePersisted.contents + traces.regular.contents

def empty (traces : TxnTraces ι) : Bool :=
  traces.synthetics.isEmpty && traces.forcePersisted.isEmpty && traces.regular.isEmpty

def isKeeper (traces : TxnTraces ι) (tt : TxnTrace ι) : Bool :=
  if tt.syntheticsResourceID ≠ "" then traces.synthetics.isKeeper tt
  else if tt.forcePersist then traces.forcePersisted.isKeeper tt
  else traces.regular.isKeeper tt

def addTxnTrace (traces : TxnTraces ι) (t : TxnTrace ι) : TxnTraces ι :=
  if t.syntheticsResourceID ≠ "" then
    { traces with synthetics := traces.synthetics.addTxnTrace t }
  else if t.forcePersist then
    { traces with forcePersisted := traces.forcePersisted.addTxnTrace t }
  else { traces with regular := traces.regular.addTxnTrace t }

theorem contents_addTxnTrace (traces : TxnTraces ι) (t : TxnTrace ι) :
    (traces.addTxnTrace t).contents ≤ t.data ::ₘ traces.contents := by
  rw [addTxnTrace, contents, contents, ← Multiset.singleton_add]
  split
  · have hadd := traces.synthetics.contents_addTxnTrace t
    rw [← Multiset.singleton_add] at hadd
    calc _ ≤ {t.data} + traces.synthetics.contents + traces.forcePersisted.contents +
          traces.regular.contents := by gcongr
      _ = _ := by simp only [add_assoc]
  · split
    · have hadd := traces.forcePersisted.contents_addTxnTrace t
      rw [← Multiset.singleton_add] at hadd
      calc _ ≤ traces.synthetics.contents + ({t.data} + traces.forcePersisted.contents) +
            traces.regular.contents := by gcongr
        _ = _ := by ac_rfl
    · have hadd := traces.regular.contents_addTxnTrace t
      rw [← Multiset.singleton_add] at hadd
      calc _ ≤ traces.synthetics.contents + traces.forcePersisted.contents +
            ({t.data} + traces.regular.contents) := by gcongr
        _ = _ := by ac_rfl

end TxnTraces

/-! ### Slow SQL statements -/

/-- `limits.MaxSlowSQLs`. -/
def maxSlowSQLs : Nat := 10

structure SlowSQL (C : Type) where
  id : UInt32
  count : C
  totalMicros : UInt64
  minMicros : UInt64
  maxMicros : UInt64
  metricName : String
  query : String
  txnName : String
  txnURL : String
  params : String

structure SlowSQLs (C : Type) where
  slowSQLs : List (SlowSQL C)
  cap : Nat

def newSlowSQLs (max : Nat) : SlowSQLs C where
  slowSQLs := []
  cap := max

/-- `merge`: the texts are those of the slowest observation. -/
def SlowSQL.merge [Add C] (slow other : SlowSQL C) : SlowSQL C :=
  let slow := { slow with
    count := slow.count + other.count
    totalMicros := slow.totalMicros + other.totalMicros
    minMicros := if other.minMicros < slow.minMicros then other.minMicros else slow.minMicros }
  if other.maxMicros > slow.maxMicros then
    { slow with
      maxMicros := other.maxMicros
      query := other.query
      metricName := other.metricName
      params := other.params
      txnName := other.txnName
      txnURL := other.txnURL }
  else slow

namespace SlowSQLs

def empty (slows : SlowSQLs C) : Bool := decide (0 = slows.slowSQLs.length)

/-- The loop of `fastest`: the first statement with the least maximum. -/
def fastestLoop : List (SlowSQL C) → Nat → Nat → UInt64 → Nat
  | [], _, minIdx, _ => minIdx
  | s :: rest, idx, minIdx, minOfMax =>
      if s.maxMicros < minOfMax then fastestLoop rest (idx + 1) idx s.maxMicros
      else fastestLoop rest (idx + 1) minIdx minOfMax

/-- `fastest`. -/
def fastest (slows : SlowSQLs C) : Option Nat :=
  match slows.slowSQLs with
  | [] => none
  | s :: rest => some (fastestLoop rest 1 0 s.maxMicros)

/-- `find`, and `merge` into what was found. -/
def mergeExisting [Add C] (slow : SlowSQL C) : List (SlowSQL C) → Option (List (SlowSQL C))
  | [] => none
  | s :: rest =>
      if s.id = slow.id then some (s.merge slow :: rest)
      else (mergeExisting slow rest).map (s :: ·)

/-- In a full collection a slower statement takes the place of the fastest. -/
def replaceAt (slows : SlowSQLs C) (slow : SlowSQL C) (minIdx : Nat) : SlowSQLs C :=
  match slows.slowSQLs[minIdx]? with
  | none => slows
  | some fast =>
      if fast.maxMicros < slow.maxMicros then
        { slows with slowSQLs := slows.slowSQLs.set minIdx slow }
      else slows

/-- `Observe`. -/
def observe [Add C] (slows : SlowSQLs C) (slow : SlowSQL C) : SlowSQLs C :=
  match mergeExisting slow slows.slowSQLs with
  | some merged => { slows with slowSQLs := merged }
  | none =>
      if slows.slowSQLs.length = slows.cap then
        match slows.fastest with
        | none => slows
        | some minIdx => slows.replaceAt slow minIdx
      else { slows with slowSQLs := slows.slowSQLs ++ [slow] }

/-- The observations that the statements of a collection stand for. -/
def contents (slows : SlowSQLs (Multiset ι)) : Multiset ι := (slows.slowSQLs.map SlowSQL.count).sum

theorem count_merge [Add C] (slow other : SlowSQL C) :
    (slow.merge other).count = slow.count + other.count := by
  rw [SlowSQL.merge, apply_ite SlowSQL.count]
  exact ite_self _

theorem sum_mergeExisting {slow : SlowSQL (Multiset ι)} {l merged : List (SlowSQL (Multiset ι))}
    (h : mergeExisting slow l = some merged) :
    (merged.map SlowSQL.count).sum = (l.map SlowSQL.count).sum + slow.count := by
  induction l generalizing merged with
  | nil => cases h
  | cons s rest ih =>
      rw [mergeExisting] at h
      split at h
      · cases h
        rw [List.map_cons, List.sum_cons, count_merge, List.map_cons, List.sum_cons]
        exact add_right_comm _ _ _
      · obtain ⟨merged', hmerged', rfl⟩ := Option.map_eq_some_iff.mp h
        rw [List.map_cons, List.sum_cons, ih hmerged', List.map_cons, List.sum_cons, add_assoc]

theorem sum_set_le (l : List (SlowSQL (Multiset ι))) (i : Nat) (slow : SlowSQL (Multiset ι)) :
    ((l.set i slow).map SlowSQL.count).sum ≤ (l.map SlowSQL.count).sum + slow.count := by
  induction l generalizing i with
  | nil => exact Multiset.zero_le _
  | cons s rest ih =>
      cases i with
      | zero =>
          rw [List.set_cons_zero, List.map_cons, List.sum_cons, List.map_cons, List.sum_cons,
            add_comm, add_assoc]
          exact Multiset.le_add_left _ _
      | succ i =>
          rw [List.set_cons_succ, List.map_cons, List.sum_cons, List.map_cons, List.sum_cons,
            add_assoc]
          exact add_le_add_right (ih i) _

theorem contents_replaceAt (slows : SlowSQLs (Multiset ι)) (slow : SlowSQL (Multiset ι))
    (minIdx : Nat) : (slows.replaceAt slow minIdx).contents ≤ slows.contents + slow.count := by
  rw [replaceAt]
  split
  · exact Multiset.le_add_right _ _
  · split
    · exact sum_set_le slows.slowSQLs _ slow
    · exact Multiset.le_add_right _ _

theorem contents_observe (slows : SlowSQLs (Multiset ι)) (slow : SlowSQL (Multiset ι)) :
    (slows.observe slow).contents ≤ slows.contents + slow.count := by
  rw [observe]
  split
  · next merged hmerged => exact (sum_mergeExisting hmerged).le
  · split
    · split
      · exact Multiset.le_add_right _ _
      · exact contents_replaceAt slows slow _
    · rw [contents, List.map_append, List.sum_append]
      show _ + (slow.count + 0) ≤ _
      rw [add_zero]
      exact le_rfl

end SlowSQLs

end AxiomDaemon.Daemon

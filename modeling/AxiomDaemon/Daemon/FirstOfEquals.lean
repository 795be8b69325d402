import AxiomDaemon.Daemon.Collections
import AxiomDaemon.Lib.Double
import AxiomDaemon.Lib.HeapTies

/-!
Which of several equal errors and transaction traces the daemon keeps (`errors.go`,
`txn_traces.go`).

Both heaps are meant to keep those that came first. The errors and the traces carry the
number of their arrival here, in what the heaps do not read. The durations of the traces are
those of `Double`, whose order is defined; `toTraceHeap_addTxnTrace` says that the operation
is the one of `TxnTraceHeap`.
-/

namespace AxiomDaemon.Daemon

open AxiomDaemon.Lib

variable {ι : Type}

/-! ### Errors -/

/-- The error heap, and the errors that it was offered, the last one first. -/
structure OfferedErrors (ι : Type) where
  heap : ErrorHeap (ℕ × ι)
  offered : List (TracedError (ℕ × ι))

namespace OfferedErrors

def start (max : ℕ) : OfferedErrors ι where
  heap := newErrorHeap max
  offered := []

/-- An error, given by its priority and its data, is offered to the heap. -/
def offer (run : OfferedErrors ι) (error : ℤ × ι) : OfferedErrors ι :=
  let e : TracedError (ℕ × ι) :=
    { priority := error.1, data := (run.offered.length, error.2) }
  { heap := run.heap.addError e, offered := e :: run.offered }

/-- The higher the priority the better, and of equals the one that arrived before. -/
def standing (e : TracedError (ℕ × ι)) : ℤ ×ₗ ℕᵒᵈ :=
  toLex (e.priority, OrderDual.toDual e.data.1)

/-- Of the errors that were offered, the heap holds as many as it has places for, and those
that come first: no error that is left out stands above one that is held. -/
def KeepsFirst (max : ℕ) (run : OfferedErrors ι) : Prop :=
  Greatest standing max (run.offered : Multiset (TracedError (ℕ × ι))) run.heap.errors

/-- If the heap is full and its first error gives way, that one is the last to have arrived
of those with its priority. -/
def LetsGoLast (run : OfferedErrors ι) (error : ℤ × ι) : Prop :=
  run.heap.errors.length = run.heap.cap → ∀ root ∈ run.heap.errors.head?,
    root.priority < error.1 →
      ∀ e ∈ run.heap.errors, e.priority = root.priority → e.data.1 ≤ root.data.1

instance (run : OfferedErrors ι) (error : ℤ × ι) : Decidable (run.LetsGoLast error) :=
  inferInstanceAs (Decidable (_ → ∀ root ∈ run.heap.errors.head?, _ → ∀ e ∈ _, _ → _))

/-- How `AddError` admits errors. -/
def admission : Admission (TracedError (ℕ × ι)) (ℤ × ι) ℤ where
  rank := TracedError.priority
  arrival e := e.data.1
  less := TracedError.less
  refuses root e := e.priority ≤ root.priority
  stamp n error := { priority := error.1, data := (n, error.2) }
  less_iff _ _ := decide_eq_true_iff
  rank_le_of_refuses _ _ h := of_decide_eq_true h
  rank_le_of_admits _ _ h := (not_le.mp (of_decide_eq_false h)).le
  arrival_stamp _ _ := rfl

def queue (run : OfferedErrors ι) : Queue (TracedError (ℕ × ι)) where
  held := run.heap.errors
  offered := run.offered

theorem cap_addError (h : ErrorHeap (ℕ × ι)) (e : TracedError (ℕ × ι)) :
    (h.addError e).cap = h.cap := by
  unfold ErrorHeap.addError
  split
  · split
    · rfl
    · split
      · rfl
      · rfl
  · rfl

theorem errors_addError (h : ErrorHeap (ℕ × ι)) (e : TracedError (ℕ × ι)) :
    (h.addError e).errors = admission.takeIn h.cap h.errors e := by
  unfold ErrorHeap.addError Admission.takeIn
  split
  · cases h.errors.head? with
    | none => rfl
    | some root =>
        simp only [admission, decide_eq_true_eq]
        split
        · rfl
        · rfl
  · rfl

theorem queue_offer {max : ℕ} {run : OfferedErrors ι} (error : ℤ × ι)
    (hcap : run.heap.cap = max) :
    (run.offer error).queue = admission.offer max run.queue error := by
  rw [← hcap]
  simp only [queue, offer, Admission.offer, errors_addError]
  rfl

theorem throughout_cap (max : ℕ) (errors : List (ℤ × ι)) :
    Throughout offer (fun run => run.heap.cap = max) (start max) errors :=
  throughout_of_along (fun run _ h _ => (cap_addError run.heap _).trans h) rfl
    (along_true _ errors)

/-- An error is refused by one that has its priority, so it is the arrival alone that
decides. -/
theorem letsGoLast_iff {max : ℕ} {run : OfferedErrors ι} (error : ℤ × ι)
    (hcap : run.heap.cap = max) :
    admission.LetsGoLast max run.queue error ↔ run.LetsGoLast error := by
  unfold Admission.LetsGoLast LetsGoLast
  rw [hcap]
  refine imp_congr_right fun _ => forall₂_congr fun root _ => ?_
  simp only [admission, queue, decide_eq_false_iff_not, not_le]
  constructor
  · exact fun h hlt => (h hlt).2
  · exact fun h hlt => ⟨hlt.ne, h hlt⟩

theorem throughout_keepsFirst_iff {max : ℕ} (hmax : 0 < max) (errors : List (ℤ × ι)) :
    Throughout offer (KeepsFirst max) (start max) errors ↔
      Along offer LetsGoLast (start max) errors := by
  have hcap := throughout_cap max errors
  have hkeeps : Throughout offer (fun run => admission.KeepsFirst max run.queue) (start max)
      errors ↔ Throughout (admission.offer max) (admission.KeepsFirst max)
        (start max : OfferedErrors ι).queue errors :=
    throughout_map (fun _ error h => queue_offer error h) hcap
  have hlast : Along offer LetsGoLast (start max) errors ↔
      Along (admission.offer max) (admission.LetsGoLast max)
        (start max : OfferedErrors ι).queue errors := by
    rw [← along_map (fun _ error h => queue_offer error h) hcap]
    exact along_iff_along hcap fun _ error h => (letsGoLast_iff error h).symm
  rw [hlast]
  exact hkeeps.trans (admission.throughout_keepsFirst_iff hmax errors)

end OfferedErrors

/-! ### Traces -/

/-- `TxnTraceHeap`, where `ε` is the type of the traces. -/
structure TraceHeap (ε : Type) where
  traces : List ε
  cap : ℕ

/-- `AddTxnTrace`, where `shorter` compares the durations. -/
def TraceHeap.addTrace {ε : Type} (shorter : ε → ε → Bool) (h : TraceHeap ε) (t : ε) :
    TraceHeap ε :=
  if h.traces.length < h.cap then { h with traces := heapPush shorter h.traces t }
  else
    match h.traces.head? with
    | none => h
    | some root =>
        if shorter t root then h
        else { h with traces := heapPush shorter (heapPop shorter h.traces) t }

/-- The same heap. -/
def TxnTraceHeap.toTraceHeap (h : TxnTraceHeap ι) : TraceHeap (TxnTrace ι) where
  traces := h.traces
  cap := h.cap

theorem toTraceHeap_addTxnTrace (h : TxnTraceHeap ι) (t : TxnTrace ι) :
    (h.addTxnTrace t).toTraceHeap = h.toTraceHeap.addTrace TxnTrace.less t := by
  have hroom : h.toTraceHeap.traces.length < h.toTraceHeap.cap ↔ h.traces.length < h.cap := Iff.rfl
  have hhead : h.toTraceHeap.traces.head? = h.traces.head? := rfl
  unfold TxnTraceHeap.addTxnTrace TraceHeap.addTrace
  rw [if_congr hroom rfl rfl, hhead]
  split
  · rfl
  · cases h.traces.head? with
    | none => rfl
    | some root =>
        simp only [TxnTrace.less, decide_eq_true_eq]
        split
        · rfl
        · rfl

/-- A duration: one that is not a number has no place among the others. -/
abbrev TraceDuration := { d : Double // d.isNaN = false }

/-- A trace, as far as the heap reads it. -/
structure TimedTrace (ι : Type) where
  durationMillis : TraceDuration
  data : ι

def TimedTrace.less (x y : TimedTrace ι) : Bool := x.durationMillis.1.lt y.durationMillis.1

/-- The trace heap, and the traces that it was offered, the last one first. -/
structure OfferedTraces (ι : Type) where
  heap : TraceHeap (TimedTrace (ℕ × ι))
  offered : List (TimedTrace (ℕ × ι))

namespace OfferedTraces

def start (max : ℕ) : OfferedTraces ι where
  heap := { traces := [], cap := max }
  offered := []

/-- A trace, given by its duration and its data, is offered to the heap. -/
def offer (run : OfferedTraces ι) (trace : TraceDuration × ι) : OfferedTraces ι :=
  let t : TimedTrace (ℕ × ι) :=
    { durationMillis := trace.1, data := (run.offered.length, trace.2) }
  { heap := run.heap.addTrace TimedTrace.less t, offered := t :: run.offered }

/-- The longer the duration the better, and of equals the one that arrived before. -/
def standing (t : TimedTrace (ℕ × ι)) : WithBot (WithTop ℤ) ×ₗ ℕᵒᵈ :=
  toLex (t.durationMillis.1.rank, OrderDual.toDual t.data.1)

/-- Of the traces that were offered, the heap holds as many as it has places for, and those
that come first: no trace that is left out stands above one that is held. -/
def KeepsFirst (max : ℕ) (run : OfferedTraces ι) : Prop :=
  Greatest standing max (run.offered : Multiset (TimedTrace (ℕ × ι))) run.heap.traces

/-- If the heap is full and its first trace gives way, that one is shorter than the other,
and the last to have arrived of those with its duration. -/
def LetsGoLast (run : OfferedTraces ι) (trace : TraceDuration × ι) : Prop :=
  run.heap.traces.length = run.heap.cap → ∀ root ∈ run.heap.traces.head?,
    trace.1.1.lt root.durationMillis.1 = false →
      root.durationMillis.1.rank ≠ trace.1.1.rank ∧
        ∀ t ∈ run.heap.traces, t.durationMillis.1.rank = root.durationMillis.1.rank →
          t.data.1 ≤ root.data.1

instance (run : OfferedTraces ι) (trace : TraceDuration × ι) : Decidable (run.LetsGoLast trace) :=
  inferInstanceAs (Decidable (_ → ∀ root ∈ run.heap.traces.head?, _ → _ ∧ ∀ t ∈ _, _ → _))

/-- How `AddTxnTrace` admits traces. -/
def admission : Admission (TimedTrace (ℕ × ι)) (TraceDuration × ι) (WithBot (WithTop ℤ)) where
  rank t := t.durationMillis.1.rank
  arrival t := t.data.1
  less := TimedTrace.less
  refuses root t := TimedTrace.less t root
  stamp n trace := { durationMillis := trace.1, data := (n, trace.2) }
  less_iff x y := Double.lt_iff x.durationMillis.2 y.durationMillis.2
  rank_le_of_refuses root t h := ((Double.lt_iff t.durationMillis.2 root.durationMillis.2).mp h).le
  rank_le_of_admits root t h := not_lt.mp fun hlt => Bool.false_ne_true
    (h.symm.trans ((Double.lt_iff t.durationMillis.2 root.durationMillis.2).mpr hlt))
  arrival_stamp _ _ := rfl

def queue (run : OfferedTraces ι) : Queue (TimedTrace (ℕ × ι)) where
  held := run.heap.traces
  offered := run.offered

/-- The heap has room for all it holds. -/
structure Bounded (max : ℕ) (run : OfferedTraces ι) : Prop where
  cap_eq : run.heap.cap = max
  length_le : run.heap.traces.length ≤ max

theorem bounded_offer {max : ℕ} {run : OfferedTraces ι} (h : run.Bounded max)
    (trace : TraceDuration × ι) : (run.offer trace).Bounded max := by
  have hcap := h.cap_eq
  have hle := h.length_le
  unfold offer TraceHeap.addTrace
  dsimp only
  split
  · next hroom =>
      refine ⟨hcap, ?_⟩
      rw [length_heapPush]
      omega
  · cases hroot : run.heap.traces.head? with
    | none => exact ⟨hcap, hle⟩
    | some root =>
        have hpos : 0 < run.heap.traces.length :=
          List.length_pos_of_mem (List.mem_of_mem_head? hroot)
        dsimp only
        split
        · exact ⟨hcap, hle⟩
        · refine ⟨hcap, ?_⟩
          rw [length_heapPush, length_heapPop]
          omega

theorem throughout_bounded (max : ℕ) (traces : List (TraceDuration × ι)) :
    Throughout offer (Bounded max) (start max) traces :=
  throughout_of_along (fun _ trace h _ => bounded_offer h trace) ⟨rfl, Nat.zero_le max⟩
    (along_true _ traces)

theorem traces_addTrace {h : TraceHeap (TimedTrace (ℕ × ι))} (hle : h.traces.length ≤ h.cap)
    (t : TimedTrace (ℕ × ι)) :
    (h.addTrace TimedTrace.less t).traces = admission.takeIn h.cap h.traces t := by
  unfold TraceHeap.addTrace Admission.takeIn
  by_cases hroom : h.traces.length < h.cap
  · rw [if_pos hroom, if_neg hroom.ne]
    rfl
  · rw [if_neg hroom, if_pos (by omega)]
    cases h.traces.head? with
    | none => rfl
    | some root => exact apply_ite TraceHeap.traces _ _ _

theorem queue_offer {max : ℕ} {run : OfferedTraces ι} (trace : TraceDuration × ι)
    (h : run.Bounded max) : (run.offer trace).queue = admission.offer max run.queue trace := by
  have hle : run.heap.traces.length ≤ run.heap.cap := h.cap_eq.symm ▸ h.length_le
  rw [← h.cap_eq]
  simp only [queue, offer, Admission.offer, traces_addTrace hle]
  rfl

theorem letsGoLast_iff {max : ℕ} {run : OfferedTraces ι} (trace : TraceDuration × ι)
    (h : run.Bounded max) : admission.LetsGoLast max run.queue trace ↔ run.LetsGoLast trace := by
  unfold Admission.LetsGoLast LetsGoLast
  rw [h.cap_eq]
  rfl

theorem throughout_keepsFirst_iff {max : ℕ} (hmax : 0 < max) (traces : List (TraceDuration × ι)) :
    Throughout offer (KeepsFirst max) (start max) traces ↔
      Along offer LetsGoLast (start max) traces := by
  have hbounded := throughout_bounded max traces
  have hkeeps : Throughout offer (fun run => admission.KeepsFirst max run.queue) (start max)
      traces ↔ Throughout (admission.offer max) (admission.KeepsFirst max)
        (start max : OfferedTraces ι).queue traces :=
    throughout_map (fun _ trace h => queue_offer trace h) hbounded
  have hlast : Along offer LetsGoLast (start max) traces ↔
      Along (admission.offer max) (admission.LetsGoLast max)
        (start max : OfferedTraces ι).queue traces := by
    rw [← along_map (fun _ trace h => queue_offer trace h) hbounded]
    exact along_iff_along hbounded fun _ trace h => (letsGoLast_iff trace h).symm
  rw [hlast]
  exact hkeeps.trans (admission.throughout_keepsFirst_iff hmax traces)

end OfferedTraces

/-! ### Both heaps -/

/-- The heaps of the daemon hold the first of equals, after all that they were offered and
at any time before, exactly if what gives way is always the last one of its equals; for a
trace, exactly if it also is no equal of the one that it makes room for. -/
theorem heaps_keep_first_iff {max : ℕ} (hmax : 0 < max) (errors : List (ℤ × ι))
    (traces : List (TraceDuration × ι)) :
    (Throughout OfferedErrors.offer (OfferedErrors.KeepsFirst max) (.start max) errors ↔
        Along OfferedErrors.offer OfferedErrors.LetsGoLast (.start max) errors) ∧
      (Throughout OfferedTraces.offer (OfferedTraces.KeepsFirst max) (.start max) traces ↔
        Along OfferedTraces.offer OfferedTraces.LetsGoLast (.start max) traces) :=
  ⟨OfferedErrors.throughout_keepsFirst_iff hmax errors,
    OfferedTraces.throughout_keepsFirst_iff hmax traces⟩

/-- A duration of `n` milliseconds. -/
def durationOf (n : ℕ) (h : n < 2 ^ 53) : TraceDuration :=
  ⟨.finite ⟨false, n, 1074, h, by decide⟩, rfl⟩

/-- Two errors have the same priority and a third one a higher; of two places the first
error's is taken. Two traces are equally long; of one place the first trace's is taken. -/
theorem heaps_evict_first :
    ((runFrom OfferedErrors.offer (.start 2) [(1, ()), (1, ()), (2, ())]).heap.errors.map
        fun e => (e.priority, e.data.1)) = [(1, 1), (2, 2)] ∧
      ¬Throughout OfferedErrors.offer (OfferedErrors.KeepsFirst 2) (.start 2)
        [(1, ()), (1, ()), (2, ())] ∧
      ((runFrom OfferedTraces.offer (.start 1)
        [(durationOf 5 (by decide), ()), (durationOf 5 (by decide), ())]).heap.traces.map
          fun t => t.data.1) = [1] ∧
      ¬Throughout OfferedTraces.offer (OfferedTraces.KeepsFirst 1) (.start 1)
        [(durationOf 5 (by decide), ()), (durationOf 5 (by decide), ())] := by
  refine ⟨rfl, ?_, by decide +kernel, ?_⟩
  · rw [OfferedErrors.throughout_keepsFirst_iff Nat.two_pos]
    decide
  · rw [OfferedTraces.throughout_keepsFirst_iff Nat.one_pos]
    decide +kernel

theorem heaps_keep_first_rising :
    Throughout OfferedErrors.offer (OfferedErrors.KeepsFirst 2) (.start 2)
        [(1, ()), (2, ()), (3, ()), (2, ()), (3, ())] ∧
      Throughout OfferedTraces.offer (OfferedTraces.KeepsFirst 2) (.start 2)
        [(durationOf 4 (by decide), ()), (durationOf 5 (by decide), ()),
          (durationOf 7 (by decide), ()), (durationOf 3 (by decide), ())] := by
  obtain ⟨herrors, htraces⟩ := heaps_keep_first_iff Nat.two_pos
    [(1, ()), (2, ()), (3, ()), (2, ()), (3, ())]
    [(durationOf 4 (by decide), ()), (durationOf 5 (by decide), ()),
      (durationOf 7 (by decide), ()), (durationOf 3 (by decide), ())]
  exact ⟨herrors.mpr (by decide), htraces.mpr (by decide +kernel)⟩

end AxiomDaemon.Daemon

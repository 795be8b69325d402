import Mathlib.Tactic.Abel
import Mathlib.Tactic.GCongr
import AxiomDaemon.Daemon.App
import AxiomDaemon.Daemon.Harvest
import AxiomDaemon.Lib.Transition

/-!
Delivery of an application's data to the collector: transactions are
aggregated into the live harvest, triggers turn collections of it into
payloads, a payload is accepted, or its delivery fails and it is merged back.

A datum is counted wherever it is: in the live harvest, in a payload under
way, among what the collector accepted. The invariant says that these together
are no more than what was recorded. All steps keep it but one: a trigger for
the default data sends the span events and keeps them, so that they are
counted twice from then on.
-/

namespace AxiomDaemon.Daemon

open AxiomDaemon.Lib

variable {ι : Type}

inductive DatumKind
  | txnEvent
  | customEvent
  | errorEvent
  | spanEvent
  | error
  | trace
  | slowSQL
deriving DecidableEq, Repr

/-- A datum: what kind it is, and its JSON. -/
abbrev Datum (ι : Type) := DatumKind × ι

def ofKind (k : DatumKind) (s : Multiset ι) : Multiset (Datum ι) := s.map (Prod.mk k)

@[simp] theorem ofKind_zero (k : DatumKind) : ofKind k (0 : Multiset ι) = 0 := rfl

@[simp] theorem ofKind_add (k : DatumKind) (s t : Multiset ι) :
    ofKind k (s + t) = ofKind k s + ofKind k t := Multiset.map_add _ s t

@[gcongr] theorem ofKind_le (k : DatumKind) {s t : Multiset ι} (h : s ≤ t) :
    ofKind k s ≤ ofKind k t := Multiset.map_le_map h

/-! ### Where the data is -/

/-- The data of a transaction. The count of a slow SQL statement is the
multiset of its observations. -/
def FlatTxn.data (t : FlatTxn ι (Multiset ι)) : Multiset (Datum ι) :=
  ofKind .txnEvent ↑t.txnEvent.toList + ofKind .customEvent ↑t.customEvents +
    ofKind .errorEvent ↑t.errorEvents + ofKind .error ↑(t.errors.map TracedError.data) +
    ofKind .trace ↑(t.trace.toList.map FlatTrace.data) +
    ofKind .slowSQL (t.slowSQLs.map SlowSQL.count).sum + ofKind .spanEvent ↑t.spanEvents

/-- The data of a harvest, without its span events. -/
def Harvest.data (h : Harvest ι (Multiset ι)) : Multiset (Datum ι) :=
  ofKind .txnEvent h.txnEvents.contents + ofKind .customEvent h.customEvents.contents +
    ofKind .errorEvent h.errorEvents.contents + ofKind .error h.errors.contents +
    ofKind .trace h.txnTraces.contents + ofKind .slowSQL h.slowSQLs.contents

def SpanStore.data (store : SpanStore ι) (r : SpanRef) : Multiset (Datum ι) :=
  ofKind .spanEvent (store.reservoir r).contents

def Payload.data (store : SpanStore ι) : Payload ι (Multiset ι) → Multiset (Datum ι)
  | .metrics _ => 0
  | .customEvents evs => ofKind .customEvent evs.contents
  | .errorEvents evs => ofKind .errorEvent evs.contents
  | .errors h => ofKind .error h.contents
  | .slowSQLs slows => ofKind .slowSQL slows.contents
  | .txnTraces traces => ofKind .trace traces.contents
  | .txnEvents evs => ofKind .txnEvent evs.contents
  | .spanEvents r => store.data r

def payloadsData (store : SpanStore ι) (ps : List (Payload ι (Multiset ι))) :
    Multiset (Datum ι) := (ps.map (Payload.data store)).sum

/-- All data of an application that may still be delivered. -/
def AppData.data (d : AppData ι (Multiset ι)) : Multiset (Datum ι) :=
  d.harvest.data + d.spans.data d.harvest.spanEvents + payloadsData d.spans d.inflight

/-! ### Runs -/

/-- The data of one application and the collector's view of it: what was
recorded, and what was accepted. `registered` is whether the run id is still
known to the processor. -/
structure Delivery (ι : Type) where
  app : AppData ι (Multiset ι)
  registered : Bool
  recorded : Multiset (Datum ι)
  accepted : Multiset (Datum ι)

/-- What happens to an application: a transaction arrives, a trigger fires,
the `i`-th payload under way is accepted, or its delivery fails. -/
inductive DeliveryEvent (ι : Type)
  | txn (t : FlatTxn ι (Multiset ι))
  | trigger (ht : HarvestType) (now : Int) (order : MapOrder)
  | delivered (i : Nat)
  | failed (i : Nat) (err : CollectorError) (order : MapOrder)

namespace Delivery

/-- `processHarvestError` for the payload `p`. -/
def processHarvestError (s : Delivery ι) (p : Payload ι (Multiset ι)) (err : CollectorError)
    (order : MapOrder) : Delivery ι :=
  if !s.registered then s
  else if err.isDisconnect || err.isLicenseException || err.isRestartException then
    { s with registered := false }
  else if decide (err = .payloadTooLarge) || decide (err = .unsupportedMedia) then s
  else { s with app := s.app.failedHarvest order p }

/-- The payload `i` is no longer under way. -/
def finish (s : Delivery ι) (i : Nat) : Delivery ι :=
  { s with app := { s.app with inflight := s.app.inflight.eraseIdx i } }

def step (cfg : HarvestConfig) (s : Delivery ι) : DeliveryEvent ι → Delivery ι
  | .txn t =>
      if !s.registered then s
      else { s with app := s.app.aggregate t, recorded := s.recorded + t.data }
  | .trigger ht now order => { s with app := s.app.harvestByType cfg now order ht }
  | .delivered i =>
      match s.app.inflight[i]? with
      | none => s
      | some p => { s.finish i with accepted := s.accepted + p.data s.app.spans }
  | .failed i err order =>
      match s.app.inflight[i]? with
      | none => s
      | some p => (s.finish i).processHarvestError p err order

/-- The application has just been connected. -/
def initial (cfg : HarvestConfig) (now : Int) : Delivery ι where
  app :=
    { harvest := newHarvest now cfg.eventConfigs 0
      spans := ⟨fun _ => newAnalyticsEvents cfg.eventConfigs.spanEventLimit, 1⟩
      inflight := [] }
  registered := true
  recorded := 0
  accepted := 0

/-- Every datum was accepted at most as often as it was recorded: one that was
recorded once is in at most one accepted payload. -/
def AtMostOnce (s : Delivery ι) : Prop := s.accepted ≤ s.recorded

instance [DecidableEq ι] (s : Delivery ι) : Decidable s.AtMostOnce :=
  inferInstanceAs (Decidable (s.accepted ≤ s.recorded))

/-- The condition on the state before a trigger: when it is for the default
data and not for all data, there are no span events. -/
def NoSpansAtDefault (s : Delivery ι) : DeliveryEvent ι → Prop
  | .trigger ht _ _ =>
      ht.has harvestDefaultData = true → ht.has harvestAllTypes = false →
        (s.app.spans.reservoir s.app.harvest.spanEvents).empty = true
  | _ => True

instance (s : Delivery ι) : ∀ e, Decidable (s.NoSpansAtDefault e)
  | .trigger ht _ _ => inferInstanceAs (Decidable (ht.has harvestDefaultData = true →
      ht.has harvestAllTypes = false →
        (s.app.spans.reservoir s.app.harvest.spanEvents).empty = true))
  | .txn _ => inferInstanceAs (Decidable True)
  | .delivered _ => inferInstanceAs (Decidable True)
  | .failed _ _ _ => inferInstanceAs (Decidable True)

end Delivery

/-! ### Empty collections -/

theorem AnalyticsEvents.contents_of_empty {evs : AnalyticsEvents ι} (h : evs.empty = true) :
    evs.contents = 0 := by
  rw [AnalyticsEvents.empty, decide_eq_true_iff] at h
  rw [AnalyticsEvents.contents, List.length_eq_zero_iff.mp h.symm]
  rfl

theorem ErrorHeap.contents_of_empty {h : ErrorHeap ι} (hempty : h.empty = true) :
    h.contents = 0 := by
  rw [ErrorHeap.empty, decide_eq_true_iff] at hempty
  rw [ErrorHeap.contents, List.length_eq_zero_iff.mp hempty.symm]
  rfl

theorem TxnTraceHeap.contents_of_isEmpty {h : TxnTraceHeap ι} (hempty : h.isEmpty = true) :
    h.contents = 0 := by
  rw [TxnTraceHeap.isEmpty, decide_eq_true_iff] at hempty
  rw [TxnTraceHeap.contents, List.length_eq_zero_iff.mp hempty.symm]
  rfl

theorem TxnTraces.contents_of_empty {traces : TxnTraces ι} (h : traces.empty = true) :
    traces.contents = 0 := by
  rw [TxnTraces.empty, Bool.and_eq_true, Bool.and_eq_true] at h
  obtain ⟨⟨hsynthetics, hforce⟩, hregular⟩ := h
  rw [TxnTraces.contents, TxnTraceHeap.contents_of_isEmpty hsynthetics,
    TxnTraceHeap.contents_of_isEmpty hforce, TxnTraceHeap.contents_of_isEmpty hregular]
  rfl

theorem SlowSQLs.contents_of_empty {slows : SlowSQLs (Multiset ι)} (h : slows.empty = true) :
    slows.contents = 0 := by
  rw [SlowSQLs.empty, decide_eq_true_iff] at h
  rw [SlowSQLs.contents, List.length_eq_zero_iff.mp h.symm]
  rfl

theorem Payload.data_of_empty {store : SpanStore ι} {p : Payload ι (Multiset ι)}
    (h : p.empty store = true) : p.data store = 0 := by
  cases p with
  | metrics mt => rfl
  | customEvents evs => rw [data, AnalyticsEvents.contents_of_empty h, ofKind_zero]
  | errorEvents evs => rw [data, AnalyticsEvents.contents_of_empty h, ofKind_zero]
  | errors heap => rw [data, ErrorHeap.contents_of_empty h, ofKind_zero]
  | slowSQLs slows => rw [data, SlowSQLs.contents_of_empty h, ofKind_zero]
  | txnTraces traces => rw [data, TxnTraces.contents_of_empty h, ofKind_zero]
  | txnEvents evs => rw [data, AnalyticsEvents.contents_of_empty h, ofKind_zero]
  | spanEvents r => rw [data, SpanStore.data, AnalyticsEvents.contents_of_empty h, ofKind_zero]

/-! ### Payloads -/

section Payloads

variable (store : SpanStore ι)

@[simp] theorem payloadsData_nil : payloadsData store [] = 0 := rfl

@[simp] theorem payloadsData_append (ps qs : List (Payload ι (Multiset ι))) :
    payloadsData store (ps ++ qs) = payloadsData store ps + payloadsData store qs := by
  rw [payloadsData, List.map_append, List.sum_append]
  rfl

@[simp] theorem payloadsData_considerHarvestPayload (p : Payload ι (Multiset ι)) :
    payloadsData store (considerHarvestPayload store p) = p.data store := by
  rw [considerHarvestPayload]
  split
  · next h => exact (Payload.data_of_empty h).symm
  · exact add_zero _

@[simp] theorem payloadsData_considerHarvestPayloadTxnEvents (cfg : HarvestConfig)
    (evs : AnalyticsEvents ι) :
    payloadsData store (considerHarvestPayloadTxnEvents cfg store evs) =
      ofKind .txnEvent evs.contents := by
  rw [considerHarvestPayloadTxnEvents]
  split
  · rw [payloadsData_append, payloadsData_considerHarvestPayload,
      payloadsData_considerHarvestPayload, ← evs.contents_split, ofKind_add]
    rfl
  · exact payloadsData_considerHarvestPayload store (.txnEvents evs)

theorem payloadsData_harvestAll (cfg : HarvestConfig) (order : MapOrder)
    (h : Harvest ι (Multiset ι)) :
    payloadsData store (harvestAll cfg order store h) = h.data + store.data h.spanEvents := by
  simp only [harvestAll, payloadsData_append, payloadsData_considerHarvestPayload,
    payloadsData_considerHarvestPayloadTxnEvents, Payload.data, Harvest.data]
  abel

theorem payloadsData_eraseIdx {ps : List (Payload ι (Multiset ι))} {i : Nat}
    {p : Payload ι (Multiset ι)} (h : ps[i]? = some p) :
    payloadsData store ps = p.data store + payloadsData store (ps.eraseIdx i) := by
  obtain ⟨hi, rfl⟩ := List.getElem?_eq_some_iff.mp h
  have hperm := (List.getElem_cons_eraseIdx_perm hi).map (Payload.data store)
  rw [payloadsData, ← hperm.sum_eq, List.map_cons, List.sum_cons]
  rfl

end Payloads

/-! ### Transactions -/

theorem contents_addErrors (h : ErrorHeap ι) (es : List (TracedError ι)) :
    (es.foldl ErrorHeap.addError h).contents ≤ h.contents + ↑(es.map TracedError.data) := by
  induction es generalizing h with
  | nil => exact (add_zero h.contents).ge
  | cons e es ih =>
      calc (es.foldl ErrorHeap.addError (h.addError e)).contents
          ≤ (h.addError e).contents + ↑(es.map TracedError.data) := ih (h.addError e)
        _ ≤ e.data ::ₘ h.contents + ↑(es.map TracedError.data) :=
            add_le_add_left (h.contents_addError e) _
        _ = h.contents + ↑((e :: es).map TracedError.data) := by
            rw [List.map_cons, ← Multiset.cons_coe, Multiset.cons_add, Multiset.add_cons]

namespace FlatTxn

variable (t : FlatTxn ι (Multiset ι))

theorem contents_aggregateTxnEvent (evs : AnalyticsEvents ι) :
    (t.aggregateTxnEvent evs).contents ≤ evs.contents + ↑t.txnEvent.toList := by
  rw [aggregateTxnEvent]
  cases t.txnEvent with
  | none => exact (add_zero evs.contents).ge
  | some data =>
      have hadd : ∀ priority : Float,
          (evs.addEvent ⟨priority, data⟩).contents ≤ evs.contents + {data} := by
        intro priority
        rw [add_comm, Multiset.singleton_add]
        exact evs.contents_addEvent ⟨priority, data⟩
      show (if t.syntheticsResourceID = "" then _ else _ : AnalyticsEvents ι).contents ≤ _
      split
      · exact hadd _
      · exact hadd _

theorem contents_aggregateSlowSQLs (slows : SlowSQLs (Multiset ι)) :
    (t.aggregateSlowSQLs slows).contents ≤ slows.contents + (t.slowSQLs.map SlowSQL.count).sum := by
  rw [aggregateSlowSQLs]
  induction t.slowSQLs generalizing slows with
  | nil => exact (add_zero slows.contents).ge
  | cons slow rest ih =>
      rw [List.foldl_cons, List.map_cons, List.sum_cons, ← add_assoc]
      exact (ih _).trans (add_le_add_left (slows.contents_observe _) _)

theorem contents_aggregateTrace (traces : TxnTraces ι) :
    (t.aggregateTrace traces).contents ≤
      traces.contents + ↑(t.trace.toList.map FlatTrace.data) := by
  rw [aggregateTrace]
  cases t.trace with
  | none => exact (add_zero traces.contents).ge
  | some trace =>
      show (if traces.isKeeper (t.txnTrace trace) then _ else _ : TxnTraces ι).contents ≤
        traces.contents + {trace.data}
      split
      · rw [add_comm, Multiset.singleton_add]
        exact traces.contents_addTxnTrace (t.txnTrace trace)
      · exact Multiset.le_add_right _ _

theorem contents_addEvents_events (evs : AnalyticsEvents ι) (data : List ι) :
    (evs.addEvents (t.events data)).contents ≤ evs.contents + ↑data := by
  have hadd := evs.contents_addEvents (t.events data)
  rwa [events, List.map_map, show AnalyticsEvent.data ∘ (fun d => (⟨t.samplingPriority, d⟩ :
    AnalyticsEvent ι)) = id from rfl, List.map_id] at hadd

theorem data_aggregateInto (h : Harvest ι (Multiset ι)) :
    (t.aggregateInto h).data + ofKind .spanEvent ↑t.spanEvents ≤ h.data + t.data := by
  have htxn := t.contents_aggregateTxnEvent h.txnEvents
  have hcustom := t.contents_addEvents_events h.customEvents t.customEvents
  have herrorEvents := t.contents_addEvents_events h.errorEvents t.errorEvents
  have herrors := contents_addErrors h.errors t.errors
  have htrace := t.contents_aggregateTrace h.txnTraces
  have hslow := t.contents_aggregateSlowSQLs h.slowSQLs
  calc (t.aggregateInto h).data + ofKind .spanEvent ↑t.spanEvents
      ≤ ofKind .txnEvent (h.txnEvents.contents + ↑t.txnEvent.toList) +
          ofKind .customEvent (h.customEvents.contents + ↑t.customEvents) +
          ofKind .errorEvent (h.errorEvents.contents + ↑t.errorEvents) +
          ofKind .error (h.errors.contents + ↑(t.errors.map TracedError.data)) +
          ofKind .trace (h.txnTraces.contents + ↑(t.trace.toList.map FlatTrace.data)) +
          ofKind .slowSQL (h.slowSQLs.contents + (t.slowSQLs.map SlowSQL.count).sum) +
          ofKind .spanEvent ↑t.spanEvents := by
        simp only [Harvest.data, aggregateInto]
        gcongr
    _ = h.data + t.data := by
        simp only [ofKind_add, Harvest.data, FlatTxn.data]
        abel

end FlatTxn

/-! ### Who refers to a reservoir of span events -/

/-- The reservoirs that payloads refer to. -/
def spanRefs (ps : List (Payload ι (Multiset ι))) : List SpanRef :=
  ps.filterMap fun
    | .spanEvents r => some r
    | _ => none

/-- Nobody shares a reservoir of span events. -/
structure Owned (d : AppData ι (Multiset ι)) : Prop where
  distinct : (d.harvest.spanEvents :: spanRefs d.inflight).Nodup
  allocated : ∀ r ∈ d.harvest.spanEvents :: spanRefs d.inflight, r < d.spans.next

theorem spanRefs_append (ps qs : List (Payload ι (Multiset ι))) :
    spanRefs (ps ++ qs) = spanRefs ps ++ spanRefs qs := List.filterMap_append

theorem spanRefs_considerHarvestPayload {store : SpanStore ι} {p : Payload ι (Multiset ι)}
    (h : spanRefs [p] = []) : spanRefs (considerHarvestPayload store p) = [] := by
  rw [considerHarvestPayload]
  split
  · rfl
  · exact h

theorem spanRefs_considerHarvestPayloadTxnEvents (cfg : HarvestConfig) (store : SpanStore ι)
    (evs : AnalyticsEvents ι) : spanRefs (considerHarvestPayloadTxnEvents cfg store evs) = [] := by
  rw [considerHarvestPayloadTxnEvents]
  split
  · rw [spanRefs_append, spanRefs_considerHarvestPayload rfl, spanRefs_considerHarvestPayload rfl]
    rfl
  · exact spanRefs_considerHarvestPayload rfl

theorem spanRefs_considerSpanEvents (store : SpanStore ι) (r : SpanRef) :
    (spanRefs (considerHarvestPayload store (.spanEvents r))).Sublist [r] := by
  rw [considerHarvestPayload]
  split
  · exact List.nil_sublist [r]
  · exact List.Sublist.refl [r]

theorem spanRefs_harvestAll (cfg : HarvestConfig) (order : MapOrder) (store : SpanStore ι)
    (h : Harvest ι (Multiset ι)) :
    (spanRefs (harvestAll cfg order store h)).Sublist [h.spanEvents] := by
  simp only [harvestAll, spanRefs_append, spanRefs_considerHarvestPayloadTxnEvents,
    spanRefs_considerHarvestPayload (p := .metrics _) rfl,
    spanRefs_considerHarvestPayload (p := .customEvents _) rfl,
    spanRefs_considerHarvestPayload (p := .errorEvents _) rfl,
    spanRefs_considerHarvestPayload (p := .errors _) rfl,
    spanRefs_considerHarvestPayload (p := .slowSQLs _) rfl,
    spanRefs_considerHarvestPayload (p := .txnTraces _) rfl, List.nil_append]
  exact spanRefs_considerSpanEvents store h.spanEvents

theorem payloadsData_congr {store store' : SpanStore ι} {ps : List (Payload ι (Multiset ι))}
    (h : ∀ r ∈ spanRefs ps, store'.reservoir r = store.reservoir r) :
    payloadsData store' ps = payloadsData store ps := by
  rw [payloadsData, payloadsData]
  congr 1
  apply List.map_congr_left
  intro p hp
  cases p with
  | spanEvents r =>
      have hr : r ∈ spanRefs ps := List.mem_filterMap.mpr ⟨_, hp, rfl⟩
      rw [Payload.data, Payload.data, SpanStore.data, SpanStore.data, h r hr]
  | metrics mt => rfl
  | customEvents evs => rfl
  | errorEvents evs => rfl
  | errors heap => rfl
  | slowSQLs slows => rfl
  | txnTraces traces => rfl
  | txnEvents evs => rfl

/-! ### Harvesting keeps the data -/

theorem Owned.send {d : AppData ι (Multiset ι)} (h : Owned d) {ps : List (Payload ι (Multiset ι))}
    (hps : spanRefs ps = []) : Owned (d.send ps) := by
  have hrefs : spanRefs (d.inflight ++ ps) = spanRefs d.inflight := by
    rw [spanRefs_append, hps, List.append_nil]
  constructor
  · show (d.harvest.spanEvents :: spanRefs (d.inflight ++ ps)).Nodup
    rw [hrefs]
    exact h.distinct
  · show ∀ r ∈ d.harvest.spanEvents :: spanRefs (d.inflight ++ ps), r < d.spans.next
    rw [hrefs]
    exact h.allocated

theorem Owned.withHarvest {d : AppData ι (Multiset ι)} (h : Owned d)
    {harvest : Harvest ι (Multiset ι)} (hspan : harvest.spanEvents = d.harvest.spanEvents) :
    Owned { d with harvest := harvest } := by
  constructor
  · show (harvest.spanEvents :: spanRefs d.inflight).Nodup
    rw [hspan]
    exact h.distinct
  · show ∀ r ∈ harvest.spanEvents :: spanRefs d.inflight, r < d.spans.next
    rw [hspan]
    exact h.allocated

theorem SpanStore.alloc_reservoir_of_lt (store : SpanStore ι) (max : Nat) {r : SpanRef}
    (h : r < store.next) : (store.alloc max).reservoir r = store.reservoir r := by
  show Function.update store.reservoir store.next _ r = store.reservoir r
  rw [Function.update_of_ne (Nat.ne_of_lt h)]

theorem SpanStore.data_alloc_next (store : SpanStore ι) (max : Nat) :
    (store.alloc max).data store.next = 0 := by
  show ofKind .spanEvent (Function.update store.reservoir store.next _ store.next).contents = 0
  rw [Function.update_self]
  rfl

/-- The live harvest gets a new reservoir, and payloads are sent that refer to
no other than its old one. -/
theorem Owned.alloc {d : AppData ι (Multiset ι)} (h : Owned d) (max : Nat)
    (harvest : Harvest ι (Multiset ι)) (hspan : harvest.spanEvents = d.spans.next)
    {ps : List (Payload ι (Multiset ι))} (hps : (spanRefs ps).Sublist [d.harvest.spanEvents]) :
    Owned ⟨harvest, d.spans.alloc max, d.inflight ++ ps⟩ ∧
      AppData.data ⟨harvest, d.spans.alloc max, d.inflight ++ ps⟩ =
        harvest.data + payloadsData d.spans d.inflight + payloadsData d.spans ps := by
  -- The references of the payloads are among the old ones.
  have hsub : (spanRefs (d.inflight ++ ps)).Sublist
      (spanRefs d.inflight ++ [d.harvest.spanEvents]) := by
    rw [spanRefs_append]
    exact List.Sublist.append_left hps _
  have hperm : (spanRefs d.inflight ++ [d.harvest.spanEvents]).Perm
      (d.harvest.spanEvents :: spanRefs d.inflight) := List.perm_append_singleton _ _
  have hlt : ∀ r ∈ spanRefs (d.inflight ++ ps), r < d.spans.next := by
    intro r hr
    exact h.allocated r (hperm.mem_iff.mp (hsub.subset hr))
  have hdata : payloadsData (d.spans.alloc max) (d.inflight ++ ps) =
      payloadsData d.spans (d.inflight ++ ps) :=
    payloadsData_congr fun r hr => d.spans.alloc_reservoir_of_lt max (hlt r hr)
  refine ⟨⟨?_, ?_⟩, ?_⟩
  · show (harvest.spanEvents :: spanRefs (d.inflight ++ ps)).Nodup
    rw [hspan, List.nodup_cons]
    exact ⟨fun hmem => Nat.lt_irrefl _ (hlt _ hmem), (hperm.nodup_iff.mpr h.distinct).sublist hsub⟩
  · intro r hr
    show r < d.spans.next + 1
    rcases List.mem_cons.mp hr with rfl | hr
    · rw [hspan]
      exact Nat.lt_succ_self _
    · exact Nat.lt_succ_of_lt (hlt r hr)
  · show harvest.data + (d.spans.alloc max).data harvest.spanEvents +
      payloadsData (d.spans.alloc max) (d.inflight ++ ps) = _
    rw [hspan, SpanStore.data_alloc_next, hdata, payloadsData_append, add_zero, add_assoc]

theorem data_newHarvest (now : Int) (hl : EventConfigs) (r : SpanRef) :
    (newHarvest now hl r : Harvest ι (Multiset ι)).data = 0 := rfl

section Blocks

variable {d : AppData ι (Multiset ι)} (cfg : HarvestConfig)

theorem harvestEverything_spec (h : Owned d) (now : Int) (order : MapOrder) :
    Owned (d.harvestEverything cfg now order) ∧
      (d.harvestEverything cfg now order).data = d.data := by
  obtain ⟨howned, hdata⟩ := h.alloc cfg.eventConfigs.spanEventLimit
    (newHarvest now cfg.eventConfigs d.spans.next) rfl
    (spanRefs_harvestAll cfg order d.spans d.harvest)
  refine ⟨howned, hdata.trans ?_⟩
  rw [payloadsData_harvestAll, data_newHarvest, AppData.data]
  abel

theorem harvestSpans_spec (h : Owned d) :
    Owned (d.harvestSpans cfg) ∧ (d.harvestSpans cfg).data = d.data := by
  obtain ⟨howned, hdata⟩ := h.alloc cfg.eventConfigs.spanEventLimit
    { d.harvest with spanEvents := d.spans.next } rfl
    (spanRefs_considerSpanEvents d.spans d.harvest.spanEvents)
  refine ⟨howned, hdata.trans ?_⟩
  rw [payloadsData_considerHarvestPayload, AppData.data]
  show d.harvest.data + _ + d.spans.data d.harvest.spanEvents = _
  abel

/-- Collections of the live harvest, but not its span events, become
payloads. -/
theorem Owned.replace (h : Owned d) {harvest : Harvest ι (Multiset ι)}
    (hspan : harvest.spanEvents = d.harvest.spanEvents) {ps : List (Payload ι (Multiset ι))}
    (hps : spanRefs ps = []) (hdata : harvest.data + payloadsData d.spans ps = d.harvest.data) :
    Owned (AppData.send { d with harvest := harvest } ps) ∧
      (AppData.send { d with harvest := harvest } ps).data = d.data := by
  refine ⟨(h.withHarvest hspan).send hps, ?_⟩
  show harvest.data + d.spans.data harvest.spanEvents + payloadsData d.spans (d.inflight ++ ps) = _
  rw [hspan, payloadsData_append, AppData.data, ← hdata]
  abel

theorem harvestCustom_spec (h : Owned d) :
    Owned (d.harvestCustom cfg) ∧ (d.harvestCustom cfg).data = d.data := by
  rw [AppData.harvestCustom]
  apply h.replace
  · rfl
  · exact spanRefs_considerHarvestPayload rfl
  · rw [payloadsData_considerHarvestPayload]
    show ofKind .txnEvent _ + 0 + ofKind .errorEvent _ + ofKind .error _ + ofKind .trace _ +
      ofKind .slowSQL _ + ofKind .customEvent _ = _
    rw [Harvest.data]
    abel

theorem harvestErrorEvts_spec (h : Owned d) :
    Owned (d.harvestErrorEvts cfg) ∧ (d.harvestErrorEvts cfg).data = d.data := by
  rw [AppData.harvestErrorEvts]
  apply h.replace
  · rfl
  · exact spanRefs_considerHarvestPayload rfl
  · rw [payloadsData_considerHarvestPayload]
    show ofKind .txnEvent _ + ofKind .customEvent _ + 0 + ofKind .error _ + ofKind .trace _ +
      ofKind .slowSQL _ + ofKind .errorEvent _ = _
    rw [Harvest.data]
    abel

theorem harvestTxn_spec (h : Owned d) :
    Owned (d.harvestTxn cfg) ∧ (d.harvestTxn cfg).data = d.data := by
  rw [AppData.harvestTxn]
  apply h.replace
  · rfl
  · exact spanRefs_considerHarvestPayloadTxnEvents cfg _ _
  · rw [payloadsData_considerHarvestPayloadTxnEvents]
    show 0 + ofKind .customEvent _ + ofKind .errorEvent _ + ofKind .error _ + ofKind .trace _ +
      ofKind .slowSQL _ + ofKind .txnEvent _ = _
    rw [Harvest.data]
    abel

/-- The default data is harvested while there are no span events. -/
theorem harvestDefault_spec (h : Owned d) (now : Int) (order : MapOrder)
    (hempty : (d.spans.reservoir d.harvest.spanEvents).empty = true) :
    Owned (d.harvestDefault cfg now order) ∧ (d.harvestDefault cfg now order).data = d.data := by
  have hspans : considerHarvestPayload d.spans (.spanEvents d.harvest.spanEvents) =
      ([] : List (Payload ι (Multiset ι))) := by
    rw [considerHarvestPayload]
    exact if_pos hempty
  rw [AppData.harvestDefault, hspans, List.append_nil]
  apply h.replace
  · rfl
  · simp only [spanRefs_append, spanRefs_considerHarvestPayload (p := .metrics _) rfl,
      spanRefs_considerHarvestPayload (p := .errors _) rfl,
      spanRefs_considerHarvestPayload (p := .slowSQLs _) rfl,
      spanRefs_considerHarvestPayload (p := .txnTraces _) rfl, List.append_nil]
  · simp only [payloadsData_append, payloadsData_considerHarvestPayload, Payload.data]
    show ofKind .txnEvent _ + ofKind .customEvent _ + ofKind .errorEvent _ + 0 + 0 + 0 +
      (0 + ofKind .error _ + ofKind .slowSQL _ + ofKind .trace _) = _
    rw [Harvest.data]
    abel

/-- A block of `harvestByType` that is run under a condition. -/
theorem block_spec {f : AppData ι (Multiset ι) → AppData ι (Multiset ι)} {c : Bool}
    {d₀ : AppData ι (Multiset ι)} (h : Owned d ∧ d.data = d₀.data)
    (hf : c = true → Owned d → Owned (f d) ∧ (f d).data = d.data) :
    Owned (if c then f d else d) ∧ (if c then f d else d).data = d₀.data := by
  split
  · next hc =>
      obtain ⟨howned, hdata⟩ := hf hc h.1
      exact ⟨howned, hdata.trans h.2⟩
  · exact h

theorem harvestByType_spec (h : Owned d) (now : Int) (order : MapOrder) (ht : HarvestType)
    (hguard : ht.has harvestDefaultData = true → ht.has harvestAllTypes = false →
      (d.spans.reservoir d.harvest.spanEvents).empty = true) :
    Owned (d.harvestByType cfg now order ht) ∧
      (d.harvestByType cfg now order ht).data = d.data := by
  rw [AppData.harvestByType]
  split
  · exact harvestEverything_spec cfg h now order
  · next hall =>
      rw [Bool.not_eq_true] at hall
      apply block_spec (f := AppData.harvestSpans cfg)
      · apply block_spec (f := AppData.harvestTxn cfg)
        · apply block_spec (f := AppData.harvestErrorEvts cfg)
          · apply block_spec (f := AppData.harvestCustom cfg)
            · apply block_spec (f := AppData.harvestDefault cfg now order) ⟨h, rfl⟩
              exact fun hdefault h => harvestDefault_spec cfg h now order (hguard hdefault hall)
            · exact fun _ h => harvestCustom_spec cfg h
          · exact fun _ h => harvestErrorEvts_spec cfg h
        · exact fun _ h => harvestTxn_spec cfg h
      · exact fun _ h => harvestSpans_spec cfg h

end Blocks

/-! ### Failed deliveries -/

theorem filterMap_getElem?_range {α : Type*} (l : List α) :
    (List.range l.length).filterMap (fun i => l[i]?) = l := by
  induction l with
  | nil => rfl
  | cons a l ih =>
      rw [List.length_cons, List.range_succ_eq_map, List.filterMap_cons, List.filterMap_map]
      exact congrArg (a :: ·) ih

namespace SpanStore

theorem modify_reservoir_self (store : SpanStore ι) (r : SpanRef)
    (f : AnalyticsEvents ι → AnalyticsEvents ι) :
    (store.modify r f).reservoir r = f (store.reservoir r) := by
  show Function.update store.reservoir r _ r = _
  rw [Function.update_self]

theorem modify_reservoir_of_ne (store : SpanStore ι) {r r' : SpanRef} (h : r' ≠ r)
    (f : AnalyticsEvents ι → AnalyticsEvents ι) :
    (store.modify r f).reservoir r' = store.reservoir r' := by
  show Function.update store.reservoir r _ r' = _
  rw [Function.update_of_ne h]

/-- Between two different reservoirs the loop adds events that do not
change. -/
theorem mergeLoop_spec {dst src : SpanRef} (h : src ≠ dst) (is : List Nat) (store : SpanStore ι) :
    (∀ r, r ≠ dst → (mergeLoop dst src is store).reservoir r = store.reservoir r) ∧
      (mergeLoop dst src is store).next = store.next ∧
      (mergeLoop dst src is store).reservoir dst = (store.reservoir dst).addEvents
        (is.filterMap fun i => (store.reservoir src).events[i]?) := by
  induction is generalizing store with
  | nil => exact ⟨fun _ _ => rfl, rfl, rfl⟩
  | cons i is ih =>
      rw [mergeLoop]
      cases he : (store.reservoir src).events[i]? with
      | none =>
          rw [List.filterMap_cons_none he]
          exact ih store
      | some e =>
          obtain ⟨hothers, hnext, hdst⟩ := ih (store.modify dst fun evs => evs.addEvent e)
          refine ⟨?_, hnext, ?_⟩
          · intro r hr
            rw [hothers r hr, modify_reservoir_of_ne store hr]
          · rw [hdst, modify_reservoir_self, modify_reservoir_of_ne store h,
              List.filterMap_cons_some he]
            rfl

theorem merge_spec {dst src : SpanRef} (h : src ≠ dst) (store : SpanStore ι) :
    (∀ r, r ≠ dst → (store.merge dst src).reservoir r = store.reservoir r) ∧
      (store.merge dst src).next = store.next ∧
      ((store.merge dst src).reservoir dst).contents ≤
        (store.reservoir dst).contents + (store.reservoir src).contents := by
  obtain ⟨hothers, hnext, hdst⟩ := mergeLoop_spec h
    (List.range (store.reservoir src).events.length) store
  refine ⟨?_, hnext, ?_⟩
  · intro r hr
    rw [merge, modify_reservoir_of_ne _ hr]
    exact hothers r hr
  · rw [merge, modify_reservoir_self, hdst, filterMap_getElem?_range]
    exact (store.reservoir dst).contents_addEvents _

theorem mergeFailed_spec {dst src : SpanRef} (h : src ≠ dst) (store : SpanStore ι) :
    (∀ r, r ≠ dst → (store.mergeFailed dst src).reservoir r = store.reservoir r) ∧
      (store.mergeFailed dst src).next = store.next ∧
      ((store.mergeFailed dst src).reservoir dst).contents ≤
        (store.reservoir dst).contents + (store.reservoir src).contents := by
  rw [mergeFailed]
  split
  · exact ⟨fun _ _ => rfl, rfl, Multiset.le_add_right _ _⟩
  · obtain ⟨hothers, hnext, hle⟩ := merge_spec h (store.modify dst fun evs =>
      { evs with failedHarvests := (store.reservoir src).failedHarvests + 1 })
    refine ⟨?_, hnext, ?_⟩
    · intro r hr
      rw [hothers r hr, modify_reservoir_of_ne store hr]
    · rw [modify_reservoir_self, modify_reservoir_of_ne store h] at hle
      exact hle

end SpanStore

theorem Owned.withSpans {d : AppData ι (Multiset ι)} (h : Owned d) {spans : SpanStore ι}
    (hnext : spans.next = d.spans.next) : Owned { d with spans := spans } := by
  refine ⟨h.distinct, ?_⟩
  show ∀ r ∈ d.harvest.spanEvents :: spanRefs d.inflight, r < spans.next
  rw [hnext]
  exact h.allocated

/-- When only the live reservoir changes, the payloads are as they were. -/
theorem Owned.payloadsData_eq {d : AppData ι (Multiset ι)} (h : Owned d) {spans : SpanStore ι}
    (hothers : ∀ r, r ≠ d.harvest.spanEvents → spans.reservoir r = d.spans.reservoir r) :
    payloadsData spans d.inflight = payloadsData d.spans d.inflight := by
  apply payloadsData_congr
  intro r hr
  apply hothers
  rintro rfl
  exact (List.nodup_cons.mp h.distinct).1 hr

theorem Harvest.data_customEvents (h : Harvest ι (Multiset ι)) {evs : AnalyticsEvents ι} {x : Multiset ι}
    (hle : evs.contents ≤ h.customEvents.contents + x) :
    Harvest.data { h with customEvents := evs } ≤ h.data + ofKind .customEvent x := by
  calc _ ≤ ofKind .txnEvent h.txnEvents.contents + ofKind .customEvent (h.customEvents.contents + x) +
          ofKind .errorEvent h.errorEvents.contents + ofKind .error h.errors.contents +
          ofKind .trace h.txnTraces.contents + ofKind .slowSQL h.slowSQLs.contents := by
        rw [Harvest.data]
        gcongr
    _ = _ := by
        rw [Harvest.data, ofKind_add]
        abel

theorem Harvest.data_errorEvents (h : Harvest ι (Multiset ι)) {evs : AnalyticsEvents ι} {x : Multiset ι}
    (hle : evs.contents ≤ h.errorEvents.contents + x) :
    Harvest.data { h with errorEvents := evs } ≤ h.data + ofKind .errorEvent x := by
  calc _ ≤ ofKind .txnEvent h.txnEvents.contents + ofKind .customEvent h.customEvents.contents +
          ofKind .errorEvent (h.errorEvents.contents + x) + ofKind .error h.errors.contents +
          ofKind .trace h.txnTraces.contents + ofKind .slowSQL h.slowSQLs.contents := by
        rw [Harvest.data]
        gcongr
    _ = _ := by
        rw [Harvest.data, ofKind_add]
        abel

theorem Harvest.data_txnEvents (h : Harvest ι (Multiset ι)) {evs : AnalyticsEvents ι} {x : Multiset ι}
    (hle : evs.contents ≤ h.txnEvents.contents + x) :
    Harvest.data { h with txnEvents := evs } ≤ h.data + ofKind .txnEvent x := by
  calc _ ≤ ofKind .txnEvent (h.txnEvents.contents + x) + ofKind .customEvent h.customEvents.contents +
          ofKind .errorEvent h.errorEvents.contents + ofKind .error h.errors.contents +
          ofKind .trace h.txnTraces.contents + ofKind .slowSQL h.slowSQLs.contents := by
        rw [Harvest.data]
        gcongr
    _ = _ := by
        rw [Harvest.data, ofKind_add]
        abel

/-- A payload that is merged back brings in no more than its data. -/
theorem failedHarvest_spec {d : AppData ι (Multiset ι)} (h : Owned d) (order : MapOrder)
    {p : Payload ι (Multiset ι)} (hp : d.harvest.spanEvents ∉ spanRefs [p]) :
    Owned (d.failedHarvest order p) ∧
      (d.failedHarvest order p).data ≤ d.data + p.data d.spans := by
  -- A collection of the harvest that is held by value.
  have hvalue : ∀ harvest : Harvest ι (Multiset ι), harvest.spanEvents = d.harvest.spanEvents →
      harvest.data ≤ d.harvest.data + p.data d.spans →
      Owned { d with harvest := harvest } ∧
        AppData.data { d with harvest := harvest } ≤ d.data + p.data d.spans := by
    intro harvest hspan hle
    refine ⟨h.withHarvest hspan, ?_⟩
    show harvest.data + d.spans.data harvest.spanEvents + payloadsData d.spans d.inflight ≤ _
    rw [hspan, AppData.data, add_right_comm _ _ (p.data d.spans),
      add_right_comm _ _ (p.data d.spans)]
    gcongr
  have hnone : Owned d ∧ d.data ≤ d.data + p.data d.spans := ⟨h, Multiset.le_add_right _ _⟩
  cases p with
  | metrics mt =>
      exact hvalue { d.harvest with metrics := d.harvest.metrics.mergeFailed mt order } rfl
        (Multiset.le_add_right _ _)
  | customEvents evs =>
      exact hvalue { d.harvest with customEvents := d.harvest.customEvents.mergeFailed evs } rfl
        (d.harvest.data_customEvents (d.harvest.customEvents.contents_mergeFailed evs))
  | errorEvents evs =>
      exact hvalue { d.harvest with errorEvents := d.harvest.errorEvents.mergeFailed evs } rfl
        (d.harvest.data_errorEvents (d.harvest.errorEvents.contents_mergeFailed evs))
  | txnEvents evs =>
      exact hvalue { d.harvest with txnEvents := d.harvest.txnEvents.mergeFailed evs } rfl
        (d.harvest.data_txnEvents (d.harvest.txnEvents.contents_mergeFailed evs))
  | spanEvents r =>
      have hne : r ≠ d.harvest.spanEvents := fun heq => hp (heq ▸ List.mem_singleton_self r)
      obtain ⟨hothers, hnext, hle⟩ := d.spans.mergeFailed_spec hne
      refine ⟨h.withSpans hnext, ?_⟩
      have hmerge := ofKind_le .spanEvent hle
      rw [ofKind_add] at hmerge
      show d.harvest.data +
        ofKind .spanEvent ((d.spans.mergeFailed d.harvest.spanEvents r).reservoir
          d.harvest.spanEvents).contents +
        payloadsData (d.spans.mergeFailed d.harvest.spanEvents r) d.inflight ≤ _
      rw [h.payloadsData_eq hothers]
      calc _ ≤ d.harvest.data + (d.spans.data d.harvest.spanEvents + d.spans.data r) +
              payloadsData d.spans d.inflight := by
            gcongr
            exact hmerge
        _ = _ := by
            rw [AppData.data, Payload.data]
            abel
  | errors heap => exact hnone
  | slowSQLs slows => exact hnone
  | txnTraces traces => exact hnone

theorem aggregate_spec {d : AppData ι (Multiset ι)} (h : Owned d) (t : FlatTxn ι (Multiset ι)) :
    Owned (d.aggregate t) ∧ (d.aggregate t).data ≤ d.data + t.data := by
  have hothers : ∀ r, r ≠ d.harvest.spanEvents → (d.aggregate t).spans.reservoir r =
      d.spans.reservoir r := fun r hr => d.spans.modify_reservoir_of_ne hr fun evs =>
        evs.addEvents (t.events t.spanEvents)
  have hself : (d.aggregate t).spans.reservoir d.harvest.spanEvents =
      (d.spans.reservoir d.harvest.spanEvents).addEvents (t.events t.spanEvents) :=
    d.spans.modify_reservoir_self d.harvest.spanEvents fun evs =>
      evs.addEvents (t.events t.spanEvents)
  have hspans := ofKind_le .spanEvent (t.contents_addEvents_events
    (d.spans.reservoir d.harvest.spanEvents) t.spanEvents)
  rw [ofKind_add] at hspans
  refine ⟨⟨h.distinct, h.allocated⟩, ?_⟩
  show (t.aggregateInto d.harvest).data +
    ofKind .spanEvent ((d.aggregate t).spans.reservoir d.harvest.spanEvents).contents +
    payloadsData (d.aggregate t).spans d.inflight ≤ _
  rw [h.payloadsData_eq hothers, hself]
  calc _ ≤ (t.aggregateInto d.harvest).data +
          (ofKind .spanEvent (d.spans.reservoir d.harvest.spanEvents).contents +
            ofKind .spanEvent ↑t.spanEvents) + payloadsData d.spans d.inflight := by gcongr
    _ = ((t.aggregateInto d.harvest).data + ofKind .spanEvent ↑t.spanEvents) +
          (d.spans.data d.harvest.spanEvents + payloadsData d.spans d.inflight) := by
        rw [SpanStore.data]
        abel
    _ ≤ (d.harvest.data + t.data) +
          (d.spans.data d.harvest.spanEvents + payloadsData d.spans d.inflight) := by
        exact add_le_add_left (t.data_aggregateInto d.harvest) _
    _ = d.data + t.data := by
        rw [AppData.data]
        abel

/-! ### The invariant -/

namespace Delivery

/-- Nobody shares span events, and what is accepted, under way or live is no
more than what was recorded. -/
structure Inv (s : Delivery ι) : Prop where
  owned : Owned s.app
  bound : s.accepted + s.app.data ≤ s.recorded

theorem Inv.atMostOnce {s : Delivery ι} (h : Inv s) : s.AtMostOnce :=
  (Multiset.le_add_right _ _).trans h.bound

theorem inv_initial (cfg : HarvestConfig) (now : Int) : Inv (initial cfg now : Delivery ι) := by
  refine ⟨⟨List.nodup_singleton _, ?_⟩, le_of_eq rfl⟩
  intro r hr
  rw [List.mem_singleton.mp hr]
  exact Nat.zero_lt_one

/-- A payload that is no longer under way is in nobody's hands. -/
theorem finish_spec {s : Delivery ι} (h : Owned s.app) {i : Nat} {p : Payload ι (Multiset ι)}
    (hp : s.app.inflight[i]? = some p) :
    Owned (s.finish i).app ∧ s.app.data = (s.finish i).app.data + p.data s.app.spans ∧
      s.app.harvest.spanEvents ∉ spanRefs [p] := by
  have hmem : p ∈ s.app.inflight := List.mem_of_getElem? hp
  have hsub : (spanRefs (s.app.inflight.eraseIdx i)).Sublist (spanRefs s.app.inflight) :=
    (List.eraseIdx_sublist s.app.inflight i).filterMap _
  refine ⟨⟨h.distinct.sublist (hsub.cons_cons _), ?_⟩, ?_, ?_⟩
  · intro r hr
    exact h.allocated r ((hsub.cons_cons _).subset hr)
  · show _ = s.app.harvest.data + s.app.spans.data s.app.harvest.spanEvents +
      payloadsData s.app.spans (s.app.inflight.eraseIdx i) + p.data s.app.spans
    rw [AppData.data, payloadsData_eraseIdx s.app.spans hp]
    abel
  · intro hshared
    apply (List.nodup_cons.mp h.distinct).1
    exact ((List.singleton_sublist.mpr hmem).filterMap _).subset hshared

theorem inv_step {cfg : HarvestConfig} {s : Delivery ι} (h : Inv s) {e : DeliveryEvent ι}
    (hguard : s.NoSpansAtDefault e) : Inv (step cfg s e) := by
  obtain ⟨howned, hbound⟩ := h
  cases e with
  | txn t =>
      rw [step]
      split
      · exact ⟨howned, hbound⟩
      · obtain ⟨howned', hdata⟩ := aggregate_spec howned t
        refine ⟨howned', ?_⟩
        calc s.accepted + (s.app.aggregate t).data ≤ s.accepted + (s.app.data + t.data) := by
              gcongr
          _ = s.accepted + s.app.data + t.data := (add_assoc _ _ _).symm
          _ ≤ s.recorded + t.data := by gcongr
  | trigger ht now order =>
      obtain ⟨howned', hdata⟩ := harvestByType_spec cfg howned now order ht hguard
      refine ⟨howned', ?_⟩
      show s.accepted + (s.app.harvestByType cfg now order ht).data ≤ s.recorded
      rw [hdata]
      exact hbound
  | delivered i =>
      rw [step]
      split
      · exact ⟨howned, hbound⟩
      · next p hp =>
          obtain ⟨howned', hdata, _⟩ := finish_spec howned hp
          refine ⟨howned', ?_⟩
          rw [hdata] at hbound
          calc s.accepted + p.data s.app.spans + (s.finish i).app.data
              = s.accepted + ((s.finish i).app.data + p.data s.app.spans) := by abel
            _ ≤ s.recorded := hbound
  | failed i err order =>
      rw [step]
      split
      · exact ⟨howned, hbound⟩
      · next p hp =>
          obtain ⟨howned', hdata, hp'⟩ := finish_spec howned hp
          have hfinish : Inv (s.finish i) := by
            refine ⟨howned', ?_⟩
            rw [hdata] at hbound
            exact (add_le_add_right (Multiset.le_add_right _ _) _).trans hbound
          rw [processHarvestError]
          split
          · exact hfinish
          · split
            · exact ⟨hfinish.owned, hfinish.bound⟩
            · split
              · exact hfinish
              · obtain ⟨howned'', hle⟩ := failedHarvest_spec howned' order hp'
                refine ⟨howned'', ?_⟩
                rw [hdata] at hbound
                exact (add_le_add_right hle _).trans hbound

/-- Along every run whose triggers for the default data find no span events,
no datum is accepted more often than it was recorded, in every state
reached. -/
theorem delivered_at_most_once (cfg : HarvestConfig) (now : Int) (es : List (DeliveryEvent ι))
    (h : Along (step cfg) NoSpansAtDefault (initial cfg now) es) :
    Throughout (step cfg) AtMostOnce (initial cfg now) es := by
  have hinv : Throughout (step cfg) Inv (initial cfg now) es :=
    throughout_of_along (fun _ _ hs he => inv_step hs he) (inv_initial cfg now) h
  exact hinv.imp fun _ hs => hs.atMostOnce

/-- An application with reporting periods of its own for its events. -/
def customConfig : HarvestConfig where
  reportPeriod := 5
  eventConfigs := ⟨100, 100, 100, 100⟩
  rules := []
  splitLargePayloads := false
  certPoolState := .ignored

/-- A transaction with one span event. -/
def spanTxn : FlatTxn Nat (Multiset Nat) where
  size := 1
  name := "txn"
  uri := "uri"
  samplingPriority := 1
  syntheticsResourceID := ""
  pid := 1
  txnEvent := none
  metrics := []
  errors := []
  slowSQLs := []
  customEvents := []
  spanEvents := [7]
  trace := none
  errorEvents := []

/-- A run in which the span events have been harvested when the default data
is, and in which one delivery fails and is repeated. -/
def spanSentOnce : List (DeliveryEvent Nat) :=
  [.txn spanTxn, .trigger harvestSpanEvents 0 .stored, .failed 0 .other .stored,
    .trigger harvestSpanEvents 0 .stored, .trigger harvestDefaultData 0 .stored, .delivered 0]

theorem delivered_at_most_once_spanSentOnce :
    Along (step customConfig) NoSpansAtDefault (initial customConfig 0) spanSentOnce ∧
      Throughout (step customConfig) AtMostOnce (initial customConfig 0) spanSentOnce := by
  have hguard : Along (step customConfig) NoSpansAtDefault (initial customConfig 0)
      spanSentOnce := by decide
  exact ⟨hguard, delivered_at_most_once customConfig 0 spanSentOnce hguard⟩

/-- The span event is sent with the default data and again with the span
events, and accepted both times. -/
def spanSentTwice : List (DeliveryEvent Nat) :=
  [.txn spanTxn, .trigger harvestDefaultData 0 .stored, .delivered 1,
    .trigger harvestSpanEvents 0 .stored, .delivered 1]

theorem span_accepted_twice :
    ¬ Throughout (step customConfig) AtMostOnce (initial customConfig 0) spanSentTwice := by
  intro h
  have hlast := h.last
  revert hlast
  decide

end Delivery

end AxiomDaemon.Daemon

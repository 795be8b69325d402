import AxiomDaemon.Axiom.SegmentCount
import AxiomDaemon.Lib.Text
import Mathlib.Algebra.BigOperators.Group.Finset.Basic

/-!
Rolling up external segments, with the metrics that segments carry until the
transaction ends, `nr_segment_external.c`. The vector of the metrics of a segment
is made when the first metric is added; a segment without one has `NULL`.

What is recorded at the end is what the segments of the tree carry.
-/

namespace AxiomDaemon.Axiom

open AxiomDaemon.Lib

/-- `nr_segment_metric_t`. -/
structure SegmentMetric where
  name : Bytes
  isScoped : Bool
  deriving DecidableEq

/-- The segments of a transaction and the vectors of their metrics. -/
structure MeteredTxn where
  segments : SegmentTxn
  metrics : ℕ → Option (List SegmentMetric)

/-- An external call that is over. The id and the name of the transaction that was called are
those of the header of the response. -/
structure ExternalCall where
  doRollup : Bool
  domain : Bytes
  response : Option (Bytes × Bytes)

/-- What `snprintf` leaves in a buffer of 1024 bytes. -/
def snprintf1024 (text : Bytes) : Bytes := text.take 1023

/-- The metric whose name is the name of the segment. -/
def ExternalCall.scopedMetric (call : ExternalCall) : SegmentMetric :=
  match call.response with
  | some (externalId, externalTxnname) =>
      { name := snprintf1024 (ascii "ExternalTransaction/" ++ call.domain ++ ascii "/" ++
          externalId ++ ascii "/" ++ externalTxnname)
        isScoped := true }
  | none =>
      { name := snprintf1024 (ascii "External/" ++ call.domain ++ ascii "/all"), isScoped := true }

/-- The metrics of `nr_segment_external_create_metrics`, without the one of the transaction. -/
def ExternalCall.metrics (call : ExternalCall) : List SegmentMetric :=
  match call.response with
  | some (externalId, _) =>
      [{ name := snprintf1024 (ascii "External/" ++ call.domain ++ ascii "/all"), isScoped := false },
        { name := snprintf1024 (ascii "ExternalApp/" ++ call.domain ++ ascii "/" ++ externalId ++
            ascii "/all")
          isScoped := false },
        call.scopedMetric]
  | none => [call.scopedMetric]

namespace MeteredTxn

/-- `nr_segment_add_metric`. -/
def nrSegmentAddMetric (s : MeteredTxn) (segment : ℕ) (metric : SegmentMetric) : MeteredTxn :=
  { s with
    metrics := Function.update s.metrics segment
      (some ((s.metrics segment).getD [] ++ [metric])) }

/-- What a segment carries. -/
def carried (s : MeteredTxn) (segment : ℕ) : List SegmentMetric := (s.metrics segment).getD []

/-- The loop that moves metrics to another vector. What cannot be pushed is lost. -/
def pushAll : List SegmentMetric → Option (List SegmentMetric) → Option (List SegmentMetric)
  | [], rollup => rollup
  | sm :: sms, rollup => pushAll sms (rollup.map (· ++ [sm]))

/-- `nr_segment_external_rollup`. -/
def nrSegmentExternalRollup (s : MeteredTxn) (segment : ℕ) : Bool × MeteredTxn :=
  match (s.segments.segment segment).parent with
  | none => (false, s)
  | some parent =>
      match findRollup s.segments segment (s.segments.segment parent).children none with
      | none => (false, s)
      | some rollup =>
          (true,
            { segments := (Axiom.nrSegmentExternalRollup s.segments segment).2
              metrics :=
                Function.update
                  (Function.update s.metrics segment ((s.metrics segment).map fun _ => []))
                  rollup (pushAll (s.carried segment) (s.metrics rollup)) })

section

-- `nr_string_add`, for the strings of the transaction trace
variable (nrStringAdd : Bytes → ℕ)

/-- `nr_segment_external_end` up to the roll-up. -/
def externalEnded (s : MeteredTxn) (segment : ℕ) (call : ExternalCall) (now : ℕ) : MeteredTxn :=
  let params :=
    { doRollup := call.doRollup, name := nrStringAdd call.scopedMetric.name : ExternalParams }
  call.metrics.foldl (fun s metric => s.nrSegmentAddMetric segment metric)
    { s with segments := Axiom.externalEnded s.segments segment params now }

/-- `nr_segment_external_end`, and whether the segment was rolled up. -/
def nrSegmentExternalEnd (s : MeteredTxn) (segment : ℕ) (call : ExternalCall) (now : ℕ) :
    Bool × MeteredTxn :=
  let s := s.externalEnded nrStringAdd segment call now
  if call.doRollup then s.nrSegmentExternalRollup segment else (false, s)

end

/-! ### What a roll-up is to do -/

open Classical in
/-- How often a metric is recorded when the transaction ends. -/
noncomputable def recorded (s : MeteredTxn) (metric : SegmentMetric) : ℕ :=
  ∑ b ∈ Finset.range s.segments.used with s.segments.Reachable b, (s.carried b).count metric

/-- One segment is gone, and nothing else. -/
structure MergedAway (before after : MeteredTxn) (segment : ℕ) : Prop where
  tree : ∀ b, after.segments.Reachable b ↔ before.segments.Reachable b ∧ b ≠ segment
  times : ∀ b, after.segments.Reachable b →
    (after.segments.segment b).startTime ≤ (before.segments.segment b).startTime ∧
      (before.segments.segment b).stopTime ≤ (after.segments.segment b).stopTime
  count : after.segments.segmentCount = before.segments.segmentCount - 1
  metrics : ∀ metric, after.recorded metric = before.recorded metric

def LosesNothing (before after : MeteredTxn) (segment : ℕ) : Prop :=
  after = before ∨ MergedAway before after segment

/-! ### When it does -/

/-- The siblings of a segment that have a name, and no children. -/
def siblingsNamed (txn : SegmentTxn) (segment name : ℕ) : List ℕ :=
  match (txn.segment segment).parent with
  | none => []
  | some parent =>
      (txn.segment parent).children.filter fun b =>
        b ≠ segment ∧ (txn.segment b).name = name ∧ (txn.segment b).children = []

/-- The last one of those that stop last. -/
def StopsLast (txn : SegmentTxn) (segments : List ℕ) (r : ℕ) : Prop :=
  ∃ before after, segments = before ++ r :: after ∧
    (∀ b ∈ before, (txn.segment b).stopTime ≤ (txn.segment r).stopTime) ∧
    ∀ b ∈ after, (txn.segment b).stopTime < (txn.segment r).stopTime

/-- The time a segment stops at that is ended now. -/
def stopTimeAt (txn : SegmentTxn) (segment now : ℕ) : ℕ :=
  if (txn.segment segment).stopTime = 0 then nrTimeDuration txn.absStartTime now
  else (txn.segment segment).stopTime

/-- There is nothing to roll up into; or the segment has no children, and the sibling that stops
last has a vector of metrics and does not stop later than the segment. -/
def RollupSafe (s : MeteredTxn) (segment name now : ℕ) : Prop :=
  siblingsNamed s.segments segment name = [] ∨
    (s.segments.segment segment).children = [] ∧
      ∃ r, StopsLast s.segments (siblingsNamed s.segments segment name) r ∧
        s.metrics r ≠ none ∧
        (s.segments.segment r).stopTime ≤ stopTimeAt s.segments segment now

/-- The segments in use hang together in a tree. -/
structure SegmentTree (txn : SegmentTxn) : Prop where
  root : (txn.segment txn.segmentRoot).parent = none
  consistent : txn.links.Consistent
  used : ∀ b, txn.Reachable b → b < txn.used

/-! ### Choosing the sibling -/

section Siblings

variable {txn : SegmentTxn}

theorem StopsLast.eq {segments : List ℕ} {r r' : ℕ} (h : StopsLast txn segments r)
    (h' : StopsLast txn segments r') : r = r' := by
  obtain ⟨before, after, rfl, hbefore, hafter⟩ := h
  obtain ⟨before', after', heq, hbefore', hafter'⟩ := h'
  rcases List.append_eq_append_iff.mp heq with ⟨c, hc, hc'⟩ | ⟨c, hc, hc'⟩
  · cases c with
    | nil => exact (List.cons.inj hc').1
    | cons b c =>
        obtain ⟨rfl, rfl⟩ := List.cons.inj hc'
        have hlt := hafter r' (by simp)
        have hle := hbefore' r (by rw [hc]; simp)
        omega
  · cases c with
    | nil => exact (List.cons.inj hc').1.symm
    | cons b c =>
        obtain ⟨rfl, rfl⟩ := List.cons.inj hc'
        have hlt := hafter' r (by simp)
        have hle := hbefore r' (by rw [hc]; simp)
        omega

theorem StopsLast.skip {r₀ b r : ℕ} {segments : List ℕ} (h : StopsLast txn (r₀ :: segments) r)
    (hlt : (txn.segment b).stopTime < (txn.segment r₀).stopTime) :
    StopsLast txn (r₀ :: b :: segments) r := by
  obtain ⟨before, after, heq, hbefore, hafter⟩ := h
  cases before with
  | nil =>
      obtain ⟨rfl, rfl⟩ := List.cons.inj heq
      exact ⟨[], b :: segments, rfl, List.forall_mem_nil _, List.forall_mem_cons.mpr ⟨hlt, hafter⟩⟩
  | cons x before =>
      obtain ⟨rfl, rfl⟩ := List.cons.inj heq
      obtain ⟨hr₀, hbefore⟩ := List.forall_mem_cons.mp hbefore
      refine ⟨r₀ :: b :: before, after, rfl, ?_, hafter⟩
      exact List.forall_mem_cons.mpr ⟨hr₀, List.forall_mem_cons.mpr ⟨(hlt.le).trans hr₀, hbefore⟩⟩

/-- One that does not stop later than the next one does not count. -/
theorem StopsLast.cons {r₀ b r : ℕ} {segments : List ℕ} (h : StopsLast txn (b :: segments) r)
    (hle : (txn.segment r₀).stopTime ≤ (txn.segment b).stopTime) :
    StopsLast txn (r₀ :: b :: segments) r := by
  obtain ⟨before, after, heq, hbefore, hafter⟩ := h
  have hb : (txn.segment b).stopTime ≤ (txn.segment r).stopTime := by
    cases before with
    | nil => exact Nat.le_of_eq (congrArg (fun b => (txn.segment b).stopTime) (List.cons.inj heq).1)
    | cons x before =>
        rw [(List.cons.inj heq).1]
        exact hbefore x List.mem_cons_self
  exact ⟨r₀ :: before, after, by rw [heq, List.cons_append],
    List.forall_mem_cons.mpr ⟨hle.trans hb, hbefore⟩, hafter⟩

/-- The siblings that the loop does not skip because of what they are. -/
def eligible (txn : SegmentTxn) (segment : ℕ) (siblings : List ℕ) : List ℕ :=
  siblings.filter fun b =>
    b ≠ segment ∧ (txn.segment b).name = (txn.segment segment).name ∧ (txn.segment b).children = []

theorem stopsLast_findRollup (segment : ℕ) (siblings : List ℕ) (rollup : Option ℕ) :
    match findRollup txn segment siblings rollup with
    | none => rollup.toList ++ eligible txn segment siblings = []
    | some r => StopsLast txn (rollup.toList ++ eligible txn segment siblings) r := by
  induction siblings generalizing rollup with
  | nil =>
      rw [findRollup]
      cases rollup with
      | none => rfl
      | some r => exact ⟨[], [], rfl, List.forall_mem_nil _, List.forall_mem_nil _⟩
  | cons b siblings ih =>
      rw [findRollup]
      have hlength : 0 < (txn.segment b).children.length ↔ (txn.segment b).children ≠ [] :=
        List.length_pos_iff
      by_cases hb : b ≠ segment ∧ (txn.segment b).name = (txn.segment segment).name ∧
        (txn.segment b).children = []
      · have hcons : eligible txn segment (b :: siblings) = b :: eligible txn segment siblings :=
          List.filter_cons_of_pos (decide_eq_true hb)
        rw [hcons]
        cases rollup with
        | none =>
            rw [if_neg (by simp [hb.1, hb.2.1, hb.2.2])]
            exact ih (some b)
        | some r₀ =>
            by_cases hlt : (txn.segment b).stopTime < (txn.segment r₀).stopTime
            · rw [if_pos (.inr (.inr (.inr ⟨r₀, rfl, hlt⟩)))]
              have hrec := ih (some r₀)
              cases hfind : findRollup txn segment siblings (some r₀) with
              | none =>
                  rw [hfind] at hrec
                  cases hrec
              | some r =>
                  rw [hfind] at hrec
                  exact StopsLast.skip hrec hlt
            · have hnot : ¬(b = segment ∨ (txn.segment b).name ≠ (txn.segment segment).name ∨
                  0 < (txn.segment b).children.length ∨
                  ∃ r ∈ some r₀, (txn.segment r).stopTime > (txn.segment b).stopTime) := by
                simp [hb.1, hb.2.1, hb.2.2, Nat.not_lt.mp hlt]
              rw [if_neg hnot]
              have hrec := ih (some b)
              cases hfind : findRollup txn segment siblings (some b) with
              | none =>
                  rw [hfind] at hrec
                  cases hrec
              | some r =>
                  rw [hfind] at hrec
                  exact StopsLast.cons hrec (Nat.not_lt.mp hlt)
      · have hcons : eligible txn segment (b :: siblings) = eligible txn segment siblings :=
          List.filter_cons_of_neg (by simpa using hb)
        have hskip : b = segment ∨ (txn.segment b).name ≠ (txn.segment segment).name ∨
            0 < (txn.segment b).children.length ∨
            ∃ r ∈ rollup, (txn.segment r).stopTime > (txn.segment b).stopTime := by
          rw [hlength]
          tauto
        rw [hcons, if_pos hskip]
        exact ih rollup

end Siblings

/-! ### Ending and merging -/

section Steps

theorem foldl_nrSegmentAddMetric (segment : ℕ) (metrics : List SegmentMetric) (s : MeteredTxn) :
    let s' := metrics.foldl (fun s metric => s.nrSegmentAddMetric segment metric) s
    s'.segments = s.segments ∧ s'.carried segment = s.carried segment ++ metrics ∧
      ∀ b, b ≠ segment → s'.metrics b = s.metrics b := by
  induction metrics generalizing s with
  | nil => exact ⟨rfl, (List.append_nil _).symm, fun _ _ => rfl⟩
  | cons metric metrics ih =>
      obtain ⟨hsegments, hcarried, hothers⟩ := ih (s.nrSegmentAddMetric segment metric)
      have hself : (s.nrSegmentAddMetric segment metric).carried segment =
          s.carried segment ++ [metric] := by
        simp only [carried, nrSegmentAddMetric, Function.update_self, Option.getD_some]
      refine ⟨hsegments, ?_, fun b hb => ?_⟩
      · rw [List.foldl_cons, hcarried, hself, List.append_assoc, List.singleton_append]
      · exact (hothers b hb).trans (Function.update_of_ne hb _ _)

/-- The end of an external segment before the roll-up, as it leaves the segments. -/
theorem externalEnded_segment (txn : SegmentTxn) (segment : ℕ) (params : ExternalParams)
    (now : ℕ) :
    (∀ b, b ≠ segment →
      (Axiom.externalEnded txn segment params now).segment b = txn.segment b) ∧
    ((Axiom.externalEnded txn segment params now).segment segment).name = params.name ∧
    ((Axiom.externalEnded txn segment params now).segment segment).stopTime =
      stopTimeAt txn segment now := by
  set tagged := txn.modify segment fun s => { s with tag := .external } with htagged
  have hself : tagged.segment segment = { txn.segment segment with tag := .external } :=
    txn.modify_segment_self segment _
  refine ⟨fun b hb => ?_, ?_, ?_⟩
  · have hother : tagged.segment b = txn.segment b := txn.modify_segment_of_ne hb _
    rw [Axiom.externalEnded, SegmentTxn.modify_segment_of_ne _ hb, nrSegmentEnd_segment,
      if_neg fun h => hb h.1, hother]
  · simp only [Axiom.externalEnded, SegmentTxn.modify_segment_self]
  · simp only [Axiom.externalEnded, SegmentTxn.modify_segment_self]
    rw [← htagged, nrSegmentEnd_segment, hself, stopTimeAt]
    simp only [true_and]
    rfl

/-- The times after a roll-up: the sibling stops when the segment did. -/
theorem nrSegmentExternalRollup_times {txn : SegmentTxn} {segment p r : ℕ}
    (hp : (txn.segment segment).parent = some p)
    (hr : findRollup txn segment (txn.segment p).children none = some r) (b : ℕ) :
    ((Axiom.nrSegmentExternalRollup txn segment).2.segment b).startTime =
        (txn.segment b).startTime ∧
      ((Axiom.nrSegmentExternalRollup txn segment).2.segment b).stopTime =
        if b = r then (txn.segment segment).stopTime else (txn.segment b).stopTime := by
  set stopped := txn.modify r fun s => { s with stopTime := (txn.segment segment).stopTime }
    with hstopped
  set removed := stopped.nrSegmentChildrenRemove p segment with hremoved
  have hrollup : Axiom.nrSegmentExternalRollup txn segment =
      (true, { nrSegmentDestroy removed.used removed segment with
        segmentCount := (nrSegmentDestroy removed.used removed segment).segmentCount - 1 }) := by
    simp only [Axiom.nrSegmentExternalRollup, hp, hr]
    rfl
  have hfield : ∀ {α : Type} (field : TxnSegment → α),
      (∀ t children, field { t with children := children } = field t) →
      field ((nrSegmentDestroy removed.used removed segment).segment b) =
        field (stopped.segment b) := by
    intro α field hchildren
    have hdetached : field (removed.segment b) = field (stopped.segment b) :=
      stopped.field_modify field (f := fun s => { s with children := s.children.erase segment })
        (fun t => hchildren t _) b
    rcases (pruned_nrSegmentDestroy removed.used removed segment).segment b with hsame | hsame
    · rw [hsame, hdetached]
    · rw [hsame, hchildren, hdetached]
  rw [hrollup]
  refine ⟨?_, ?_⟩
  · refine (hfield TxnSegment.startTime fun _ _ => rfl).trans ?_
    exact txn.field_modify TxnSegment.startTime
      (f := fun s => { s with stopTime := (txn.segment segment).stopTime }) (fun _ => rfl) b
  · refine (hfield TxnSegment.stopTime fun _ _ => rfl).trans ?_
    by_cases hb : b = r
    · rw [if_pos hb, hb, hstopped, SegmentTxn.modify_segment_self]
    · rw [if_neg hb, hstopped, SegmentTxn.modify_segment_of_ne _ hb]

theorem pushAll_eq (sms : List SegmentMetric) (rollup : Option (List SegmentMetric)) :
    pushAll sms rollup = rollup.map (· ++ sms) := by
  induction sms generalizing rollup with
  | nil =>
      rw [pushAll]
      cases rollup with
      | none => rfl
      | some metrics => exact congrArg some (List.append_nil metrics).symm
  | cons sm sms ih =>
      rw [pushAll, ih, Option.map_map]
      congr 1
      funext metrics
      simp

end Steps

/-! ### Merging -/

section Merge

variable {s : MeteredTxn} {segment p r : ℕ}

/-- What is known when a segment is rolled up into a sibling. -/
structure Merging (s : MeteredTxn) (segment p r : ℕ) : Prop where
  tree : SegmentTree s.segments
  reachable : s.segments.Reachable segment
  parent : (s.segments.segment segment).parent = some p
  rollup : findRollup s.segments segment (s.segments.segment p).children none = some r
  mem : r ∈ (s.segments.segment p).children
  ne : r ≠ segment
  metrics : s.carried segment ≠ []

namespace Merging

variable (h : Merging s segment p r)

include h

theorem merged : s.nrSegmentExternalRollup segment =
    (true,
      { segments := (Axiom.nrSegmentExternalRollup s.segments segment).2
        metrics :=
          Function.update
            (Function.update s.metrics segment ((s.metrics segment).map fun _ => []))
            r (pushAll (s.carried segment) (s.metrics r)) }) := by
  rw [MeteredTxn.nrSegmentExternalRollup, h.parent]
  simp only [h.rollup]

theorem links_root : s.segments.links.parent s.segments.segmentRoot = none := h.tree.root

theorem ne_root : s.segments.segmentRoot ≠ segment := by
  intro heq
  have hroot := h.tree.root
  rw [heq, h.parent] at hroot
  cases hroot

theorem reachable_rollup : s.segments.Reachable r :=
  .child (h.tree.consistent.parent_reachable h.links_root h.reachable h.parent).1 h.mem

/-- The tree loses the segment alone if and only if that has no children. -/
theorem tree_iff :
    (∀ b, (s.nrSegmentExternalRollup segment).2.segments.Reachable b ↔
      s.segments.Reachable b ∧ b ≠ segment) ↔ (s.segments.segment segment).children = [] := by
  have hne : p ≠ segment := by
    rintro rfl
    exact h.tree.consistent.parent_ne_self h.links_root h.reachable h.parent
  rcases nrSegmentExternalRollup_cases s.segments segment with hfalse | ⟨q, txn', htrue, hq, hretains,
    -, -, hsub, hleaf⟩
  · simp only [Axiom.nrSegmentExternalRollup, h.parent, h.rollup] at hfalse
    cases hfalse
  · obtain rfl : p = q := Option.some.inj (h.parent.symm.trans hq)
    have hroot : txn'.segmentRoot = s.segments.segmentRoot := hretains.frame.segmentRoot
    rw [h.merged, htrue]
    constructor
    · intro hreach
      refine List.eq_nil_iff_forall_not_mem.mpr fun c hc => ?_
      have hcne : c ≠ segment := by
        rintro rfl
        exact h.tree.consistent.parent_ne_self h.links_root h.reachable
          (h.tree.consistent.parent_of_mem hc)
      have hkept : txn'.Reachable c := (hreach c).mpr ⟨.child h.reachable hc, hcne⟩
      rw [SegmentTxn.Reachable, hroot] at hkept
      exact h.tree.consistent.not_reachable_of_detach hq h.links_root hsub hc hkept
    · intro hnil b
      show txn'.Reachable b ↔ _
      rw [SegmentTxn.Reachable, hroot, hleaf hne hnil]
      exact h.tree.consistent.reachable_detach_leaf hq h.ne_root hnil b

theorem count : (s.nrSegmentExternalRollup segment).2.segments.segmentCount =
      s.segments.segmentCount - 1 ∧
    (s.nrSegmentExternalRollup segment).2.segments.used = s.segments.used := by
  rcases nrSegmentExternalRollup_cases s.segments segment with hfalse | ⟨q, txn', htrue, -, hretains,
    hcount, -⟩
  · simp only [Axiom.nrSegmentExternalRollup, h.parent, h.rollup] at hfalse
    cases hfalse
  · rw [h.merged, htrue]
    exact ⟨hcount, hretains.frame.used⟩

/-- Once the tree is right, the times are if and only if the sibling does not stop earlier. -/
theorem times_iff
    (htree : ∀ b, (s.nrSegmentExternalRollup segment).2.segments.Reachable b ↔
      s.segments.Reachable b ∧ b ≠ segment) :
    (∀ b, (s.nrSegmentExternalRollup segment).2.segments.Reachable b →
      ((s.nrSegmentExternalRollup segment).2.segments.segment b).startTime ≤
          (s.segments.segment b).startTime ∧
        (s.segments.segment b).stopTime ≤
          ((s.nrSegmentExternalRollup segment).2.segments.segment b).stopTime) ↔
      (s.segments.segment r).stopTime ≤ (s.segments.segment segment).stopTime := by
  have htimes := nrSegmentExternalRollup_times h.parent h.rollup
  have hsegments : (s.nrSegmentExternalRollup segment).2.segments =
      (Axiom.nrSegmentExternalRollup s.segments segment).2 := by
    rw [h.merged]
  rw [← hsegments] at htimes
  constructor
  · intro hall
    have hstop := (hall r ((htree r).mpr ⟨h.reachable_rollup, h.ne⟩)).2
    rw [(htimes r).2, if_pos rfl] at hstop
    exact hstop
  · intro hle b _
    rw [(htimes b).1, (htimes b).2]
    refine ⟨Nat.le_refl _, ?_⟩
    split_ifs with hb
    · rw [hb]
      exact hle
    · exact Nat.le_refl _

/-- Once the tree is right, the same metrics are recorded if and only if the sibling has a
vector. -/
theorem metrics_iff
    (htree : ∀ b, (s.nrSegmentExternalRollup segment).2.segments.Reachable b ↔
      s.segments.Reachable b ∧ b ≠ segment) :
    (∀ metric, (s.nrSegmentExternalRollup segment).2.recorded metric = s.recorded metric) ↔
      s.metrics r ≠ none := by
  classical
  set after := (s.nrSegmentExternalRollup segment).2 with hafter
  set tree := (Finset.range s.segments.used).filter s.segments.Reachable with htreeSet
  have hsegment : segment ∈ tree :=
    Finset.mem_filter.mpr ⟨Finset.mem_range.mpr (h.tree.used _ h.reachable), h.reachable⟩
  have hrollup : r ∈ tree.erase segment := by
    refine Finset.mem_erase.mpr ⟨h.ne, Finset.mem_filter.mpr ⟨?_, h.reachable_rollup⟩⟩
    exact Finset.mem_range.mpr (h.tree.used _ h.reachable_rollup)
  have htree' : (Finset.range after.segments.used).filter after.segments.Reachable =
      tree.erase segment := by
    ext b
    rw [Finset.mem_filter, Finset.mem_erase, Finset.mem_filter, h.count.2, htree b]
    tauto
  have hothers : ∀ b ∈ (tree.erase segment).erase r, after.carried b = s.carried b := by
    intro b hb
    obtain ⟨hbr, hb⟩ := Finset.mem_erase.mp hb
    rw [hafter, h.merged, carried, carried]
    simp only [Function.update_of_ne hbr, Function.update_of_ne (Finset.mem_erase.mp hb).1]
    rfl
  have hcarried : after.carried r = ((s.metrics r).map (· ++ s.carried segment)).getD [] := by
    rw [hafter, h.merged, carried]
    simp only [Function.update_self, pushAll_eq]
  have hbefore : ∀ metric, s.recorded metric =
      (s.carried segment).count metric + ((s.carried r).count metric +
        ∑ b ∈ (tree.erase segment).erase r, (s.carried b).count metric) := by
    intro metric
    rw [Finset.add_sum_erase _ (fun b => (s.carried b).count metric) hrollup,
      Finset.add_sum_erase _ (fun b => (s.carried b).count metric) hsegment]
    rfl
  have hnow : ∀ metric, after.recorded metric =
      (after.carried r).count metric +
        ∑ b ∈ (tree.erase segment).erase r, (s.carried b).count metric := by
    intro metric
    have hrest : ∑ b ∈ (tree.erase segment).erase r, (s.carried b).count metric =
        ∑ b ∈ (tree.erase segment).erase r, (after.carried b).count metric :=
      Finset.sum_congr rfl fun b hb => by rw [hothers b hb]
    rw [hrest, Finset.add_sum_erase _ (fun b => (after.carried b).count metric) hrollup, ← htree']
    rfl
  simp only [hbefore, hnow, hcarried]
  cases hmetrics : s.metrics r with
  | none =>
      have hempty : s.carried r = [] := by
        rw [carried, hmetrics]
        rfl
      refine iff_of_false (fun hall => ?_) fun hne => hne rfl
      obtain ⟨metric, sms, hlist⟩ := List.exists_cons_of_ne_nil h.metrics
      have hlost := hall metric
      rw [hempty, hlist, Option.map_none, Option.getD_none, List.count_nil, List.count_cons_self]
        at hlost
      omega
  | some metrics =>
      have hown : s.carried r = metrics := by
        rw [carried, hmetrics]
        rfl
      refine iff_of_true (fun metric => ?_) (Option.some_ne_none _)
      rw [hown, Option.map_some, Option.getD_some, List.count_append]
      omega

theorem losesNothing_iff :
    LosesNothing s (s.nrSegmentExternalRollup segment).2 segment ↔
      (s.segments.segment segment).children = [] ∧ s.metrics r ≠ none ∧
        (s.segments.segment r).stopTime ≤ (s.segments.segment segment).stopTime := by
  have hchanged : (s.nrSegmentExternalRollup segment).2 ≠ s := by
    intro heq
    have hcount := h.count.1
    rw [heq] at hcount
    omega
  constructor
  · rintro (heq | hmerged)
    · exact absurd heq hchanged
    · exact ⟨h.tree_iff.mp hmerged.tree, (h.metrics_iff hmerged.tree).mp hmerged.metrics,
        (h.times_iff hmerged.tree).mp hmerged.times⟩
  · rintro ⟨hnil, hmetrics, hle⟩
    have htree := h.tree_iff.mpr hnil
    exact .inr ⟨htree, (h.times_iff htree).mpr hle, h.count.1, (h.metrics_iff htree).mpr hmetrics⟩

end Merging

end Merge

/-! ### Ending an external segment -/

theorem segmentTree_of_run {s : SegmentRun} (h : s.Invariant) : SegmentTree s.txn where
  root := by
    rw [h.root]
    exact h.forest.root
  consistent := h.forest.consistent
  used := by
    intro b hb
    rw [SegmentTxn.Reachable, h.root] at hb
    exact (h.forest.live_of_reachable h.rootUsed h.rootNotRemoved hb).1

theorem scopedMetric_mem (call : ExternalCall) : call.scopedMetric ∈ call.metrics := by
  rw [ExternalCall.metrics]
  split <;> simp

/-- What ending an external segment leaves, before it is rolled up. -/
structure EndedExternal (s e : MeteredTxn) (segment name now : ℕ) : Prop where
  links : e.segments.links = s.segments.links
  frame : s.segments.Frame e.segments
  others : ∀ b, b ≠ segment → e.segments.segment b = s.segments.segment b
  name : (e.segments.segment segment).name = name
  stop : (e.segments.segment segment).stopTime = stopTimeAt s.segments segment now
  metrics : ∀ b, b ≠ segment → e.metrics b = s.metrics b
  carried : e.carried segment ≠ []

theorem endedExternal (nrStringAdd : Bytes → ℕ) (s : MeteredTxn) (segment : ℕ)
    (call : ExternalCall) (now : ℕ) :
    EndedExternal s (s.externalEnded nrStringAdd segment call now) segment
      (nrStringAdd call.scopedMetric.name) now := by
  set params : ExternalParams :=
    { doRollup := call.doRollup, name := nrStringAdd call.scopedMetric.name } with hparams
  obtain ⟨hsegments, hcarried, hothers⟩ := foldl_nrSegmentAddMetric segment call.metrics
    { s with segments := Axiom.externalEnded s.segments segment params now }
  have hsegments' : (s.externalEnded nrStringAdd segment call now).segments =
      Axiom.externalEnded s.segments segment params now := hsegments
  have hcarried' : (s.externalEnded nrStringAdd segment call now).carried segment =
      s.carried segment ++ call.metrics := hcarried
  obtain ⟨hsame, hname, hstop⟩ := externalEnded_segment s.segments segment params now
  have hended := ended_externalEnded s.segments segment params now
  refine ⟨?_, ?_, ?_, ?_, ?_, hothers, ?_⟩
  · rw [hsegments', hended.links]
  · rw [hsegments']
    exact hended.frame
  · rw [hsegments']
    exact hsame
  · rw [hsegments', hname]
  · rw [hsegments', hstop]
  · rw [hcarried']
    exact List.append_ne_nil_of_right_ne_nil _ (List.ne_nil_of_mem (scopedMetric_mem call))

section

variable {s e : MeteredTxn} {segment name now : ℕ} (h : EndedExternal s e segment name now)

include h

theorem EndedExternal.parent (b : ℕ) :
    (e.segments.segment b).parent = (s.segments.segment b).parent :=
  congrFun (congrArg Links.parent h.links) b

theorem EndedExternal.children (b : ℕ) :
    (e.segments.segment b).children = (s.segments.segment b).children :=
  congrFun (congrArg Links.children h.links) b

theorem EndedExternal.eligible {p : ℕ} (hp : (s.segments.segment segment).parent = some p) :
    eligible e.segments segment (e.segments.segment p).children =
      siblingsNamed s.segments segment name := by
  rw [siblingsNamed, hp, MeteredTxn.eligible, h.children]
  refine List.filter_congr fun b _ => ?_
  rw [h.name, h.children]
  by_cases hb : b = segment
  · simp [hb]
  · rw [h.others b hb]

theorem EndedExternal.stopsLast {r : ℕ} :
    StopsLast e.segments (siblingsNamed s.segments segment name) r ↔
      StopsLast s.segments (siblingsNamed s.segments segment name) r := by
  have hstop : ∀ b ∈ siblingsNamed s.segments segment name,
      (e.segments.segment b).stopTime = (s.segments.segment b).stopTime := by
    intro b hb
    rw [siblingsNamed] at hb
    split at hb
    · cases hb
    · have hne : b ≠ segment := (of_decide_eq_true (List.mem_filter.mp hb).2).1
      rw [h.others b hne]
  refine exists_congr fun before => exists_congr fun after => and_congr_right fun heq => ?_
  have hbefore : ∀ b ∈ before, (e.segments.segment b).stopTime = (s.segments.segment b).stopTime :=
    fun b hb => hstop b (heq ▸ List.mem_append_left _ hb)
  have hafter : ∀ b ∈ after, (e.segments.segment b).stopTime = (s.segments.segment b).stopTime :=
    fun b hb => hstop b (heq ▸ List.mem_append_right _ (List.mem_cons_of_mem r hb))
  have hr : (e.segments.segment r).stopTime = (s.segments.segment r).stopTime :=
    hstop r (heq ▸ List.mem_append_right _ List.mem_cons_self)
  rw [hr]
  exact and_congr (forall₂_congr fun b hb => by rw [hbefore b hb])
    (forall₂_congr fun b hb => by rw [hafter b hb])

theorem EndedExternal.segmentTree (htree : SegmentTree s.segments) : SegmentTree e.segments where
  root := by
    rw [h.frame.segmentRoot, h.parent]
    exact htree.root
  consistent := by
    rw [h.links]
    exact htree.consistent
  used := by
    intro b hb
    rw [SegmentTxn.Reachable, h.links, h.frame.segmentRoot] at hb
    rw [h.frame.used]
    exact htree.used b hb

end

/-- Ending an external segment of the tree with a roll-up loses nothing but the segment, if and
only if there is no sibling to roll up into, or the segment has no children and the sibling has a
vector of metrics and does not stop later. -/
theorem external_rollup_loses_nothing_iff (nrStringAdd : Bytes → ℕ) (s : MeteredTxn)
    (htree : SegmentTree s.segments) {segment : ℕ} (hreachable : s.segments.Reachable segment)
    {call : ExternalCall} (hrollup : call.doRollup = true) (now : ℕ) :
    LosesNothing (s.externalEnded nrStringAdd segment call now)
        (s.nrSegmentExternalEnd nrStringAdd segment call now).2 segment ↔
      RollupSafe s segment (nrStringAdd call.scopedMetric.name) now := by
  have hended := endedExternal nrStringAdd s segment call now
  set e := s.externalEnded nrStringAdd segment call now with he
  set name := nrStringAdd call.scopedMetric.name with hname
  have hend : (s.nrSegmentExternalEnd nrStringAdd segment call now) =
      e.nrSegmentExternalRollup segment := by
    rw [MeteredTxn.nrSegmentExternalEnd, hrollup, if_pos rfl]
  rw [hend, RollupSafe]
  cases hparent : (s.segments.segment segment).parent with
  | none =>
      have hparent' : (e.segments.segment segment).parent = none := (hended.parent segment).trans hparent
      have hsame : e.nrSegmentExternalRollup segment = (false, e) := by
        rw [MeteredTxn.nrSegmentExternalRollup, hparent']
      have hnil : siblingsNamed s.segments segment name = [] := by
        rw [siblingsNamed, hparent]
      rw [hsame]
      exact iff_of_true (.inl rfl) (.inl hnil)
  | some p =>
      have hparent' : (e.segments.segment segment).parent = some p :=
        (hended.parent segment).trans hparent
      have hfind := @stopsLast_findRollup e.segments segment
        (e.segments.segment p).children none
      rw [hended.eligible hparent] at hfind
      cases hr : findRollup e.segments segment (e.segments.segment p).children none with
      | none =>
          rw [hr] at hfind
          have hsame : e.nrSegmentExternalRollup segment = (false, e) := by
            rw [MeteredTxn.nrSegmentExternalRollup, hparent']
            simp only [hr]
          rw [hsame]
          exact iff_of_true (.inl rfl) (.inl hfind)
      | some r =>
          rw [hr] at hfind
          have hlast : StopsLast s.segments (siblingsNamed s.segments segment name) r :=
            hended.stopsLast.mp hfind
          have hmem : r ∈ siblingsNamed s.segments segment name := by
            obtain ⟨before, after, heq, -⟩ := hlast
            rw [heq]
            exact List.mem_append_right _ List.mem_cons_self
          have hmem' := hmem
          rw [siblingsNamed, hparent] at hmem'
          obtain ⟨hchild, heligible⟩ := List.mem_filter.mp hmem'
          have hne : r ≠ segment := (of_decide_eq_true heligible).1
          have hmerging : Merging e segment p r :=
            { tree := hended.segmentTree htree
              reachable := by
                rw [SegmentTxn.Reachable, hended.links, hended.frame.segmentRoot]
                exact hreachable
              parent := hparent'
              rollup := hr
              mem := by
                rw [hended.children]
                exact hchild
              ne := hne
              metrics := hended.carried }
          rw [hmerging.losesNothing_iff, hended.children, hended.metrics r hne, hended.others r hne,
            hended.stop]
          constructor
          · exact fun hsafe => .inr ⟨hsafe.1, r, hlast, hsafe.2⟩
          · rintro (hnil | ⟨hnil, r', hlast', hsafe⟩)
            · rw [hnil] at hmem
              cases hmem
            · obtain rfl := hlast.eq hlast'
              exact ⟨hnil, hsafe⟩

section Calls

def exampleCall : ExternalCall :=
  { doRollup := true, domain := ascii "example.com", response := none }

/-- Two calls of the same host, one after the other; during the second one a segment was started
and ended. -/
def nestedCalls : List SegmentCall :=
  [.start none none 10, .finishExternal 1 { doRollup := true, name := 1 } 20, .start none none 30,
    .start none none 35, .finish 3 36]

theorem allowed_nestedCalls :
    Along SegmentRun.exec SegmentRun.Allowed (SegmentRun.begin 0 0) nestedCalls :=
  ⟨nofun, ⟨⟨by decide, rfl⟩, rfl⟩, nofun, nofun, ⟨⟨by decide, rfl⟩, rfl⟩, trivial⟩

def nestedTxn : MeteredTxn where
  segments := (runFrom SegmentRun.exec (SegmentRun.begin 0 0) nestedCalls).txn
  metrics := fun b => if b = 1 then some exampleCall.metrics else none

theorem segmentTree_nestedTxn : SegmentTree nestedTxn.segments :=
  segmentTree_of_run (SegmentRun.invariant_of_run allowed_nestedCalls)

/-- The second call is rolled up into the first one, and the segment below it goes with it. -/
theorem nested_segment_lost :
    let ended := nestedTxn.externalEnded (fun _ => 1) 2 exampleCall 40
    let result := nestedTxn.nrSegmentExternalEnd (fun _ => 1) 2 exampleCall 40
    SegmentTree nestedTxn.segments ∧ nestedTxn.segments.Reachable 2 ∧
      (ended.segments.segment 2).children = [3] ∧ result.1 = true ∧
      (result.2.segments.segment 0).children = [1] ∧
      (result.2.segments.segment 2).children = [] ∧ ¬ LosesNothing ended result.2 2 := by
  intro ended result
  have hreachable : nestedTxn.segments.Reachable 2 := .child .root (by decide)
  have hended : EndedExternal nestedTxn ended 2 1 40 :=
    endedExternal (fun _ => 1) nestedTxn 2 exampleCall 40
  have hmerging : Merging ended 2 0 1 :=
    { tree := hended.segmentTree segmentTree_nestedTxn
      reachable := .child .root (by decide)
      parent := rfl
      rollup := rfl
      mem := by decide
      ne := by decide
      metrics := hended.carried }
  refine ⟨segmentTree_nestedTxn, hreachable, rfl, rfl, rfl, rfl, fun h => ?_⟩
  exact absurd (hmerging.losesNothing_iff.mp h).1 (by decide)

/-- The first call stands alone, and the second has nothing below it. -/
def plainExternals : List SegmentCall :=
  [.start none none 10, .finishExternal 1 { doRollup := true, name := 1 } 20, .start none none 30]

def plainTxn : MeteredTxn where
  segments := (runFrom SegmentRun.exec (SegmentRun.begin 0 0) plainExternals).txn
  metrics := fun b => if b = 1 then some exampleCall.metrics else none

theorem external_rollup_plainTxn :
    LosesNothing (plainTxn.externalEnded (fun _ => 1) 2 exampleCall 40)
      (plainTxn.nrSegmentExternalEnd (fun _ => 1) 2 exampleCall 40).2 2 := by
  have hallowed :
      Along SegmentRun.exec SegmentRun.Allowed (SegmentRun.begin 0 0) plainExternals :=
    ⟨nofun, ⟨⟨by decide, rfl⟩, rfl⟩, nofun, trivial⟩
  have htree : SegmentTree plainTxn.segments :=
    segmentTree_of_run (SegmentRun.invariant_of_run hallowed)
  have hreachable : plainTxn.segments.Reachable 2 := .child .root (by decide)
  have hsafe : RollupSafe plainTxn 2 1 40 :=
    .inr ⟨rfl, 1, ⟨[], [], rfl, nofun, nofun⟩, Option.some_ne_none exampleCall.metrics, by decide⟩
  exact (external_rollup_loses_nothing_iff (fun _ => 1) plainTxn htree hreachable rfl 40).mpr hsafe

end Calls

end MeteredTxn

end AxiomDaemon.Axiom

import AxiomDaemon.Axiom.Segment
import Mathlib.Data.Finset.SDiff

/-!
The total time of a transaction. The first pass adds up, over all segments,
the time that no child in the same context covers, and subtracts the time
that asynchronous segments cover of the transaction. The two are computed
from different sets of intervals; that the second is never more than the
first is a fact about the whole tree: what an asynchronous segment covers is
exclusive time of the segment or of one below it.
-/

namespace AxiomDaemon.Axiom

open AxiomDaemon.Lib AxiomDaemon.Util

/-! ### What the total time is meant to be -/

/-- The time a segment takes, as an interval. -/
def NrSegment.times (s : NrSegment) : ℕ × ℕ := (s.startTime, s.stopTime)

/-- The intervals of the children that run in the context of `s`. -/
def sameContextTimes (s : NrSegment) (children : Forest NrSegment) : List (ℕ × ℕ) :=
  (children.roots.filter fun c => s.asyncContext = c.asyncContext).map NrSegment.times

/-- The intervals of all asynchronous segments. -/
def asyncTimes (f : Forest NrSegment) : List (ℕ × ℕ) :=
  (f.labels.filter fun s => s.asyncContext ≠ 0).map NrSegment.times

/-- The duration of a segment without what its children in the same context
cover of it. -/
def exclusiveDuration (s : NrSegment) (children : Forest NrSegment) : ℕ :=
  (s.stopTime - s.startTime) -
    (Finset.Ico s.startTime s.stopTime ∩ cover (sameContextTimes s children)).card

def exclusiveSum : Forest NrSegment → ℕ
  | .nil => 0
  | .node s children rest => exclusiveDuration s children + exclusiveSum children +
      exclusiveSum rest

/-- The part of a transaction of the given duration that asynchronous segments
cover. -/
def blockedTime (duration : ℕ) (f : Forest NrSegment) : ℕ :=
  (Finset.Ico 0 duration ∩ cover (asyncTimes f)).card

/-- A finished tree, all of it counted in `segment_count`. -/
structure WellFormedTree (txn : NrTxn) (root : OrderedTree NrSegment) : Prop where
  isRoot : txn.segmentRoot = some root
  ordered : ∀ s ∈ root.labels, s.startTime ≤ s.stopTime
  bounded : ∀ s ∈ root.labels, s.stopTime < 2 ^ 64
  distinct : (root.labels.map NrSegment.address).Nodup
  counted : root.labels.length ≤ txn.segmentCount

/-! ### The blocked time is part of the sum -/

theorem exclusiveDuration_eq_card (s : NrSegment) (children : Forest NrSegment) :
    exclusiveDuration s children =
      (Finset.Ico s.startTime s.stopTime \ cover (sameContextTimes s children)).card := by
  rw [exclusiveDuration, Finset.card_sdiff, Finset.inter_comm, Nat.card_Ico]

theorem exclusiveDuration_of_sameContextTimes_eq_nil {s : NrSegment}
    {children : Forest NrSegment} (h : sameContextTimes s children = []) :
    exclusiveDuration s children = s.stopTime - s.startTime := by
  rw [exclusiveDuration_eq_card, h, cover, List.toFinset_nil, Finset.biUnion_empty,
    Finset.sdiff_empty, Nat.card_Ico]

/-- Everything that some segment covers is somewhere counted as exclusive. -/
theorem card_cover_le_exclusiveSum (f : Forest NrSegment) :
    (cover (f.labels.map NrSegment.times)).card ≤ exclusiveSum f := by
  induction f with
  | nil => simp [cover]
  | node s children rest ihc ihr =>
      have hsub : cover ((Forest.node s children rest).labels.map NrSegment.times) ⊆
          (Finset.Ico s.startTime s.stopTime \ cover (sameContextTimes s children)) ∪
            cover (children.labels.map NrSegment.times) ∪
            cover (rest.labels.map NrSegment.times) := by
        intro τ hτ
        obtain ⟨iv, hiv, hmem⟩ := mem_cover.mp hτ
        simp only [Forest.labels_node, List.map_cons, List.map_append, List.mem_cons,
          List.mem_append] at hiv
        simp only [Finset.mem_union, Finset.mem_sdiff, Finset.mem_Ico]
        rcases hiv with rfl | hiv | hiv
        · by_cases hcov : τ ∈ cover (sameContextTimes s children)
          · -- a child covers the tick, and it is one of the labels below
            obtain ⟨iv, hchild, hmem'⟩ := mem_cover.mp hcov
            obtain ⟨c, hc, rfl⟩ := List.mem_map.mp hchild
            have hlabel : c ∈ children.labels :=
              children.roots_sublist_labels.subset (List.mem_of_mem_filter hc)
            exact Or.inl (Or.inr (mem_cover.mpr
              ⟨c.times, List.mem_map_of_mem hlabel, hmem'⟩))
          · exact Or.inl (Or.inl ⟨hmem, hcov⟩)
        · exact Or.inl (Or.inr (mem_cover.mpr ⟨iv, hiv, hmem⟩))
        · exact Or.inr (mem_cover.mpr ⟨iv, hiv, hmem⟩)
      calc (cover ((Forest.node s children rest).labels.map NrSegment.times)).card
          ≤ _ := Finset.card_le_card hsub
        _ ≤ _ := Finset.card_union_le _ _
        _ ≤ _ := Nat.add_le_add_right (Finset.card_union_le _ _) _
        _ ≤ exclusiveDuration s children + exclusiveSum children + exclusiveSum rest := by
            rw [← exclusiveDuration_eq_card]
            omega

theorem blockedTime_le_exclusiveSum (duration : ℕ) (f : Forest NrSegment) :
    blockedTime duration f ≤ exclusiveSum f := by
  refine le_trans (Finset.card_le_card ?_) (card_cover_le_exclusiveSum f)
  intro τ hτ
  obtain ⟨iv, hiv, hmem⟩ := mem_cover.mp (Finset.mem_inter.mp hτ).2
  obtain ⟨s, hs, rfl⟩ := List.mem_map.mp hiv
  exact mem_cover.mpr ⟨s.times, List.mem_map_of_mem (List.mem_of_mem_filter hs), hmem⟩

theorem blockedTime_le_duration (duration : ℕ) (f : Forest NrSegment) :
    blockedTime duration f ≤ duration := by
  have hsub : Finset.Ico 0 duration ∩ cover (asyncTimes f) ⊆ Finset.Ico 0 duration :=
    Finset.inter_subset_left
  have hcard := Finset.card_le_card hsub
  rwa [Nat.card_Ico] at hcard

/-! ### The first pass -/

/-- The intervals of the roots of `f` that run in the context of the parent. -/
def parentTimes (parent : Option NrSegment) (f : Forest NrSegment) : List (ℕ × ℕ) :=
  match parent with
  | none => []
  | some p => sameContextTimes p f

/-- The sum of what `nr_exclusive_time_calculate` returns for the segments. -/
def sweptSum : Forest NrSegment → ℕ
  | .nil => 0
  | .node s children rest =>
      nrExclusiveTimeCalculate (some (recordOf children.length s.startTime s.stopTime
        (sameContextTimes s children))) + sweptSum children + sweptSum rest

/-- The structure of the main context: for the number of segments and the
duration given by `window` if blocking is discounted, and `NULL` if not. -/
def MainRecords (window : Option (ℕ × ℕ)) (et : Option NrExclusiveTime)
    (async : List (ℕ × ℕ)) : Prop :=
  match window with
  | none => et = none
  | some (count, duration) => Records et count 0 duration async

/-- The state of the pass between two trees: `ivs` have been added to the
parent, `async` to the main context, and `total` has been summed up. -/
structure PassInv (parent : Option NrSegment) (m : TreeToHeapMetadata) (n : ℕ)
    (ivs : List (ℕ × ℕ)) (window : Option (ℕ × ℕ)) (async : List (ℕ × ℕ)) (total : ℕ) :
    Prop where
  parent : ∀ p, parent = some p →
    Records (m.exclusiveTime p.address) n p.startTime p.stopTime ivs
  main : MainRecords window m.mainContext async
  total : m.totalTime = total % 2 ^ 64
  results : ∀ r ∈ m.addChildResults, r = true

section Pass

variable {parent : Option NrSegment} {s : NrSegment} {m : TreeToHeapMetadata} {n : ℕ}
  {ivs : List (ℕ × ℕ)} {window : Option (ℕ × ℕ)} {async : List (ℕ × ℕ)} {total : ℕ}

theorem Records.addTimes {et : Option NrExclusiveTime} {a b : ℕ} (h : Records et n a b ivs)
    (hroom : ivs.length < n) (hs : s.startTime ≤ s.stopTime) :
    (nrExclusiveTimeAddChild et s.startTime s.stopTime).1 = true ∧
      Records (nrExclusiveTimeAddChild et s.startTime s.stopTime).2 n a b (ivs ++ [s.times]) :=
  h.addChild s.times hroom hs

theorem PassInv.addToParent {p : NrSegment} (h : PassInv (some p) m n ivs window
    async total) (hroom : ivs.length < n) (hs : s.startTime ≤ s.stopTime) :
    PassInv (some p) (m.addToParent p s) n (ivs ++ [s.times]) window async total := by
  obtain ⟨htrue, hrec⟩ := (h.parent p rfl).addTimes hroom hs
  refine ⟨?_, h.main, h.total, ?_⟩
  · rintro q ⟨⟩
    simpa [TreeToHeapMetadata.addToParent] using hrec
  · intro r hr
    rcases List.mem_append.mp hr with hr | hr
    · exact h.results r hr
    · rw [List.mem_singleton.mp hr]
      exact htrue

theorem PassInv.addToMainContext {count duration : ℕ}
    (h : PassInv parent m n ivs (some (count, duration)) async total)
    (hroom : async.length < count) (hs : s.startTime ≤ s.stopTime) :
    PassInv parent (m.addToMainContext s) n ivs (some (count, duration)) (async ++ [s.times])
      total := by
  have hmain : Records m.mainContext count 0 duration async := h.main
  obtain ⟨htrue, hrec⟩ := hmain.addTimes hroom hs
  refine ⟨h.parent, hrec, h.total, ?_⟩
  intro r hr
  rcases List.mem_append.mp hr with hr | hr
  · exact h.results r hr
  · rw [List.mem_singleton.mp hr]
    exact htrue

/-- The interval a segment adds to its parent: none in another context. -/
def parentEntry (parent : Option NrSegment) (s : NrSegment) : List (ℕ × ℕ) :=
  match parent with
  | none => []
  | some p => if p.asyncContext = s.asyncContext then [s.times] else []

/-- The interval a segment adds to the main context. -/
def asyncEntry (s : NrSegment) : List (ℕ × ℕ) := if s.asyncContext ≠ 0 then [s.times] else []

theorem length_parentEntry_le (parent : Option NrSegment) (s : NrSegment) :
    (parentEntry parent s).length ≤ 1 := by
  unfold parentEntry
  split
  · exact Nat.zero_le _
  · split <;> simp

theorem length_asyncEntry_le (s : NrSegment) : (asyncEntry s).length ≤ 1 := by
  unfold asyncEntry
  split <;> simp

theorem parentTimes_node (parent : Option NrSegment) (s : NrSegment)
    (children rest : Forest NrSegment) :
    parentTimes parent (.node s children rest) =
      parentEntry parent s ++ parentTimes parent rest := by
  cases parent with
  | none => rfl
  | some p =>
      by_cases hctx : p.asyncContext = s.asyncContext <;>
        simp [parentTimes, parentEntry, sameContextTimes, hctx]

theorem asyncTimes_node (s : NrSegment) (children rest : Forest NrSegment) :
    asyncTimes (.node s children rest) =
      asyncEntry s ++ asyncTimes children ++ asyncTimes rest := by
  by_cases hctx : s.asyncContext = 0 <;> simp [asyncTimes, asyncEntry, hctx]

theorem length_asyncTimes_le (f : Forest NrSegment) :
    (asyncTimes f).length ≤ f.labels.length := by
  rw [asyncTimes, List.length_map]
  exact List.length_filter_le _ _

theorem PassInv.setUp (h : PassInv parent m n ivs window async total)
    (hparent : ∀ p, parent = some p → p.address ≠ s.address) (size : ℕ) :
    PassInv parent (m.setUp s size) n ivs window async total :=
  ⟨fun p hp => by simpa [TreeToHeapMetadata.setUp, hparent p hp] using h.parent p hp,
    h.main, h.total, h.results⟩

theorem PassInv.adjustParent (h : PassInv parent m n ivs window async total)
    (hroom : ivs.length < n ∨ parent = none) (hs : s.startTime ≤ s.stopTime) :
    PassInv parent (m.adjustParent s parent) n (ivs ++ parentEntry parent s) window
        async total ∧
      ∀ a, (∀ p, parent = some p → a ≠ p.address) →
        (m.adjustParent s parent).exclusiveTime a = m.exclusiveTime a := by
  cases parent with
  | none => exact ⟨by simpa [parentEntry, TreeToHeapMetadata.adjustParent] using h, fun a _ => rfl⟩
  | some p =>
      rw [TreeToHeapMetadata.adjustParent]
      by_cases hctx : p.asyncContext = s.asyncContext
      · have hroom' : ivs.length < n := by simpa using hroom
        rw [parentEntry, if_pos hctx, if_pos hctx]
        refine ⟨h.addToParent hroom' hs, fun a ha => ?_⟩
        exact Function.update_of_ne (ha p rfl) _ _
      · rw [parentEntry, if_neg hctx, if_neg hctx, List.append_nil]
        exact ⟨h, fun a _ => rfl⟩

theorem PassInv.adjustMainContext (h : PassInv parent m n ivs window async total)
    (hroom : ∀ w, window = some w → async.length < w.1) (hs : s.startTime ≤ s.stopTime) :
    PassInv parent (m.adjustMainContext s) n ivs window (async ++ asyncEntry s) total ∧
      (m.adjustMainContext s).exclusiveTime = m.exclusiveTime := by
  rw [TreeToHeapMetadata.adjustMainContext, asyncEntry]
  by_cases hasync : s.asyncContext ≠ 0
  · rw [if_pos hasync]
    cases window with
    | none =>
        have hnone : m.mainContext = none := h.main
        rw [if_neg (by simp [hnone])]
        exact ⟨⟨h.parent, hnone, h.total, h.results⟩, rfl⟩
    | some w =>
        have hrec : Records m.mainContext w.1 0 w.2 async := h.main
        rw [if_pos ⟨hasync, by simp [hrec.eq]⟩]
        exact ⟨h.addToMainContext (hroom w rfl) hs, rfl⟩
  · rw [if_neg fun hand => hasync hand.1, if_neg hasync, List.append_nil]
    exact ⟨h, rfl⟩

/-- What entering a segment does: a fresh record for its own children, one
more child for its parent and for the main context. -/
theorem PassInv.enter (h : PassInv parent m n ivs window async total)
    (hs : s.startTime ≤ s.stopTime) (hparent : ∀ p, parent = some p → p.address ≠ s.address)
    (hroom : ivs.length < n ∨ parent = none)
    (hmain : ∀ w, window = some w → async.length < w.1) (size : ℕ)
    (hsize : 2 * size < 2 ^ 64) :
    let m' := (nrSegmentStohIteratorCallback parent s size m).1
    PassInv parent m' n (ivs ++ parentEntry parent s) window
        (async ++ asyncEntry s) total ∧
      Records (m'.exclusiveTime s.address) size s.startTime s.stopTime [] ∧
      ∀ a, a ≠ s.address → (∀ p, parent = some p → a ≠ p.address) →
        m'.exclusiveTime a = m.exclusiveTime a := by
  have hfresh : Records ((m.setUp s size).exclusiveTime s.address) size s.startTime s.stopTime
      [] := by
    simpa [TreeToHeapMetadata.setUp] using records_create hsize hs
  obtain ⟨h₁, hframe₁⟩ := (h.setUp hparent size).adjustParent hroom hs
  obtain ⟨h₂, hframe₂⟩ := h₁.adjustMainContext hmain hs
  refine ⟨⟨h₂.parent, h₂.main, h₂.total, h₂.results⟩, ?_, ?_⟩
  · show Records ((((m.setUp s size).adjustParent s parent).adjustMainContext s).exclusiveTime
      s.address) size s.startTime s.stopTime []
    rw [hframe₂, hframe₁ s.address fun p hp => (hparent p hp).symm]
    exact hfresh
  · intro a ha hap
    show (((m.setUp s size).adjustParent s parent).adjustMainContext s).exclusiveTime a = _
    rw [hframe₂, hframe₁ a hap]
    exact Function.update_of_ne ha _ _

theorem PassInv.leave {size : ℕ} {times : List (ℕ × ℕ)}
    (h : PassInv parent m n ivs window async total)
    (hrec : Records (m.exclusiveTime s.address) size s.startTime s.stopTime times) :
    PassInv parent (nrSegmentStohPostIteratorCallback s m) n ivs window async
      (total + nrExclusiveTimeCalculate (some (recordOf size s.startTime s.stopTime times))) := by
  refine ⟨h.parent, h.main, ?_, h.results⟩
  rw [nrSegmentStohPostIteratorCallback, h.total, hrec.eq, Nat.mod_add_mod]

end Pass

/-- The addresses of the segments of a forest. -/
def addresses (f : Forest NrSegment) : List ℕ := f.labels.map NrSegment.address

/-- The walk over a forest adds its roots to the parent, its asynchronous
segments to the main context and its exclusive times to the total, and
changes the records of no other segment. -/
theorem PassInv.walk (f : Forest NrSegment) {parent : Option NrSegment} {m : TreeToHeapMetadata}
    {n : ℕ} {ivs : List (ℕ × ℕ)} {window : Option (ℕ × ℕ)} {async : List (ℕ × ℕ)} {total : ℕ}
    (h : PassInv parent m n ivs window async total)
    (hordered : ∀ s ∈ f.labels, s.startTime ≤ s.stopTime)
    (hdistinct : (addresses f).Nodup)
    (hparent : ∀ p, parent = some p → p.address ∉ addresses f)
    (hroom : ivs.length + f.length ≤ n ∨ parent = none)
    (hmain : ∀ w, window = some w → async.length + f.labels.length ≤ w.1)
    (hsize : 2 * f.labels.length < 2 ^ 64) :
    let m' := f.walk nrSegmentStohIteratorCallback nrSegmentStohPostIteratorCallback parent m
    PassInv parent m' n (ivs ++ parentTimes parent f) window (async ++ asyncTimes f)
        (total + sweptSum f) ∧
      ∀ a ∉ addresses f, (∀ p, parent = some p → a ≠ p.address) →
        m'.exclusiveTime a = m.exclusiveTime a := by
  induction f generalizing parent m n ivs async total with
  | nil =>
      have hnone : parentTimes parent .nil = [] := by
        cases parent <;> rfl
      simpa [Forest.walk, hnone, asyncTimes, sweptSum] using h
  | node s children rest ihc ihr =>
      simp only [addresses, Forest.labels_node, List.map_cons, List.map_append,
        List.nodup_cons, List.mem_append, List.nodup_append, not_or, List.mem_cons,
        List.length_cons, List.length_append, Forest.length] at *
      obtain ⟨⟨hsc, hsr⟩, hcn, hrn, hcr⟩ := hdistinct
      have hlen := children.length_le_labels
      -- down: the segment itself
      obtain ⟨h₁, hrec, hframe₁⟩ := h.enter (s := s)
        (hordered s (Or.inl rfl)) (fun p hp => (hparent p hp).1)
        (hroom.imp_left fun hr => by omega) (fun w hw => by have := hmain w hw; omega)
        children.length (by omega)
      set m₁ := (nrSegmentStohIteratorCallback parent s children.length m).1 with hm₁
      -- the children, for which the segment is the parent
      have hinv : PassInv (some s) m₁ children.length [] window
          (async ++ asyncEntry s) total :=
        ⟨by rintro q ⟨⟩; exact hrec, h₁.main, h₁.total, h₁.results⟩
      have hentry := length_asyncEntry_le s
      obtain ⟨h₂, hframe₂⟩ := ihc hinv (fun x hx => hordered x (Or.inr (Or.inl hx))) hcn
        (by rintro q ⟨⟩; exact hsc) (Or.inl (by simp))
        (fun w hw => by have := hmain w hw; rw [List.length_append]; omega) (by omega)
      set m₂ := children.walk nrSegmentStohIteratorCallback nrSegmentStohPostIteratorCallback
        (some s) m₁ with hm₂
      -- the parent's record is not touched by them
      have h₂' : PassInv parent m₂ n (ivs ++ parentEntry parent s) window
          (async ++ asyncEntry s ++ asyncTimes children) (total + sweptSum children) := by
        refine ⟨fun p hp => ?_, h₂.main, h₂.total, h₂.results⟩
        rw [hframe₂ p.address (hparent p hp).2.1 (by rintro q ⟨⟩; exact (hparent p hp).1)]
        exact h₁.parent p hp
      have h₃ := h₂'.leave (h₂.parent s rfl)
      -- the trees after it
      have hpentry := length_parentEntry_le parent s
      have hasync := length_asyncTimes_le children
      obtain ⟨h₄, hframe₄⟩ := ihr h₃ (fun x hx => hordered x (Or.inr (Or.inr hx))) hrn
        (fun p hp => (hparent p hp).2.2)
        (hroom.imp_left fun hr => by rw [List.length_append]; omega)
        (fun w hw => by have := hmain w hw; simp only [List.length_append]; omega) (by omega)
      have heq : (Forest.node s children rest).walk nrSegmentStohIteratorCallback
          nrSegmentStohPostIteratorCallback parent m =
          rest.walk nrSegmentStohIteratorCallback nrSegmentStohPostIteratorCallback parent
            (nrSegmentStohPostIteratorCallback s m₂) := rfl
      simp only [heq]
      refine ⟨?_, ?_⟩
      · rw [parentTimes_node, asyncTimes_node, ← List.append_assoc, ← List.append_assoc,
          ← List.append_assoc]
        convert h₄ using 1
        simp only [sweptSum, List.nil_append, parentTimes]
        omega
      · intro a ha hap
        obtain ⟨has, hac, har⟩ := ha
        rw [hframe₄ a har hap]
        show m₂.exclusiveTime a = m.exclusiveTime a
        rw [hframe₂ a hac (by rintro q ⟨⟩; exact has), hframe₁ a has hap]

/-! ### The transaction -/

/-- With fewer children than the counter of the sweep can tell apart, the
sweeps add up to the sum of the exclusive durations. -/
theorem sweptSum_eq_exclusiveSum {f : Forest NrSegment}
    (hordered : ∀ s ∈ f.labels, s.startTime ≤ s.stopTime) (hfew : f.labels.length < 2 ^ 32) :
    sweptSum f = exclusiveSum f := by
  induction f with
  | nil => rfl
  | node s children rest ihc ihr =>
      simp only [Forest.labels_node, List.mem_cons, List.mem_append, List.length_cons,
        List.length_append] at hordered hfew
      have hrec : Records (some (recordOf children.length s.startTime s.stopTime
          (sameContextTimes s children))) children.length s.startTime s.stopTime
          (sameContextTimes s children) := ⟨hordered s (Or.inl rfl), rfl⟩
      have htimes : ∀ iv ∈ sameContextTimes s children, iv.1 ≤ iv.2 := by
        intro iv hiv
        obtain ⟨c, hc, rfl⟩ := List.mem_map.mp hiv
        exact hordered c (Or.inr (Or.inl
          (children.roots_sublist_labels.subset (List.mem_of_mem_filter hc))))
      have hlength : (sameContextTimes s children).length ≤ children.labels.length := by
        rw [sameContextTimes, List.length_map]
        exact (List.length_filter_le _ _).trans children.roots_sublist_labels.length_le
      rw [sweptSum, exclusiveSum, hrec.calculate htimes (by omega),
        ihc (fun x hx => hordered x (Or.inr (Or.inl hx))) (by omega),
        ihr (fun x hx => hordered x (Or.inr (Or.inr hx))) (by omega)]
      rfl

section Transaction

variable {txn : NrTxn} {root : OrderedTree NrSegment}

theorem WellFormedTree.duration_eq (h : WellFormedTree txn root) :
    nrTxnDuration txn = root.root.stopTime - root.root.startTime := by
  rw [nrTxnDuration, h.isRoot]
  exact nrTimeDuration_eq _ _

theorem WellFormedTree.duration_lt (h : WellFormedTree txn root) :
    nrTxnDuration txn < 2 ^ 64 := by
  have hroot := h.bounded root.root (by simp [OrderedTree.labels, OrderedTree.toForest])
  rw [h.duration_eq]
  omega

theorem WellFormedTree.firstPass_spec (h : WellFormedTree txn root)
    (hcount : 2 * txn.segmentCount < 2 ^ 64) (traceLimit spanLimit : ℕ) :
    let m := firstPass txn root traceLimit spanLimit
    m.totalTime = sweptSum root.toForest % 2 ^ 64 ∧ (∀ r ∈ m.addChildResults, r = true) ∧
      (txn.discountMainContextBlocking = true →
        Records m.mainContext txn.segmentCount 0 (nrTxnDuration txn)
          (asyncTimes root.toForest)) := by
  have hcounted : root.toForest.labels.length ≤ txn.segmentCount := h.counted
  have hstart : PassInv none (firstPassStart txn traceLimit spanLimit) 0 []
      (if txn.discountMainContextBlocking then some (txn.segmentCount, nrTxnDuration txn)
        else none) [] 0 := by
    refine ⟨fun p hp => absurd hp (by simp), ?_, rfl, by simp [firstPassStart]⟩
    cases hdiscount : txn.discountMainContextBlocking with
    | false => simp [MainRecords, firstPassStart, hdiscount]
    | true =>
        simp only [firstPassStart, hdiscount, if_true]
        exact records_create hcount (Nat.zero_le _)
  obtain ⟨hinv, -⟩ := hstart.walk root.toForest h.ordered h.distinct
    (fun p hp => absurd hp (by simp)) (Or.inr rfl)
    (fun w hw => by
      cases hdiscount : txn.discountMainContextBlocking with
      | false => simp [hdiscount] at hw
      | true =>
          simp only [hdiscount, if_true, Option.some.injEq] at hw
          subst hw
          simpa using hcounted)
    (by omega)
  refine ⟨?_, hinv.results, fun hdiscount => ?_⟩
  · have htotal := hinv.total
    rw [Nat.zero_add] at htotal
    exact htotal
  · have hmain := hinv.main
    rw [hdiscount, if_pos rfl] at hmain
    exact hmain

/-- With the exclusive time of the main context, the blocked time is what the
asynchronous segments cover. -/
theorem mainBlocked_eq {et : Option NrExclusiveTime} {count : ℕ} {f : Forest NrSegment}
    (hlt : nrTxnDuration txn < 2 ^ 64)
    (h : Records et count 0 (nrTxnDuration txn) (asyncTimes f))
    (hordered : ∀ s ∈ f.labels, s.startTime ≤ s.stopTime) (hfew : f.labels.length < 2 ^ 32) :
    mainBlocked txn et = blockedTime (nrTxnDuration txn) f := by
  have hasync : ∀ iv ∈ asyncTimes f, iv.1 ≤ iv.2 := by
    intro iv hiv
    obtain ⟨s, hs, rfl⟩ := List.mem_map.mp hiv
    exact hordered s (List.mem_of_mem_filter hs)
  have hlength := length_asyncTimes_le f
  have hle := blockedTime_le_duration (nrTxnDuration txn) f
  rw [mainBlocked, h.calculate hasync (by omega)]
  show (nrTxnDuration txn + 2 ^ 64 -
    (nrTxnDuration txn - 0 - blockedTime (nrTxnDuration txn) f)) % 2 ^ 64 = _
  omega

theorem WellFormedTree.totalTime_eq (h : WellFormedTree txn root)
    (hfew : txn.segmentCount < 2 ^ 32) (traceLimit spanLimit : ℕ) :
    (firstPass txn root traceLimit spanLimit).totalTime =
      exclusiveSum root.toForest % 2 ^ 64 := by
  have hcounted : root.toForest.labels.length ≤ txn.segmentCount := h.counted
  rw [(h.firstPass_spec (by omega) traceLimit spanLimit).1,
    sweptSum_eq_exclusiveSum h.ordered (by omega)]

theorem WellFormedTree.mainBlocked_eq_blockedTime (h : WellFormedTree txn root)
    (hfew : txn.segmentCount < 2 ^ 32) (hdiscount : txn.discountMainContextBlocking = true)
    (traceLimit spanLimit : ℕ) :
    mainBlocked txn (firstPass txn root traceLimit spanLimit).mainContext =
      blockedTime (nrTxnDuration txn) root.toForest := by
  have hcounted : root.toForest.labels.length ≤ txn.segmentCount := h.counted
  exact mainBlocked_eq h.duration_lt
    ((h.firstPass_spec (by omega) traceLimit spanLimit).2.2 hdiscount) h.ordered (by omega)

/-- What the first pass leaves of a transaction whose segments the counter of
the sweep can tell apart: the sum of the exclusive durations in 64 bits, room
found for every child, and the blocked time, which is part of that sum. -/
theorem totalTime_spec (h : WellFormedTree txn root) (hfew : txn.segmentCount < 2 ^ 32)
    (traceLimit spanLimit : ℕ) :
    let m := firstPass txn root traceLimit spanLimit
    let sum := exclusiveSum root.toForest
    let blocked := blockedTime (nrTxnDuration txn) root.toForest
    m.totalTime = sum % 2 ^ 64 ∧ (∀ r ∈ m.addChildResults, r = true) ∧ blocked ≤ sum ∧
      (txn.discountMainContextBlocking = true → mainBlocked txn m.mainContext = blocked) ∧
      finaliseTotalTime txn m =
        (if txn.discountMainContextBlocking then sum - blocked else sum) % 2 ^ 64 := by
  have htotal := h.totalTime_eq hfew traceLimit spanLimit
  have hresults := (h.firstPass_spec (by omega) traceLimit spanLimit).2.1
  have hle := blockedTime_le_exclusiveSum (nrTxnDuration txn) root.toForest
  have hblocked := fun hdiscount =>
    h.mainBlocked_eq_blockedTime hfew hdiscount traceLimit spanLimit
  refine ⟨htotal, hresults, hle, hblocked, ?_⟩
  rw [finaliseTotalTime, htotal]
  cases hdiscount : txn.discountMainContextBlocking with
  | false => simp
  | true =>
      have hduration := blockedTime_le_duration (nrTxnDuration txn) root.toForest
      have hlt := h.duration_lt
      rw [if_pos rfl, if_pos rfl, hblocked hdiscount]
      omega

end Transaction

/-! ### Particular transactions -/

/-- A transaction with the given tree that discounts main context blocking. -/
def discountTxn (root : OrderedTree NrSegment) (segmentCount : ℕ) : NrTxn :=
  { segmentRoot := some root, segmentCount, traceStrings := []
    discountMainContextBlocking := true, ttThreshold := 0, isSynthetics := false
    distributedTraceSampled := false, distributedTracingEnabled := false
    spanEventsEnabled := false }

/-- A root of ten ticks with a child in its context and one in another context
that outlives it. -/
def mixedTree : OrderedTree NrSegment :=
  ⟨plainSegment 0 0 0 10,
    .node (plainSegment 1 0 2 4) .nil (.node (plainSegment 2 1 3 12) .nil .nil)⟩

theorem wellFormed_mixedTree : WellFormedTree (discountTxn mixedTree 3) mixedTree :=
  ⟨rfl, by decide, by decide, by decide, by decide⟩

theorem totalTime_mixedTree :
    let txn := discountTxn mixedTree 3
    WellFormedTree txn mixedTree ∧ txn.segmentCount < 2 ^ 32 ∧
      finaliseTotalTime txn (firstPass txn mixedTree 0 0) = 12 := by
  refine ⟨wellFormed_mixedTree, by decide, ?_⟩
  rw [(totalTime_spec wellFormed_mixedTree (by decide) 0 0).2.2.2.2]
  decide

/-- A root of ten ticks and two other contexts, which run from its start for
`a` and `b` ticks. -/
def twoContexts (a b : ℕ) : OrderedTree NrSegment :=
  ⟨plainSegment 0 0 0 10,
    .node (plainSegment 1 1 0 a) .nil (.node (plainSegment 2 2 0 b) .nil .nil)⟩

theorem exclusiveSum_twoContexts (a b : ℕ) :
    exclusiveSum (twoContexts a b).toForest = 10 + (a + b) := by
  simp only [twoContexts, OrderedTree.toForest, exclusiveSum]
  rw [exclusiveDuration_of_sameContextTimes_eq_nil rfl,
    exclusiveDuration_of_sameContextTimes_eq_nil rfl,
    exclusiveDuration_of_sameContextTimes_eq_nil rfl]
  rfl

theorem blockedTime_twoContexts {a : ℕ} (ha : 10 ≤ a) (b : ℕ) :
    blockedTime 10 (twoContexts a b).toForest = 10 := by
  have hall : Finset.Ico 0 10 ∩ cover (asyncTimes (twoContexts a b).toForest) =
      Finset.Ico 0 10 := by
    rw [Finset.inter_eq_left]
    intro τ hτ
    rw [Finset.mem_Ico] at hτ
    refine mem_cover.mpr ⟨(0, a), ?_, Nat.zero_le _, by simp only; omega⟩
    simp [asyncTimes, twoContexts, OrderedTree.toForest, plainSegment, NrSegment.times]
  rw [blockedTime, hall, Nat.card_Ico]

theorem wellFormed_twoContexts {a b : ℕ} (ha : a < 2 ^ 64) (hb : b < 2 ^ 64) :
    WellFormedTree (discountTxn (twoContexts a b) 3) (twoContexts a b) where
  isRoot := rfl
  ordered := by simp [twoContexts, OrderedTree.labels, OrderedTree.toForest, plainSegment]
  bounded := by
    simp only [twoContexts, OrderedTree.labels, OrderedTree.toForest, plainSegment, Forest.labels_node,
      Forest.labels_nil, List.append_nil, List.nil_append, List.forall_mem_cons]
    exact ⟨by decide, ha, hb, by simp⟩
  distinct := by simp [twoContexts, OrderedTree.labels, OrderedTree.toForest, plainSegment]
  counted := le_refl 3

/-- `n` segments of one tick. -/
def leaves : ℕ → Forest NrSegment
  | 0 => .nil
  | n + 1 => .node (plainSegment (n + 1) 0 0 1) .nil (leaves n)

/-- A root of one tick with `n` children that run all the time. -/
def crowdedTree (n : ℕ) : OrderedTree NrSegment := ⟨plainSegment 0 0 0 1, leaves n⟩

section Crowded

variable (n : ℕ)

theorem length_labels_leaves : (leaves n).labels.length = n := by
  induction n with
  | zero => rfl
  | succ n ih => simp [leaves, ih]

theorem length_leaves : (leaves n).length = n := by
  induction n with
  | zero => rfl
  | succ n ih => simp [leaves, Forest.length, ih]

theorem mem_labels_leaves {s : NrSegment} (h : s ∈ (leaves n).labels) :
    ∃ i, 0 < i ∧ i ≤ n ∧ s = plainSegment i 0 0 1 := by
  induction n with
  | zero => simp [leaves] at h
  | succ n ih =>
      simp only [leaves, Forest.labels_node, Forest.labels_nil, List.nil_append,
        List.mem_cons] at h
      rcases h with rfl | h
      · exact ⟨n + 1, by omega, le_rfl, rfl⟩
      · obtain ⟨i, hpos, hle, hs⟩ := ih h
        exact ⟨i, hpos, by omega, hs⟩

theorem nodup_addresses_leaves : (addresses (leaves n)).Nodup := by
  induction n with
  | zero => exact List.nodup_nil
  | succ n ih =>
      simp only [addresses, leaves, Forest.labels_node, Forest.labels_nil, List.nil_append,
        List.map_cons, List.nodup_cons]
      refine ⟨fun hmem => ?_, ih⟩
      obtain ⟨s, hs, haddr⟩ := List.mem_map.mp hmem
      obtain ⟨i, -, hle, rfl⟩ := mem_labels_leaves n hs
      simp only [plainSegment] at haddr
      omega

theorem sameContextTimes_leaves (a b i : ℕ) :
    sameContextTimes (plainSegment i 0 a b) (leaves n) = List.replicate n (0, 1) := by
  induction n with
  | zero => rfl
  | succ n ih =>
      rw [List.replicate_succ, ← ih]
      simp [sameContextTimes, leaves, plainSegment, NrSegment.times]

theorem labels_crowdedTree {s : NrSegment} (h : s ∈ (crowdedTree n).labels) :
    ∃ i ≤ n, s = plainSegment i 0 0 1 := by
  simp only [crowdedTree, OrderedTree.labels, OrderedTree.toForest, Forest.labels_node, Forest.labels_nil,
    List.append_nil, List.mem_cons] at h
  rcases h with rfl | h
  · exact ⟨0, Nat.zero_le _, rfl⟩
  · obtain ⟨i, -, hle, hs⟩ := mem_labels_leaves n h
    exact ⟨i, hle, hs⟩

theorem wellFormed_crowdedTree :
    WellFormedTree (discountTxn (crowdedTree n) (n + 1)) (crowdedTree n) where
  isRoot := rfl
  ordered := by
    intro s hs
    obtain ⟨i, -, rfl⟩ := labels_crowdedTree n hs
    exact Nat.zero_le 1
  bounded := by
    intro s hs
    obtain ⟨i, -, rfl⟩ := labels_crowdedTree n hs
    show 1 < 2 ^ 64
    decide
  distinct := by
    simp only [crowdedTree, OrderedTree.labels, OrderedTree.toForest, Forest.labels_node,
      Forest.labels_nil, List.append_nil, List.map_cons, List.nodup_cons]
    refine ⟨fun hmem => ?_, nodup_addresses_leaves n⟩
    obtain ⟨s, hs, haddr⟩ := List.mem_map.mp hmem
    obtain ⟨i, hpos, -, rfl⟩ := mem_labels_leaves n hs
    simp only [plainSegment] at haddr
    omega
  counted := by
    simp [crowdedTree, OrderedTree.labels, OrderedTree.toForest, length_labels_leaves, discountTxn]

theorem exclusiveSum_leaves : exclusiveSum (leaves n) = n := by
  induction n with
  | zero => rfl
  | succ n ih =>
      rw [leaves, exclusiveSum, ih, exclusiveDuration_of_sameContextTimes_eq_nil rfl,
        exclusiveSum]
      simp only [plainSegment]
      omega

theorem inter_cover_replicate (hn : 0 < n) :
    Finset.Ico 0 1 ∩ cover (List.replicate n (0, 1)) = Finset.Ico 0 1 := by
  rw [Finset.inter_eq_left]
  intro τ hτ
  exact mem_cover.mpr ⟨(0, 1), List.mem_replicate.mpr ⟨by omega, rfl⟩, by simpa using hτ⟩

theorem exclusiveSum_crowdedTree (hn : 0 < n) :
    exclusiveSum (crowdedTree n).toForest = n := by
  have hroot : exclusiveDuration (plainSegment 0 0 0 1) (leaves n) = 0 := by
    rw [exclusiveDuration, sameContextTimes_leaves]
    simp only [plainSegment]
    rw [inter_cover_replicate n hn]
    rfl
  rw [crowdedTree, OrderedTree.toForest, exclusiveSum, hroot, exclusiveSum_leaves, exclusiveSum]
  omega

theorem sweptSum_leaves : sweptSum (leaves n) = n := by
  induction n with
  | zero => rfl
  | succ n ih =>
      have hleaf : nrExclusiveTimeCalculate (some (recordOf (Forest.nil : Forest NrSegment).length
          0 1 (sameContextTimes (plainSegment (n + 1) 0 0 1) .nil))) = 1 := rfl
      rw [leaves, sweptSum, ih, sweptSum]
      simp only [plainSegment] at hleaf ⊢
      rw [hleaf]
      omega

theorem calculateLoop_starts (et : NrExclusiveTime) (ts : List ExclusiveTimeTransition)
    (time last exclusive : ℕ) {k : ℕ} (hk : k < 2 ^ 32) :
    ∃ last', calculateLoop et (List.replicate n ⟨time, .childStart⟩ ++ ts) k last exclusive =
      calculateLoop et ts ((k + n) % 2 ^ 32) last' exclusive := by
  induction n generalizing k last with
  | zero => exact ⟨last, by rw [Nat.add_zero, Nat.mod_eq_of_lt hk]; rfl⟩
  | succ n ih =>
      obtain ⟨last', hlast'⟩ := ih
        (if k = 0 then if time > et.startTime then time else et.startTime else last)
        (Nat.mod_lt (k + 1) (by decide))
      refine ⟨last', ?_⟩
      rw [List.replicate_succ, List.cons_append, calculateLoop]
      simp only
      rw [hlast', Nat.mod_add_mod, Nat.add_right_comm, Nat.add_assoc]

theorem calculateLoop_idle_stops (et : NrExclusiveTime) (time last exclusive : ℕ) :
    calculateLoop et (List.replicate n ⟨time, .childStop⟩) 0 last exclusive = exclusive := by
  induction n with
  | zero => rfl
  | succ n ih =>
      rw [List.replicate_succ, calculateLoop]
      simpa using ih

theorem childTransitions_replicate_perm (a b : ℕ) :
    (List.replicate n (⟨a, .childStart⟩ : ExclusiveTimeTransition) ++
      List.replicate n (⟨b, .childStop⟩ : ExclusiveTimeTransition)).Perm
      (childTransitions (List.replicate n (a, b))) := by
  induction n with
  | zero => exact List.Perm.refl _
  | succ n ih =>
      rw [List.replicate_succ, List.replicate_succ, List.replicate_succ, childTransitions_cons,
        List.cons_append]
      exact ((List.perm_middle).trans (ih.cons _)).cons _

theorem sorted_replicate :
    (childTransitions (List.replicate n (0, 1))).mergeSort
        (fun a b => decide (nrExclusiveTimeTransitionCompare a b ≤ 0)) =
      List.replicate n ⟨0, .childStart⟩ ++ List.replicate n ⟨1, .childStop⟩ := by
  refine (eq_mergeSort_of_sorted (childTransitions_replicate_perm n 0 1) ?_).symm
  rw [List.pairwise_append]
  refine ⟨List.pairwise_replicate.mpr (Or.inr ?_), List.pairwise_replicate.mpr (Or.inr ?_), ?_⟩
  · exact Or.inr ⟨rfl, Or.inl rfl⟩
  · exact Or.inr ⟨rfl, Or.inr rfl⟩
  · intro a ha b hb
    rw [List.eq_of_mem_replicate ha, List.eq_of_mem_replicate hb]
    exact Or.inl Nat.zero_lt_one

/-- When the number of children is a multiple of the range of the counter, the
sweep believes that none is running when the first of them stops. -/
theorem calculate_crowded (hn : n % 2 ^ 32 = 0) :
    nrExclusiveTimeCalculate (some (recordOf n 0 1 (List.replicate n (0, 1)))) = 1 := by
  have hfilter : (List.replicate n (0, 1)).filter (touches 0 1) = List.replicate n (0, 1) := by
    simp [touches]
  rw [nrExclusiveTimeCalculate, recordOf, hfilter]
  simp only [sorted_replicate]
  split
  · rfl
  · obtain ⟨last', hlast'⟩ := calculateLoop_starts n
      { startTime := 0, stopTime := 1, capacity := 2 * n
        transitions := childTransitions (List.replicate n (0, 1)) }
      (List.replicate n ⟨1, .childStop⟩) 0 0 (nrTimeDuration 0 1) (show 0 < 2 ^ 32 by decide)
    rw [hlast', Nat.zero_add, hn, calculateLoop_idle_stops]
    rfl

theorem sweptSum_crowdedTree (hn : n % 2 ^ 32 = 0) :
    sweptSum (crowdedTree n).toForest = n + 1 := by
  have hroot := calculate_crowded n hn
  rw [crowdedTree, OrderedTree.toForest, sweptSum, sameContextTimes_leaves, length_leaves,
    sweptSum_leaves, sweptSum]
  simp only [plainSegment]
  rw [hroot]
  omega

end Crowded

/-- Twice the total time is not the sum of the exclusive durations: two long
contexts make the sum leave 64 bits, after which the blocked time is more
than what was added up, and with 2 ^ 32 children running at once the counter
of the sweep is back at zero. -/
theorem totalTime_wraps :
    (let root := twoContexts (2 ^ 63) (2 ^ 63 - 1)
      let txn := discountTxn root 3
      let m := firstPass txn root 0 0
      WellFormedTree txn root ∧ m.totalTime = 9 ∧ exclusiveSum root.toForest = 2 ^ 64 + 9 ∧
        mainBlocked txn m.mainContext = 10 ∧ finaliseTotalTime txn m = 2 ^ 64 - 1) ∧
    (let root := crowdedTree (2 ^ 32)
      let txn := discountTxn root (2 ^ 32 + 1)
      WellFormedTree txn root ∧ (firstPass txn root 0 0).totalTime = 2 ^ 32 + 1 ∧
        exclusiveSum root.toForest = 2 ^ 32) := by
  refine ⟨?_, wellFormed_crowdedTree _, ?_, exclusiveSum_crowdedTree _ (by decide)⟩
  · have hwf := wellFormed_twoContexts (a := 2 ^ 63) (b := 2 ^ 63 - 1) (by decide) (by decide)
    have htotal := hwf.totalTime_eq (show 3 < 2 ^ 32 by decide) 0 0
    have hblocked := hwf.mainBlocked_eq_blockedTime (show 3 < 2 ^ 32 by decide) rfl 0 0
    rw [exclusiveSum_twoContexts] at htotal
    have hduration : nrTxnDuration (discountTxn (twoContexts (2 ^ 63) (2 ^ 63 - 1)) 3) = 10 := rfl
    rw [hduration, blockedTime_twoContexts (by decide)] at hblocked
    have hnine : (10 + (2 ^ 63 + (2 ^ 63 - 1))) % 2 ^ 64 = 9 := by decide
    rw [hnine] at htotal
    refine ⟨hwf, htotal, ?_, hblocked, ?_⟩
    · rw [exclusiveSum_twoContexts]
      decide
    · have hdiscount : (discountTxn (twoContexts (2 ^ 63) (2 ^ 63 - 1))
          3).discountMainContextBlocking = true := rfl
      rw [finaliseTotalTime, if_pos hdiscount, htotal, hblocked]
      decide
  · have htotal := ((wellFormed_crowdedTree (2 ^ 32)).firstPass_spec
      (by simp only [discountTxn]; omega) 0 0).1
    rw [htotal, sweptSum_crowdedTree _ (by decide)]
    omega

end AxiomDaemon.Axiom

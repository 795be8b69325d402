import AxiomDaemon.Axiom.TxnSegments
import AxiomDaemon.Lib.Transition
import Mathlib.Data.Set.Card

/-!
The count of the segments of a transaction against the tree that the count is
used for.

A run is any sequence of starts, ends, discards and ends of external segments
that keeps to what callers must keep to: a segment is ended at most once, only
ended segments are discarded, and a segment that was discarded or rolled up is
not used again. The ledger of a run says which segments were ended and which
were taken out; the count is about the former, the tree about the links.
-/

namespace AxiomDaemon.Axiom

open AxiomDaemon.Lib

/-- A call on the segments of a transaction, at the time of a clock. -/
inductive SegmentCall
  | start (parent asyncContext : Option ℕ) (now : ℕ)
  | finish (segment now : ℕ)
  | finishExternal (segment : ℕ) (params : ExternalParams) (now : ℕ)
  | discard (segment : ℕ)

/-- A transaction with the ledger of its run. -/
structure SegmentRun where
  txn : SegmentTxn
  ended : ℕ → Bool
  removed : ℕ → Bool

namespace SegmentRun

def begin (absStartTime now : ℕ) : SegmentRun :=
  { txn := nrTxnBegin absStartTime now, ended := fun _ => false, removed := fun _ => false }

/-- A segment that was started and neither discarded nor rolled up. -/
def Live (s : SegmentRun) (segment : ℕ) : Prop :=
  segment < s.txn.used ∧ s.removed segment = false

def exec (s : SegmentRun) : SegmentCall → SegmentRun
  | .start parent asyncContext now =>
      { s with txn := (nrSegmentStart s.txn parent asyncContext now).2 }
  | .finish segment now =>
      { s with
        txn := nrSegmentEnd s.txn segment now
        ended := Function.update s.ended segment true }
  | .finishExternal segment params now =>
      let (rolledUp, txn) := nrSegmentExternalEnd s.txn segment params now
      { txn
        ended := Function.update s.ended segment true
        removed := Function.update s.removed segment rolledUp }
  | .discard segment =>
      let (discarded, txn) := nrSegmentDiscard s.txn segment
      { s with txn, removed := Function.update s.removed segment discarded }

/-- What callers keep to. -/
def Allowed (s : SegmentRun) : SegmentCall → Prop
  | .start parent _ _ => ∀ p ∈ parent, s.Live p
  | .finish segment _ => s.Live segment ∧ s.ended segment = false
  | .finishExternal segment _ _ => s.Live segment ∧ s.ended segment = false
  | .discard segment => s.Live segment ∧ s.ended segment = true

/-- The segments that the count should be about: ended, and not taken out. -/
def counted (s : SegmentRun) : Finset ℕ :=
  (Finset.range s.txn.used).filter fun a => s.ended a = true ∧ s.removed a = false

end SegmentRun

/-! ### The links -/

/-- The links of the segments of a run: those that came from the slab are below
`used`, and nothing hangs on one that was taken out. -/
structure SegmentForest (l : Links ℕ) (used : ℕ) (removed : ℕ → Bool) : Prop where
  root : l.parent 0 = none
  fresh : ∀ a, used ≤ a → l.parent a = none ∧ l.children a = []
  consistent : l.Consistent
  child_lt : ∀ {p c}, c ∈ l.children p → c < used
  parent_lt : ∀ {p c}, l.parent c = some p → p < c
  gone : ∀ {a}, removed a = true → ∀ p, a ∉ l.children p

namespace SegmentForest

variable {l : Links ℕ} {used : ℕ} {removed : ℕ → Bool} (h : SegmentForest l used removed)

include h

theorem not_mem_of_le {a : ℕ} (ha : used ≤ a) (p : ℕ) : a ∉ l.children p := by
  intro hmem
  have := h.child_lt hmem
  omega

theorem start (hnew : removed used = false) {parent : Option ℕ}
    (hparent : ∀ p, parent = some p → p < used) (hused : 0 < used) :
    SegmentForest (l.attachUnder parent used) (used + 1) removed := by
  cases parent with
  | none =>
      exact ⟨h.root, fun a ha => h.fresh a (by omega), h.consistent,
        fun hc => Nat.lt_succ_of_lt (h.child_lt hc), h.parent_lt, h.gone⟩
  | some p =>
      have hp : p < used := hparent p rfl
      have hnone : ∀ q, used ∉ l.children q := h.not_mem_of_le (Nat.le_refl used)
      refine ⟨?_, ?_, h.consistent.attach hnone, ?_, ?_, ?_⟩
      · show Function.update l.parent used (some p) 0 = none
        rw [Function.update_of_ne (by omega), h.root]
      · intro a ha
        have hfresh := h.fresh a (by omega)
        refine ⟨?_, ?_⟩
        · show Function.update l.parent used (some p) a = none
          rw [Function.update_of_ne (by omega), hfresh.1]
        · show Function.update l.children p _ a = []
          rw [Function.update_of_ne (by omega), hfresh.2]
      · intro q c hc
        rcases Links.mem_children_attach.mp hc with hold | ⟨-, rfl⟩
        · exact Nat.lt_succ_of_lt (h.child_lt hold)
        · exact Nat.lt_succ_self _
      · intro q c hc
        have hc' : Function.update l.parent used (some p) c = some q := hc
        by_cases hcu : c = used
        · rw [hcu, Function.update_self] at hc'
          obtain rfl := Option.some.inj hc'
          omega
        · rw [Function.update_of_ne hcu] at hc'
          exact h.parent_lt hc'
      · intro a ha q hmem
        rcases Links.mem_children_attach.mp hmem with hold | ⟨-, rfl⟩
        · exact h.gone ha q hold
        · rw [hnew] at ha
          cases ha

theorem takeOut {a p : ℕ} {m : Links ℕ} (hp : l.parent a = some p)
    (hparent : m.parent = l.parent)
    (hsub : ∀ q, (m.children q).Sublist ((l.detach p a).children q)) :
    SegmentForest m used (Function.update removed a true) := by
  have hold : ∀ {q c}, c ∈ m.children q → c ∈ l.children q := fun hc =>
    ((Links.mem_children_detach h.consistent).mp ((hsub _).subset hc)).1
  refine ⟨by rw [hparent, h.root], ?_, (h.consistent.detach p a).of_sublist hparent hsub,
    fun hc => h.child_lt (hold hc), fun hc => h.parent_lt (hparent ▸ hc), ?_⟩
  · intro b hb
    refine ⟨by rw [hparent, (h.fresh b hb).1], List.eq_nil_iff_forall_not_mem.mpr fun c hc => ?_⟩
    have := hold hc
    rw [(h.fresh b hb).2] at this
    cases this
  · intro b hb q hmem
    by_cases hba : b = a
    · subst hba
      exact h.consistent.not_mem_detach hp q ((hsub q).subset hmem)
    · rw [Function.update_of_ne hba] at hb
      exact h.gone hb q (hold hmem)

theorem discard {a p : ℕ} (hp : l.parent a = some p) :
    SegmentForest ((l.detach p a).splice p a) used (Function.update removed a true) := by
  have hpa : p ≠ a := Nat.ne_of_lt (h.parent_lt hp)
  have hdetach := h.takeOut (m := l.detach p a) hp rfl fun q => List.Sublist.refl _
  have hused : a < used := by
    by_contra hle
    rw [(h.fresh a (by omega)).1] at hp
    cases hp
  refine ⟨?_, ?_, hdetach.consistent.splice hpa, ?_, ?_, ?_⟩
  · show (if 0 ∈ (l.detach p a).children a then some p else l.parent 0) = none
    rw [if_neg, h.root]
    intro hmem
    have := hdetach.consistent.parent_of_mem hmem
    rw [hdetach.root] at this
    cases this
  · intro b hb
    refine ⟨?_, List.eq_nil_iff_forall_not_mem.mpr fun c hc => ?_⟩
    · show (if b ∈ (l.detach p a).children a then some p else l.parent b) = none
      rw [if_neg (hdetach.not_mem_of_le hb a), (h.fresh b hb).1]
    · rcases (Links.mem_children_splice hpa).mp hc with ⟨-, hmem⟩ | ⟨rfl, -⟩
      · rw [(hdetach.fresh b hb).2] at hmem
        cases hmem
      · have := h.parent_lt hp
        omega
  · intro q c hc
    rcases (Links.mem_children_splice hpa).mp hc with ⟨-, hmem⟩ | ⟨-, hmem⟩
    · exact hdetach.child_lt hmem
    · exact hdetach.child_lt hmem
  · intro q c hc
    have hc' : (if c ∈ (l.detach p a).children a then some p else l.parent c) = some q := hc
    split at hc'
    · next hmem =>
        obtain rfl := Option.some.inj hc'
        have hca := hdetach.parent_lt (hdetach.consistent.parent_of_mem hmem)
        have hap := h.parent_lt hp
        omega
    · exact h.parent_lt hc'
  · intro b hb q hmem
    rcases (Links.mem_children_splice hpa).mp hmem with ⟨-, hmem⟩ | ⟨-, hmem⟩
    · exact hdetach.gone hb q hmem
    · exact hdetach.gone hb a hmem

/-- What is found from the root came from the slab and was not taken out. -/
theorem live_of_reachable (hused : 0 < used) (hroot : removed 0 = false) {a : ℕ}
    (ha : l.Reachable 0 a) : a < used ∧ removed a = false := by
  rcases ha.cases_root with rfl | ⟨p, hmem⟩
  · exact ⟨hused, hroot⟩
  · refine ⟨h.child_lt hmem, Bool.eq_false_iff.mpr fun hr => h.gone hr p hmem⟩

end SegmentForest

/-! ### The stacks -/

/-- A segment is on the stack of its context, and only until it is ended. -/
structure SegmentStacks (txn : SegmentTxn) (ended removed : ℕ → Bool) : Prop where
  keys : txn.StackKeys
  mem : ∀ {k a}, a ∈ txn.stack k →
    a < txn.used ∧ (txn.segment a).asyncContext = k ∧ ended a = false ∧ removed a = false
  nodup : ∀ k, (txn.stack k).Nodup

namespace SegmentStacks

variable {txn txn' : SegmentTxn} {ended removed : ℕ → Bool} (h : SegmentStacks txn ended removed)

include h

theorem retains (hretains : txn.Retains txn') : SegmentStacks txn' ended removed where
  keys := hretains.stackKeys h.keys
  mem := by
    intro k a ha
    rw [hretains.stack] at ha
    rw [hretains.frame.used, hretains.asyncContext]
    exact h.mem ha
  nodup := fun k => by
    rw [hretains.stack]
    exact h.nodup k

theorem init (hended : ended txn.used = false) (hremoved : removed txn.used = false)
    (parent asyncContext : Option ℕ) (now : ℕ) :
    SegmentStacks (nrSegmentInit { txn with used := txn.used + 1 } txn.used parent asyncContext now)
      ended removed := by
  have hkeys : SegmentTxn.StackKeys { txn with used := txn.used + 1 } :=
    ⟨h.keys.nodup, h.keys.ne_zero, h.keys.empty⟩
  have hstack : ∀ k, _ = _ := nrSegmentInit_stack hkeys txn.used parent asyncContext now
  have hframe := nrSegmentInit_frame { txn with used := txn.used + 1 } txn.used parent asyncContext
    now
  have hnew : ∀ k, txn.used ∉ txn.stack k := fun k hmem => Nat.lt_irrefl _ (h.mem hmem).1
  refine ⟨hkeys.init txn.used parent asyncContext now, ?_, ?_⟩
  · intro k a ha
    rw [hframe.used]
    rw [hstack] at ha
    have hcases : (a = txn.used ∧ k = asyncContext.getD 0) ∨ a ∈ txn.stack k := by
      split at ha
      · next hpushed =>
          rcases List.mem_cons.mp ha with rfl | hold
          · exact Or.inl ⟨rfl, hpushed.2⟩
          · exact Or.inr hold
      · exact Or.inr ha
    rcases hcases with ⟨rfl, rfl⟩ | hold
    · obtain ⟨parent', children, hself⟩ := nrSegmentInit_segment_self
        { txn with used := txn.used + 1 } txn.used parent asyncContext now
      exact ⟨Nat.lt_succ_self _, by rw [hself], hended, hremoved⟩
    · have hne : a ≠ txn.used := fun heq => hnew k (heq ▸ hold)
      obtain ⟨children, hother⟩ := nrSegmentInit_segment_of_ne
        { txn with used := txn.used + 1 } hne parent asyncContext now
      obtain ⟨hlt, hcontext, hopen⟩ := h.mem hold
      exact ⟨Nat.lt_succ_of_lt hlt, by rw [hother]; exact hcontext, hopen⟩
  · intro k
    rw [hstack]
    split
    · exact List.nodup_cons.mpr ⟨hnew k, h.nodup k⟩
    · exact h.nodup k

theorem live_startParent {parent asyncContext : Option ℕ} {p : ℕ}
    (hparent : ∀ q ∈ parent, q < txn.used ∧ removed q = false)
    (hp : startParent txn parent asyncContext = some p) : p < txn.used ∧ removed p = false := by
  have hstack : ∀ k, (txn.stack k).head? = some p → p < txn.used ∧ removed p = false := by
    intro k hhead
    have hmem := h.mem (List.mem_of_head? hhead)
    exact ⟨hmem.1, hmem.2.2.2⟩
  have hcurrent : ∀ context, nrTxnGetCurrentSegment txn context = some p →
      p < txn.used ∧ removed p = false := by
    intro context hcontext
    match context, hcontext with
    | none, hcontext => exact hstack 0 hcontext
    | some (k + 1), hcontext => exact hstack (k + 1) hcontext
  cases parent with
  | some q =>
      obtain rfl := Option.some.inj hp
      exact hparent q rfl
  | none =>
      have hp' : defaultParent txn asyncContext = some p := hp
      unfold defaultParent at hp'
      split at hp'
      · exact hcurrent none hp'
      · exact hcurrent _ hp'

theorem not_mem_ended {a : ℕ} (hend : txn.Ended a txn') (k : ℕ) : a ∉ txn'.stack k := by
  intro hmem
  rw [hend.stack] at hmem
  split at hmem
  · exact (h.nodup k).not_mem_erase hmem
  · next hk => exact hk (h.mem hmem).2.1.symm

theorem finish {a : ℕ} (hend : txn.Ended a txn') :
    SegmentStacks txn' (Function.update ended a true) removed where
  keys := hend.stackKeys h.keys
  mem := by
    intro k b hb
    have hne : b ≠ a := fun heq => h.not_mem_ended hend k (heq ▸ hb)
    have hold : b ∈ txn.stack k := by
      rw [hend.stack] at hb
      split at hb
      · exact List.mem_of_mem_erase hb
      · exact hb
    rw [hend.frame.used, hend.asyncContext, Function.update_of_ne hne]
    exact h.mem hold
  nodup := by
    intro k
    rw [hend.stack]
    split
    · exact (h.nodup k).erase a
    · exact h.nodup k

theorem remove {a : ℕ} (ha : ended a = true) (b : Bool) :
    SegmentStacks txn ended (Function.update removed a b) where
  keys := h.keys
  mem := by
    intro k c hc
    obtain ⟨hlt, hcontext, hopen, hremoved⟩ := h.mem hc
    have hne : c ≠ a := by
      rintro rfl
      rw [ha] at hopen
      cases hopen
    rw [Function.update_of_ne hne]
    exact ⟨hlt, hcontext, hopen, hremoved⟩
  nodup := h.nodup

end SegmentStacks

/-! ### The invariant of a run -/

namespace SegmentRun

/-- What holds in every state of a run. -/
structure Invariant (s : SegmentRun) : Prop where
  recording : s.txn.recording = true
  ignore : s.txn.ignore = false
  complete : s.txn.complete = false
  root : s.txn.segmentRoot = 0
  rootUsed : 0 < s.txn.used
  rootNotRemoved : s.removed 0 = false
  forest : SegmentForest s.txn.links s.txn.used s.removed
  onStacks : SegmentStacks s.txn s.ended s.removed
  ended_lt : ∀ {a}, s.ended a = true → a < s.txn.used
  ended_of_removed : ∀ {a}, s.removed a = true → s.ended a = true
  count : s.txn.segmentCount = s.counted.card

theorem mem_counted {s : SegmentRun} {a : ℕ} :
    a ∈ s.counted ↔ a < s.txn.used ∧ s.ended a = true ∧ s.removed a = false := by
  simp only [counted, Finset.mem_filter, Finset.mem_range]

/-- A segment that is not rolled up leaves the ledger of removed ones alone. -/
theorem Live.update_false {s : SegmentRun} {a : ℕ} (ha : s.Live a) :
    Function.update s.removed a false = s.removed := by
  rw [← ha.2, Function.update_eq_self]

section Steps

variable {s : SegmentRun} (h : s.Invariant)

include h

theorem Invariant.live_startParent {parent asyncContext : Option ℕ} {p : ℕ}
    (hparent : ∀ q ∈ parent, s.Live q) (hp : startParent s.txn parent asyncContext = some p) :
    s.Live p :=
  h.onStacks.live_startParent hparent hp

theorem Invariant.links_init (parent asyncContext : Option ℕ) (now : ℕ) :
    (nrSegmentInit { s.txn with used := s.txn.used + 1 } s.txn.used parent asyncContext now).links =
      s.txn.links.attachUnder (startParent s.txn parent asyncContext) s.txn.used := by
  have hfresh := h.forest.fresh s.txn.used (Nat.le_refl _)
  exact nrSegmentInit_links { s.txn with used := s.txn.used + 1 } hfresh.1 hfresh.2 parent
    asyncContext now

theorem Invariant.start {parent asyncContext : Option ℕ} (now : ℕ)
    (hparent : ∀ p ∈ parent, s.Live p) :
    (s.exec (.start parent asyncContext now)).Invariant := by
  have hended : s.ended s.txn.used = false :=
    Bool.eq_false_iff.mpr fun he => Nat.lt_irrefl _ (h.ended_lt he)
  have hremoved : s.removed s.txn.used = false :=
    Bool.eq_false_iff.mpr fun hr => Nat.lt_irrefl _ (h.ended_lt (h.ended_of_removed hr))
  have hstart : (nrSegmentStart s.txn parent asyncContext now).2 =
      nrSegmentInit { s.txn with used := s.txn.used + 1 } s.txn.used parent asyncContext now := by
    rw [nrSegmentStart_of_recording h.recording]
  have hframe := nrSegmentInit_frame { s.txn with used := s.txn.used + 1 } s.txn.used parent
    asyncContext now
  have hlinks := h.links_init parent asyncContext now
  have hforest : SegmentForest
      (s.txn.links.attachUnder (startParent s.txn parent asyncContext) s.txn.used)
      (s.txn.used + 1) s.removed := h.forest.start hremoved
    (fun p hp => (h.live_startParent hparent hp).1) h.rootUsed
  have hstacks := h.onStacks.init hended hremoved parent asyncContext now
  have hcount := nrSegmentInit_segmentCount { s.txn with used := s.txn.used + 1 } s.txn.used parent
    asyncContext now
  have hset : (Finset.range (s.txn.used + 1)).filter
      (fun a => s.ended a = true ∧ s.removed a = false) = s.counted := by
    rw [Finset.range_add_one, Finset.filter_insert, if_neg, counted]
    rw [hended]
    exact fun he => nomatch he.1
  simp only [exec, hstart]
  refine ⟨hframe.recording.trans h.recording, hframe.ignore.trans h.ignore,
    hframe.complete.trans h.complete, hframe.segmentRoot.trans h.root, ?_, h.rootNotRemoved, ?_,
    hstacks, ?_, h.ended_of_removed, ?_⟩
  · rw [hframe.used]
    exact Nat.succ_pos _
  · rw [hlinks, hframe.used]
    exact hforest
  · intro a ha
    rw [hframe.used]
    exact Nat.lt_succ_of_lt (h.ended_lt ha)
  · rw [hcount]
    simp only [counted, hframe.used]
    rw [hset]
    exact h.count

theorem Invariant.finish {a : ℕ} (ha : s.Live a) (hopen : s.ended a = false) {txn' : SegmentTxn}
    (hend : s.txn.Ended a txn') :
    Invariant { s with txn := txn', ended := Function.update s.ended a true } := by
  have hused := hend.frame.used
  have hset : counted { s with txn := txn', ended := Function.update s.ended a true } =
      insert a s.counted := by
    ext b
    simp only [mem_counted, Finset.mem_insert, hused]
    by_cases hb : b = a
    · subst hb
      simp only [Function.update_self, true_and, true_or, iff_true]
      exact ha
    · simp only [Function.update_of_ne hb, hb, false_or]
  have hnot : a ∉ s.counted := by
    rw [mem_counted, hopen]
    exact fun hmem => nomatch hmem.2.1
  refine ⟨hend.frame.recording.trans h.recording, hend.frame.ignore.trans h.ignore,
    hend.frame.complete.trans h.complete, hend.frame.segmentRoot.trans h.root, ?_,
    h.rootNotRemoved, ?_, h.onStacks.finish hend, ?_, ?_, ?_⟩
  · exact hused ▸ h.rootUsed
  · show SegmentForest txn'.links txn'.used s.removed
    rw [hend.links, hused]
    exact h.forest
  · intro b hb
    show b < txn'.used
    rw [hused]
    by_cases hba : b = a
    · exact hba ▸ ha.1
    · exact h.ended_lt ((Function.update_of_ne hba ..).symm.trans hb)
  · intro b hb
    by_cases hba : b = a
    · subst hba
      exact Function.update_self ..
    · exact (Function.update_of_ne hba ..).trans (h.ended_of_removed hb)
  · rw [hset, Finset.card_insert_of_notMem hnot, Nat.cast_succ]
    show txn'.segmentCount = _
    rw [hend.segmentCount, h.count]

theorem Invariant.remove {a : ℕ} (ha : s.Live a) (hended : s.ended a = true) {txn' : SegmentTxn}
    (hretains : s.txn.Retains txn') (hcount : txn'.segmentCount = s.txn.segmentCount - 1)
    (hparent : s.txn.links.parent a ≠ none)
    (hforest : SegmentForest txn'.links s.txn.used (Function.update s.removed a true)) :
    Invariant { s with txn := txn', removed := Function.update s.removed a true } := by
  have hframe := hretains.frame
  have hset : counted { s with txn := txn', removed := Function.update s.removed a true } =
      s.counted.erase a := by
    ext b
    simp only [mem_counted, Finset.mem_erase, hframe.used]
    by_cases hb : b = a
    · subst hb
      simp
    · simp only [Function.update_of_ne hb, ne_eq, hb, not_false_eq_true, true_and]
  have hmem : a ∈ s.counted := mem_counted.mpr ⟨ha.1, hended, ha.2⟩
  have hpos : 0 < s.counted.card := Finset.card_pos.mpr ⟨a, hmem⟩
  refine ⟨hframe.recording.trans h.recording, hframe.ignore.trans h.ignore,
    hframe.complete.trans h.complete, hframe.segmentRoot.trans h.root,
    hframe.used.symm ▸ h.rootUsed, ?_, ?_, (h.onStacks.remove hended true).retains hretains, ?_, ?_,
    ?_⟩
  · show Function.update s.removed a true 0 = false
    rw [Function.update_of_ne, h.rootNotRemoved]
    rintro rfl
    exact hparent h.forest.root
  · show SegmentForest txn'.links txn'.used _
    rw [hframe.used]
    exact hforest
  · intro b hb
    show b < txn'.used
    rw [hframe.used]
    exact h.ended_lt hb
  · intro b hb
    by_cases hba : b = a
    · exact hba ▸ hended
    · exact h.ended_of_removed ((Function.update_of_ne hba ..).symm.trans hb)
  · rw [hset, Finset.card_erase_of_mem hmem]
    show txn'.segmentCount = _
    rw [hcount, h.count]
    omega

theorem Invariant.finishExternal {a : ℕ} (ha : s.Live a) (hopen : s.ended a = false)
    (params : ExternalParams) (now : ℕ) : (s.exec (.finishExternal a params now)).Invariant := by
  set txn' := externalEnded s.txn a params now with htxn'
  have hend : s.txn.Ended a txn' := ended_externalEnded s.txn a params now
  have hended := h.finish ha hopen hend
  have hkept : ∀ t, nrSegmentExternalEnd s.txn a params now = (false, t) → t = txn' →
      (s.exec (.finishExternal a params now)).Invariant := by
    intro t ht htt
    simp only [SegmentRun.exec, ht, htt, ha.update_false]
    exact hended
  cases hrollup : params.doRollup with
  | false =>
      apply hkept txn' _ rfl
      simp only [nrSegmentExternalEnd, hrollup, Bool.false_eq_true, if_false, htxn']
  | true =>
      have hexternal : nrSegmentExternalEnd s.txn a params now = nrSegmentExternalRollup txn' a := by
        simp only [nrSegmentExternalEnd, hrollup, if_true, htxn']
      rcases nrSegmentExternalRollup_cases txn' a with hno | ⟨p, t, ht, hp, hretains, hcount,
        hparent, hsub, -⟩
      · exact hkept txn' (hexternal.trans hno) rfl
      · have hforest := hended.forest.takeOut hp hparent hsub
        have hlive : SegmentRun.Live { s with txn := txn', ended := Function.update s.ended a true }
            a := ⟨hend.frame.used.symm ▸ ha.1, ha.2⟩
        have hgone := hended.remove hlive (Function.update_self ..) hretains hcount
          (by rw [hp]; exact nofun) hforest
        simp only [SegmentRun.exec, hexternal.trans ht]
        exact hgone

theorem Invariant.discard {a : ℕ} (ha : s.Live a) (hended : s.ended a = true) :
    (s.exec (.discard a)).Invariant := by
  cases hp : s.txn.links.parent a with
  | none =>
      simp only [SegmentRun.exec, nrSegmentDiscard_of_root hp, ha.update_false]
      exact h
  | some p =>
      obtain ⟨htrue, hretains, hcount, hlinks⟩ := nrSegmentDiscard_of_parent hp
      have hforest := h.forest.discard hp
      rw [← hlinks] at hforest
      have hgone := h.remove ha hended hretains hcount (by rw [hp]; exact nofun) hforest
      simp only [SegmentRun.exec, htrue]
      exact hgone

theorem Invariant.exec (call : SegmentCall) (hcall : s.Allowed call) :
    (s.exec call).Invariant := by
  cases call with
  | start parent asyncContext now => exact h.start now hcall
  | finish a now => exact h.finish hcall.1 hcall.2 (ended_nrSegmentEnd s.txn a now)
  | finishExternal a params now => exact h.finishExternal hcall.1 hcall.2 params now
  | discard a => exact h.discard hcall.1 hcall.2

end Steps

theorem segmentForest_emptyTxn (absStartTime : ℕ) (removed : ℕ → Bool) :
    SegmentForest (emptyTxn absStartTime).links 1 removed where
  root := rfl
  fresh := fun _ _ => ⟨rfl, rfl⟩
  consistent := ⟨nofun, fun _ => List.nodup_nil⟩
  child_lt := nofun
  parent_lt := nofun
  gone := fun _ _ => List.not_mem_nil

theorem segmentStacks_emptyTxn (absStartTime : ℕ) :
    SegmentStacks (emptyTxn absStartTime) (fun _ => false) (fun _ => false) := by
  have hnil : ∀ k, (emptyTxn absStartTime).stack k = [] := by
    intro k
    unfold SegmentTxn.stack
    split <;> rfl
  refine ⟨⟨List.nodup_nil, List.not_mem_nil, fun _ _ => rfl⟩, ?_, ?_⟩
  · intro k a ha
    rw [hnil] at ha
    cases ha
  · intro k
    rw [hnil]
    exact List.nodup_nil

theorem invariant_begin (absStartTime now : ℕ) : (begin absStartTime now).Invariant := by
  set started := nrSegmentInit { emptyTxn absStartTime with used := 1 } 0 none none now with hstarted
  have hframe := nrSegmentInit_frame { emptyTxn absStartTime with used := 1 } 0 none none now
  rw [← hstarted] at hframe
  have hlinks : started.links = (emptyTxn absStartTime).links :=
    nrSegmentInit_links { emptyTxn absStartTime with used := 1 } rfl rfl none none now
  have hcount : started.segmentCount = 0 :=
    nrSegmentInit_segmentCount { emptyTxn absStartTime with used := 1 } 0 none none now
  have hstacks : SegmentStacks started (fun _ => false) (fun _ => false) :=
    (segmentStacks_emptyTxn absStartTime).init rfl rfl none none now
  have hbegin : nrTxnBegin absStartTime now =
      started.modify 0 fun s => { s with startTime := 0 } := by
    have hroot : started.segmentRoot = 0 := hframe.segmentRoot
    rw [← hroot]
    rfl
  have hretains : started.Retains (started.modify 0 fun s => { s with startTime := 0 }) :=
    .modify started 0 (f := fun s => { s with startTime := 0 }) fun _ => rfl
  have hlinks' : (started.modify 0 fun s => { s with startTime := 0 }).links = started.links :=
    started.links_modify (f := fun s => { s with startTime := 0 }) (fun _ => rfl) (fun _ => rfl)
  have hforest := segmentForest_emptyTxn absStartTime fun _ => false
  rw [← hlinks, ← hlinks'] at hforest
  simp only [begin, hbegin]
  have hused : (started.modify 0 fun s => { s with startTime := 0 }).used = 1 := hframe.used
  refine ⟨hframe.recording, hframe.ignore, hframe.complete, hframe.segmentRoot, ?_, rfl, ?_,
    hstacks.retains hretains, nofun, nofun, ?_⟩
  · rw [hused]
    exact Nat.one_pos
  · rw [hused]
    exact hforest
  · show started.segmentCount = _
    rw [hcount, counted, Finset.filter_false_of_mem (fun _ _ h => nomatch h.1), Finset.card_empty]
    rfl

theorem invariant_of_run {absStartTime now : ℕ} {calls : List SegmentCall}
    (hcalls : Along exec Allowed (begin absStartTime now) calls) :
    (runFrom exec (begin absStartTime now) calls).Invariant :=
  (throughout_of_along (fun _ call h hcall => h.exec call hcall) (invariant_begin absStartTime now)
    hcalls).last

/-! ### Runs that lose no segment -/

/-- The caller leaves the end of the root to the transaction, and rolls up only
segments that have no children. -/
def Kept (s : SegmentRun) : SegmentCall → Prop
  | .start _ _ _ => True
  | .finish segment _ => segment ≠ s.txn.segmentRoot
  | .finishExternal segment params _ =>
      segment ≠ s.txn.segmentRoot ∧
        (params.doRollup = true → (s.txn.segment segment).children = [])
  | .discard _ => True

/-- Every segment that is still used hangs in the tree. -/
structure Attached (s : SegmentRun) : Prop where
  rootOpen : s.ended 0 = false
  rootOnStack : 0 ∈ s.txn.stack 0
  attached : ∀ c, s.Live c → c ≠ 0 → s.txn.links.AttachedTo s.Live c

section Kept

variable {s : SegmentRun} (h : s.Invariant) (hk : s.Attached)

include h hk

theorem Attached.start {parent asyncContext : Option ℕ} (now : ℕ)
    (hparent : ∀ p ∈ parent, s.Live p) :
    (s.exec (.start parent asyncContext now)).Attached := by
  have hstart : (nrSegmentStart s.txn parent asyncContext now).2 =
      nrSegmentInit { s.txn with used := s.txn.used + 1 } s.txn.used parent asyncContext now := by
    rw [nrSegmentStart_of_recording h.recording]
  obtain ⟨p, hp⟩ := exists_startParent hk.rootOnStack parent asyncContext
  have hlive := h.live_startParent hparent hp
  have hlinks := h.links_init parent asyncContext now
  have hused : (nrSegmentInit { s.txn with used := s.txn.used + 1 } s.txn.used parent asyncContext
      now).used = s.txn.used + 1 := (nrSegmentInit_frame _ _ parent asyncContext now).used
  have hkeys : SegmentTxn.StackKeys { s.txn with used := s.txn.used + 1 } :=
    ⟨h.onStacks.keys.nodup, h.onStacks.keys.ne_zero, h.onStacks.keys.empty⟩
  have hstack := nrSegmentInit_stack hkeys s.txn.used parent asyncContext now 0
  rw [hp] at hlinks
  simp only [exec, hstart]
  refine ⟨hk.rootOpen, ?_, ?_⟩
  · rw [hstack]
    split
    · exact List.mem_cons_of_mem _ hk.rootOnStack
    · exact hk.rootOnStack
  · intro c hc hroot
    have hmono : ∀ q, s.Live q → Live ⟨nrSegmentInit { s.txn with used := s.txn.used + 1 }
        s.txn.used parent asyncContext now, s.ended, s.removed⟩ q := by
      intro q hq
      refine ⟨?_, hq.2⟩
      rw [hused]
      exact Nat.lt_succ_of_lt hq.1
    rw [hlinks]
    by_cases hnew : c = s.txn.used
    · subst hnew
      exact Links.attachedTo_attach_self (hmono p hlive) hlive.1
    · have hlt : c < s.txn.used := by
        have := hc.1
        rw [hused] at this
        omega
      exact ((hk.attached c ⟨hlt, hc.2⟩ hroot).imp hmono).attach hnew

theorem Attached.finish {a : ℕ} (hroot : a ≠ s.txn.segmentRoot) {txn' : SegmentTxn}
    (hend : s.txn.Ended a txn') :
    Attached { s with txn := txn', ended := Function.update s.ended a true } := by
  have hne : 0 ≠ a := fun heq => hroot (heq ▸ h.root.symm)
  have hlive : ∀ q, s.Live q ↔ Live ⟨txn', Function.update s.ended a true, s.removed⟩ q := by
    intro q
    simp only [Live, hend.frame.used]
  refine ⟨?_, ?_, ?_⟩
  · exact (Function.update_of_ne hne ..).trans hk.rootOpen
  · show 0 ∈ txn'.stack 0
    rw [hend.stack]
    split
    · exact (List.mem_erase_of_ne hne).mpr hk.rootOnStack
    · exact hk.rootOnStack
  · intro c hc hc0
    show txn'.links.AttachedTo _ c
    rw [hend.links]
    exact (hk.attached c ((hlive c).mpr hc) hc0).imp fun q => (hlive q).mp

omit h in
theorem Attached.remove {a : ℕ} {txn' : SegmentTxn} (hretains : s.txn.Retains txn')
    (hattached : ∀ c, s.Live c → c ≠ 0 → c ≠ a →
      txn'.links.AttachedTo (fun q => s.Live q ∧ q ≠ a) c) :
    Attached { s with txn := txn', removed := Function.update s.removed a true } := by
  have hused := hretains.frame.used
  have hlive : ∀ q, Live ⟨txn', s.ended, Function.update s.removed a true⟩ q ↔
      s.Live q ∧ q ≠ a := by
    intro q
    by_cases hqa : q = a
    · simp [Live, hqa]
    · simp [Live, hqa, hused]
  refine ⟨hk.rootOpen, ?_, ?_⟩
  · show 0 ∈ txn'.stack 0
    rw [hretains.stack]
    exact hk.rootOnStack
  · intro c hc hc0
    obtain ⟨hold, hca⟩ := (hlive c).mp hc
    exact (hattached c hold hc0 hca).imp fun q => (hlive q).mpr

theorem Attached.finishExternal {a : ℕ} (ha : s.Live a) (hopen : s.ended a = false)
    {params : ExternalParams} (now : ℕ) (hkept : s.Kept (.finishExternal a params now)) :
    (s.exec (.finishExternal a params now)).Attached := by
  set txn' := externalEnded s.txn a params now with htxn'
  have hend : s.txn.Ended a txn' := ended_externalEnded s.txn a params now
  have hinvariant := h.finish ha hopen hend
  have hended := hk.finish h hkept.1 hend
  have hsame : nrSegmentExternalEnd s.txn a params now = (false, txn') →
      (s.exec (.finishExternal a params now)).Attached := by
    intro ht
    simp only [SegmentRun.exec, ht, ha.update_false]
    exact hended
  cases hrollup : params.doRollup with
  | false =>
      apply hsame
      simp only [nrSegmentExternalEnd, hrollup, Bool.false_eq_true, if_false, htxn']
  | true =>
      have hexternal : nrSegmentExternalEnd s.txn a params now = nrSegmentExternalRollup txn' a := by
        simp only [nrSegmentExternalEnd, hrollup, if_true, htxn']
      rcases nrSegmentExternalRollup_cases txn' a with hno | ⟨p, t, ht, hp, hretains, -, -, -, hlinks⟩
      · exact hsame (hexternal.trans hno)
      · have hnil : txn'.links.children a = [] := by
          rw [hend.links]
          exact hkept.2 hrollup
        have hpa : p ≠ a := Nat.ne_of_lt (hinvariant.forest.parent_lt hp)
        have hgone := hended.remove hretains
          (fun c hc hc0 hca => by
            rw [hlinks hpa hnil]
            exact (hended.attached c hc hc0).detach hinvariant.forest.consistent hca hnil)
        simp only [SegmentRun.exec, hexternal.trans ht]
        exact hgone

theorem Attached.discard {a : ℕ} (ha : s.Live a) (hended : s.ended a = true) :
    (s.exec (.discard a)).Attached := by
  cases hp : s.txn.links.parent a with
  | none =>
      simp only [SegmentRun.exec, nrSegmentDiscard_of_root hp, ha.update_false]
      exact hk
  | some p =>
      obtain ⟨htrue, hretains, -, hlinks⟩ := nrSegmentDiscard_of_parent hp
      have hroot : a ≠ 0 := by
        rintro rfl
        rw [hk.rootOpen] at hended
        cases hended
      have hgone := hk.remove hretains fun c hc hc0 hca => by
        rw [hlinks]
        exact (hk.attached c hc hc0).splice h.forest.consistent hca (hk.attached a ha hroot) hp
      simp only [SegmentRun.exec, htrue]
      exact hgone

theorem Attached.exec {call : SegmentCall} (hcall : s.Allowed call) (hkept : s.Kept call) :
    (s.exec call).Attached := by
  cases call with
  | start parent asyncContext now => exact hk.start h now hcall
  | finish a now => exact hk.finish h hkept (ended_nrSegmentEnd s.txn a now)
  | finishExternal a params now => exact hk.finishExternal h hcall.1 hcall.2 now hkept
  | discard a => exact hk.discard h hcall.1 hcall.2

/-- In such a state the segments that are still used are those of the tree. -/
theorem Attached.live_iff_reachable (a : ℕ) : s.Live a ↔ s.txn.Reachable a := by
  rw [SegmentTxn.Reachable, h.root]
  constructor
  · exact fun ha => Links.reachable_of_attached hk.attached ha
  · exact fun ha => h.forest.live_of_reachable h.rootUsed h.rootNotRemoved ha

end Kept

theorem attached_begin (absStartTime now : ℕ) : (begin absStartTime now).Attached := by
  have hkeys : SegmentTxn.StackKeys { emptyTxn absStartTime with used := 1 } :=
    ⟨List.nodup_nil, List.not_mem_nil, fun _ _ => rfl⟩
  have hstack := nrSegmentInit_stack hkeys 0 none none now 0
  refine ⟨rfl, ?_, ?_⟩
  · show 0 ∈ (nrSegmentInit { emptyTxn absStartTime with used := 1 } 0 none none now).stack 0
    rw [hstack, if_pos ⟨rfl, rfl⟩]
    exact List.mem_cons_self ..
  · intro c hc hc0
    have hused : (begin absStartTime now).txn.used = 1 :=
      (nrSegmentInit_frame { emptyTxn absStartTime with used := 1 } 0 none none now).used
    have hlt := hc.1
    rw [hused] at hlt
    omega

theorem attached_of_run {absStartTime now : ℕ} {calls : List SegmentCall}
    (hcalls : Along exec Allowed (begin absStartTime now) calls)
    (hkept : Along exec Kept (begin absStartTime now) calls) :
    (runFrom exec (begin absStartTime now) calls).Attached := by
  have hboth : Along exec (fun s call => s.Allowed call ∧ s.Kept call) (begin absStartTime now)
      calls := along_and.mpr ⟨hcalls, hkept⟩
  have hstep : ∀ (s : SegmentRun) (call : SegmentCall), s.Invariant ∧ s.Attached →
      s.Allowed call ∧ s.Kept call → (s.exec call).Invariant ∧ (s.exec call).Attached :=
    fun _ call h hcall => ⟨h.1.exec call hcall.1, h.2.exec h.1 hcall.1 hcall.2⟩
  exact (throughout_of_along hstep ⟨invariant_begin absStartTime now,
    attached_begin absStartTime now⟩ hboth).last.2

end SegmentRun

/-! ### Emptying the stacks -/

/-- The segments on the stacks of some contexts have been ended. -/
structure SegmentTxn.Drained (txn : SegmentTxn) (contexts : List ℕ) (txn' : SegmentTxn) : Prop where
  frame : txn.Frame txn'
  links : txn'.links = txn.links
  asyncContext : ∀ a, (txn'.segment a).asyncContext = (txn.segment a).asyncContext
  stack : ∀ k, txn'.stack k = if k ∈ contexts then [] else txn.stack k
  segmentCount : txn'.segmentCount =
    txn.segmentCount + ((contexts.map fun k => (txn.stack k).length).sum : ℕ)

/-- A segment is on the stack of its context, once. -/
def SegmentTxn.OwnStacks (txn : SegmentTxn) : Prop :=
  ∀ k, (txn.stack k).Nodup ∧ ∀ a ∈ txn.stack k, (txn.segment a).asyncContext = k

theorem SegmentTxn.OwnStacks.of_drained {txn txn' : SegmentTxn} {contexts : List ℕ}
    (h : txn.OwnStacks) (hdrained : txn.Drained contexts txn') : txn'.OwnStacks := by
  intro k
  rw [hdrained.stack]
  split
  · exact ⟨List.nodup_nil, fun a ha => nomatch ha⟩
  · refine ⟨(h k).1, fun a ha => ?_⟩
    rw [hdrained.asyncContext]
    exact (h k).2 a ha

theorem drained_endSegmentsInStack (context now : ℕ) (stack : List ℕ) (txn : SegmentTxn)
    (h : txn.OwnStacks) (hstack : txn.stack context = stack) :
    txn.Drained [context] (endSegmentsInStack context now stack.length txn) := by
  induction stack generalizing txn with
  | nil =>
      refine ⟨.rfl, rfl, fun _ => rfl, fun k => ?_, ?_⟩
      · split
        · next hk => exact List.mem_singleton.mp hk ▸ hstack
        · rfl
      · simp [hstack, endSegmentsInStack]
  | cons a rest ih =>
      set popped := txn.setStack context rest with hpopped
      have hpoppedStack : ∀ k, popped.stack k = if k = context then rest else txn.stack k :=
        fun k => txn.stack_setStack context k rest
      have hend := ended_nrSegmentEnd popped a now
      have hcontext : (txn.segment a).asyncContext = context := by
        apply (h context).2
        rw [hstack]
        exact List.mem_cons_self ..
      have hcontext' : (popped.segment a).asyncContext = context := hcontext
      have hnodup : (a :: rest).Nodup := hstack ▸ (h context).1
      have hendStack : ∀ k, (nrSegmentEnd popped a now).stack k =
          if k = context then rest else txn.stack k := by
        intro k
        rw [hend.stack, hpoppedStack]
        by_cases hk : k = context
        · rw [if_pos hk, if_pos (hk.trans hcontext'.symm),
            List.erase_of_not_mem (List.nodup_cons.mp hnodup).1]
        · rw [if_neg hk, if_neg fun heq => hk (heq.trans hcontext')]
      have hown : (nrSegmentEnd popped a now).OwnStacks := by
        intro k
        rw [hendStack]
        split
        · next hk =>
            refine ⟨(List.nodup_cons.mp hnodup).2, fun b hb => ?_⟩
            rw [hend.asyncContext, hk]
            exact (h context).2 b (hstack ▸ List.mem_cons_of_mem _ hb)
        · refine ⟨(h k).1, fun b hb => ?_⟩
          rw [hend.asyncContext]
          exact (h k).2 b hb
      have hrest := ih (nrSegmentEnd popped a now) hown (by rw [hendStack, if_pos rfl])
      have hstep : endSegmentsInStack context now (a :: rest).length txn =
          endSegmentsInStack context now rest.length (nrSegmentEnd popped a now) := by
        simp only [List.length_cons, endSegmentsInStack, hstack, hpopped]
      rw [hstep]
      have hframe : txn.Frame popped := ⟨rfl, rfl, rfl, rfl, rfl, rfl⟩
      refine ⟨(hframe.trans hend.frame).trans hrest.frame, ?_, ?_, ?_, ?_⟩
      · rw [hrest.links, hend.links]
        rfl
      · intro b
        rw [hrest.asyncContext, hend.asyncContext]
        rfl
      · intro k
        rw [hrest.stack, hendStack]
        by_cases hk : k = context
        · simp [hk]
        · simp [hk]
      · rw [hrest.segmentCount, hend.segmentCount]
        show txn.segmentCount + 1 + _ = _
        simp only [List.map_cons, List.map_nil, List.sum_cons, List.sum_nil, hendStack, if_true,
          hstack, List.length_cons, Nat.add_zero]
        omega

theorem drained_foldl (now : ℕ) (contexts : List ℕ) (txn : SegmentTxn) (h : txn.OwnStacks)
    (hnodup : contexts.Nodup) :
    txn.Drained contexts (contexts.foldl (nrTxnEndSegmentsInStack now) txn) := by
  induction contexts generalizing txn with
  | nil => exact ⟨.rfl, rfl, fun _ => rfl, fun _ => rfl, (Int.add_zero _).symm⟩
  | cons context contexts ih =>
      obtain ⟨hnot, hnodup⟩ := List.nodup_cons.mp hnodup
      have hfirst : txn.Drained [context] (nrTxnEndSegmentsInStack now txn context) :=
        drained_endSegmentsInStack context now (txn.stack context) txn h rfl
      have hrest := ih _ (h.of_drained hfirst) hnodup
      have hsame : (contexts.map fun k => ((nrTxnEndSegmentsInStack now txn context).stack k).length) =
          contexts.map fun k => (txn.stack k).length := by
        apply List.map_congr_left
        intro k hk
        have hne : k ∉ [context] := by
          rintro hmem
          rw [List.mem_singleton.mp hmem] at hk
          exact hnot hk
        rw [hfirst.stack, if_neg hne]
      refine ⟨hfirst.frame.trans hrest.frame, hrest.links.trans hfirst.links, ?_, ?_, ?_⟩
      · intro a
        exact (hrest.asyncContext a).trans (hfirst.asyncContext a)
      · intro k
        show (contexts.foldl (nrTxnEndSegmentsInStack now) (nrTxnEndSegmentsInStack now txn
          context)).stack k = _
        rw [hrest.stack, hfirst.stack]
        by_cases hk : k ∈ contexts
        · rw [if_pos hk, if_pos (List.mem_cons_of_mem _ hk)]
        · rw [if_neg hk]
          simp only [List.mem_cons, hk, List.not_mem_nil, or_false]
      · show (contexts.foldl (nrTxnEndSegmentsInStack now) (nrTxnEndSegmentsInStack now txn
          context)).segmentCount = _
        rw [hrest.segmentCount, hfirst.segmentCount, hsame]
        simp only [List.map_cons, List.map_nil, List.sum_cons, List.sum_nil]
        omega

/-- The number of segments on the stacks of a transaction. -/
def SegmentTxn.stackedSegments (txn : SegmentTxn) : ℕ :=
  ((txn.parentStackKeys ++ [0]).map fun k => (txn.stack k).length).sum

theorem drained_nrTxnFinalizeParentStacks {txn : SegmentTxn} (h : txn.OwnStacks)
    (hkeys : txn.StackKeys) (now : ℕ) :
    txn.Drained (txn.parentStackKeys ++ [0]) (nrTxnFinalizeParentStacks txn now) := by
  have hnodup : (txn.parentStackKeys ++ [0]).Nodup := by
    refine List.nodup_append.mpr ⟨hkeys.nodup, List.nodup_singleton 0, ?_⟩
    intro a ha b hb heq
    exact hkeys.ne_zero (List.mem_singleton.mp hb ▸ heq ▸ ha)
  have hfold := drained_foldl now (txn.parentStackKeys ++ [0]) txn h hnodup
  rw [List.foldl_append] at hfold
  exact hfold

/-! ### The count when the transaction ends -/

theorem SegmentTxn.reachable_congr {txn txn' : SegmentTxn} (hlinks : txn'.links = txn.links)
    (hroot : txn'.segmentRoot = txn.segmentRoot) (a : ℕ) : txn'.Reachable a ↔ txn.Reachable a := by
  rw [SegmentTxn.Reachable, SegmentTxn.Reachable, hlinks, hroot]

/-- Ending a running transaction ends its root, and leaves the tree as it is. -/
theorem nrTxnEnd_running {txn : SegmentTxn} (hcomplete : txn.complete = false)
    (hignore : txn.ignore = false) (name now : ℕ) :
    (nrTxnEnd txn (some name) now).1 = true ∧
      (nrTxnEnd txn (some name) now).2.segmentCount = txn.segmentCount + 1 ∧
      ∀ a, (nrTxnEnd txn (some name) now).2.Reachable a ↔ txn.Reachable a := by
  set named := nrSegmentSetName { txn with complete := true, recording := false } txn.segmentRoot name
    with hnamed
  have hend : nrTxnEnd txn (some name) now = (true, nrSegmentEnd named named.segmentRoot now) := by
    simp only [nrTxnEnd, hcomplete, hignore, Bool.false_eq_true, if_false, hnamed]
  have hlinks : named.links = txn.links :=
    SegmentTxn.links_modify { txn with complete := true, recording := false }
      (f := fun s => { s with name := name }) (fun _ => rfl) (fun _ => rfl)
  rw [hend]
  refine ⟨rfl, ?_, ?_⟩
  · exact nrSegmentEnd_segmentCount named named.segmentRoot now
  · exact SegmentTxn.reachable_congr ((nrSegmentEnd_links named _ now).trans hlinks)
      (nrSegmentEnd_frame named _ now).segmentRoot

namespace SegmentRun

/-- The open segments of the tree. -/
def openInTree (s : SegmentRun) : Set ℕ := {a | s.txn.Reachable a ∧ s.ended a = false}

/-- The segments that were ended and are lost to the tree, without having been
discarded or rolled up: a segment above them was rolled up. -/
def dropped (s : SegmentRun) : Set ℕ := {a | s.Live a ∧ s.ended a = true ∧ ¬ s.txn.Reachable a}

theorem Invariant.reachable_finite {s : SegmentRun} (h : s.Invariant) :
    {a | s.txn.Reachable a}.Finite := by
  apply (Finset.finite_toSet (Finset.range s.txn.used)).subset
  intro a ha
  rw [Set.mem_ofPred_eq, SegmentTxn.Reachable, h.root] at ha
  exact Finset.mem_coe.mpr (Finset.mem_range.mpr
    (h.forest.live_of_reachable h.rootUsed h.rootNotRemoved ha).1)

/-- The count and the open segments of the tree make up the tree and the
segments that were lost. -/
theorem Invariant.count_add_open {s : SegmentRun} (h : s.Invariant) :
    s.txn.segmentCount + s.openInTree.ncard =
      {a | s.txn.Reachable a}.ncard + s.dropped.ncard := by
  have hlive : ∀ a, s.txn.Reachable a → a < s.txn.used ∧ s.removed a = false := by
    intro a ha
    rw [SegmentTxn.Reachable, h.root] at ha
    exact h.forest.live_of_reachable h.rootUsed h.rootNotRemoved ha
  have htree := Set.ncard_inter_add_ncard_sdiff_eq_ncard {a | s.txn.Reachable a}
    {a | s.ended a = true} h.reachable_finite
  have hcounted := Set.ncard_inter_add_ncard_sdiff_eq_ncard (s.counted : Set ℕ)
    {a | s.txn.Reachable a} (Finset.finite_toSet s.counted)
  have hopen : {a | s.txn.Reachable a} \ {a | s.ended a = true} = s.openInTree := by
    ext a
    simp only [Set.mem_sdiff, Set.mem_ofPred_eq, openInTree, Bool.not_eq_true]
  have hlost : (s.counted : Set ℕ) \ {a | s.txn.Reachable a} = s.dropped := by
    ext a
    simp only [Set.mem_sdiff, Finset.mem_coe, mem_counted, Set.mem_ofPred_eq, dropped, Live]
    tauto
  have hboth : (s.counted : Set ℕ) ∩ {a | s.txn.Reachable a} =
      {a | s.txn.Reachable a} ∩ {a | s.ended a = true} := by
    ext a
    simp only [Set.mem_inter_iff, Finset.mem_coe, mem_counted, Set.mem_ofPred_eq]
    have := hlive a
    tauto
  rw [hopen] at htree
  rw [hlost, hboth, Set.ncard_coe_finset] at hcounted
  rw [h.count]
  omega

theorem Attached.dropped_eq_empty {s : SegmentRun} (h : s.Invariant) (hk : s.Attached) :
    s.dropped = ∅ := by
  ext a
  simp only [dropped, Set.mem_ofPred_eq, Set.mem_empty_iff_false, iff_false]
  exact fun ha => ha.2.2 ((hk.live_iff_reachable h a).mp ha.1)

/-- When the count is right. It is the number of the segments of the tree if and
only if the open segments that the end of the transaction finds in the tree are
as many as the root, the segments that were lost and those that finalizing the
stacks ends. In a run that rolls up no segment with children, leaves the root
alone, ends every other segment and does not finalize, the count is right. -/
theorem segment_count_exact {absStartTime start : ℕ} {calls : List SegmentCall}
    (hcalls : Along exec Allowed (begin absStartTime start) calls) (finalize : Bool)
    (name now : ℕ) :
    let s := runFrom exec (begin absStartTime start) calls
    let txn := if finalize then nrTxnFinalizeParentStacks s.txn now else s.txn
    let result := nrTxnEnd txn (some name) now
    result.1 = true ∧
    (result.2.segmentCount = {a | result.2.Reachable a}.ncard ↔
      s.openInTree.ncard =
        1 + s.dropped.ncard + if finalize then s.txn.stackedSegments else 0) ∧
    (Along exec Kept (begin absStartTime start) calls → finalize = false →
      (∀ a, s.txn.Reachable a → a ≠ s.txn.segmentRoot → s.ended a = true) →
      result.2.segmentCount = {a | result.2.Reachable a}.ncard ∧
      (∀ limit : ℕ, (limit : ℤ) < result.2.segmentCount ↔
        limit < {a | result.2.Reachable a}.ncard) ∧
      {a | result.2.Reachable a ∧ (result.2.segment a).asyncContext ≠ 0}.ncard ≤
        result.2.segmentCount) := by
  intro s txn result
  have h : s.Invariant := invariant_of_run hcalls
  have hown : s.txn.OwnStacks := fun k =>
    ⟨h.onStacks.nodup k, fun a ha => (h.onStacks.mem ha).2.1⟩
  have hdrained := drained_nrTxnFinalizeParentStacks hown h.onStacks.keys now
  have htxn : s.txn.Frame txn ∧ txn.links = s.txn.links ∧ txn.segmentCount =
      s.txn.segmentCount + ((if finalize then s.txn.stackedSegments else 0 : ℕ) : ℤ) := by
    cases finalize with
    | false => exact ⟨.rfl, rfl, (Int.add_zero _).symm⟩
    | true => exact ⟨hdrained.frame, hdrained.links, hdrained.segmentCount⟩
  obtain ⟨hframe, hlinks, hcount⟩ := htxn
  obtain ⟨htrue, hresult, hreachable⟩ := nrTxnEnd_running (hframe.complete.trans h.complete)
    (hframe.ignore.trans h.ignore) name now
  have htree : {a | result.2.Reachable a} = {a | s.txn.Reachable a} := by
    ext a
    exact (hreachable a).trans (SegmentTxn.reachable_congr hlinks hframe.segmentRoot a)
  have hidentity := h.count_add_open
  have hcount' : result.2.segmentCount = s.txn.segmentCount +
      ((if finalize then s.txn.stackedSegments else 0 : ℕ) : ℤ) + 1 := by
    rw [← hcount]
    exact hresult
  refine ⟨htrue, ?_, ?_⟩
  · rw [htree, hcount']
    omega
  · intro hkept hfinalize hended
    have hk : s.Attached := attached_of_run hcalls hkept
    have hdropped : s.dropped.ncard = 0 := by
      rw [hk.dropped_eq_empty h, Set.ncard_empty]
    have hopen : s.openInTree.ncard = 1 := by
      rw [Set.ncard_eq_one]
      refine ⟨s.txn.segmentRoot, ?_⟩
      ext a
      simp only [openInTree, Set.mem_ofPred_eq, Set.mem_singleton_iff]
      constructor
      · rintro ⟨ha, hopen⟩
        by_contra hne
        rw [hended a ha hne] at hopen
        cases hopen
      · rintro rfl
        exact ⟨.root, h.root.symm ▸ hk.rootOpen⟩
    have hexact : result.2.segmentCount = {a | result.2.Reachable a}.ncard := by
      rw [htree, hcount', hfinalize]
      simp only [Bool.false_eq_true, if_false]
      omega
    refine ⟨hexact, ?_, ?_⟩
    · intro limit
      rw [hexact]
      exact Int.ofNat_lt
    · rw [hexact]
      have hfinite : {a | result.2.Reachable a}.Finite := htree ▸ h.reachable_finite
      have hsub : {a | result.2.Reachable a ∧ (result.2.segment a).asyncContext ≠ 0} ⊆
          {a | result.2.Reachable a} := fun _ ha => ha.1
      exact_mod_cast Set.ncard_le_ncard hsub hfinite

/-- One segment is started on the main context and ended. -/
def plainCalls : List SegmentCall := [.start none none 1, .finish 1 2]

theorem allowed_plainCalls : Along exec Allowed (begin 0 0) plainCalls :=
  ⟨nofun, ⟨⟨by decide, rfl⟩, rfl⟩, trivial⟩

theorem segment_count_exact_plainCalls :
    let result := nrTxnEnd (runFrom exec (begin 0 0) plainCalls).txn (some 1) 3
    result.2.segmentCount = {a | result.2.Reachable a}.ncard := by
  have h := invariant_of_run allowed_plainCalls
  have hkept : Along exec Kept (begin 0 0) plainCalls := ⟨trivial, Nat.one_ne_zero, trivial⟩
  refine ((segment_count_exact allowed_plainCalls false 1 3).2.2 hkept rfl ?_).1
  intro a ha hroot
  rw [SegmentTxn.Reachable, h.root] at ha
  have hlt : a < 2 := (h.forest.live_of_reachable h.rootUsed h.rootNotRemoved ha).1
  have hone : a = 1 := by
    have hzero : a ≠ 0 := hroot
    omega
  rw [hone]
  rfl

/-- A transaction without any other segment is finalized and ended: its root is
ended by both, and counts twice. -/
theorem root_counted_twice :
    let result := nrTxnEnd (nrTxnFinalizeParentStacks (begin 0 0).txn 0) (some 1) 0
    result.1 = true ∧ result.2.segmentCount = 2 ∧ {a | result.2.Reachable a}.ncard = 1 := by
  intro result
  have h := invariant_begin 0 0
  have hown : (begin 0 0).txn.OwnStacks := fun k =>
    ⟨h.onStacks.nodup k, fun a ha => (h.onStacks.mem ha).2.1⟩
  have hdrained := drained_nrTxnFinalizeParentStacks hown h.onStacks.keys 0
  obtain ⟨htrue, -, hreachable⟩ := nrTxnEnd_running (hdrained.frame.complete.trans h.complete)
    (hdrained.frame.ignore.trans h.ignore) 1 0
  refine ⟨htrue, rfl, Set.ncard_eq_one.mpr ⟨0, ?_⟩⟩
  ext a
  have htree : result.2.Reachable a ↔ (begin 0 0).txn.Reachable a :=
    (hreachable a).trans (SegmentTxn.reachable_congr hdrained.links hdrained.frame.segmentRoot a)
  rw [Set.mem_ofPred_eq, htree, Set.mem_singleton_iff]
  constructor
  · intro ha
    have hlt : a < 1 := (h.forest.live_of_reachable h.rootUsed h.rootNotRemoved ha).1
    omega
  · rintro rfl
    exact .root

end SegmentRun

end AxiomDaemon.Axiom

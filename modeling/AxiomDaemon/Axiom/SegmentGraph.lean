import AxiomDaemon.Axiom.SegmentCount

/-!
The graph of the segments of a transaction, from its begin to its end.

A segment holds its parent, and the list of its children; the stacks of the
transaction hold the segments that new ones are put below. A run starts
segments, moves them, ends them and discards those that were ended, in any
order. Two things are left to the callers: a segment that was discarded is not
used again, and only ended segments are discarded. In every state of a run the
two kinds of links say the same, no way up comes back, and the stacks hold
segments that are still to be ended.

The way up ends at the root as long as every segment that is started without a
parent finds a current one. A transaction whose root was ended has none.
-/

namespace AxiomDaemon.Axiom

open AxiomDaemon.Lib

/-! ### Moving a segment -/

section SetParent

variable {txn : SegmentTxn} {segment parent : ℕ}

/-- The search of `nr_segment_set_parent` finds the segments on the way up, when
the fuel is enough for all of them. -/
theorem isAncestor_iff (hacyclic : txn.links.Acyclic) {fuel ancestor : ℕ} {above : Finset ℕ}
    (habove : ∀ a, txn.links.Up ancestor a → a ∈ above) (hfuel : above.card ≤ fuel) :
    isAncestor txn segment fuel (some ancestor) = true ↔ txn.links.Up ancestor segment := by
  have hself : ancestor ∈ above := habove ancestor .refl
  induction fuel generalizing ancestor above with
  | zero =>
      have hempty : above = ∅ := Finset.card_eq_zero.mp (Nat.le_zero.mp hfuel)
      rw [hempty] at hself
      exact absurd hself (Finset.notMem_empty _)
  | succ fuel ih =>
      rw [isAncestor, Bool.or_eq_true, decide_eq_true_eq]
      have hlink : (txn.segment ancestor).parent = txn.links.parent ancestor := rfl
      cases hp : txn.links.parent ancestor with
      | none =>
          have hstop : isAncestor txn segment fuel none = false := by
            cases fuel <;> rfl
          rw [hlink, hp, hstop, Links.up_iff_of_top hp]
          simp only [Bool.false_eq_true, or_false]
      | some p =>
          -- the segments above the parent are fewer, for there is no cycle
          have hrest : ∀ a, txn.links.Up p a → a ∈ above.erase ancestor := by
            intro a ha
            refine Finset.mem_erase.mpr ⟨?_, habove a ((Links.up_iff_of_parent hp).mpr (Or.inr ha))⟩
            rintro rfl
            exact hacyclic a (.head' hp ha)
          have hcard : (above.erase ancestor).card ≤ fuel := by
            rw [Finset.card_erase_of_mem hself]
            omega
          have hsearch : isAncestor txn segment fuel (some p) = true ↔ txn.links.Up p segment :=
            ih hrest hcard (hrest p .refl)
          rw [hlink, hp, hsearch, Links.up_iff_of_parent hp]

/-- What `nr_segment_set_parent` does: nothing when the parent is the one already,
nothing when it fails, else the segment is moved. -/
theorem nrSegmentSetParent_cases (txn : SegmentTxn) (segment parent : ℕ) :
    (txn.links.parent segment = some parent ∧
      nrSegmentSetParent txn segment parent = (true, txn)) ∨
    (isAncestor txn segment txn.used (some parent) = true ∧
      nrSegmentSetParent txn segment parent = (false, txn)) ∨
    (isAncestor txn segment txn.used (some parent) = false ∧
      ∃ txn', nrSegmentSetParent txn segment parent = (true, txn') ∧ txn.Retains txn' ∧
        txn'.links = txn.links.move parent segment) := by
  unfold nrSegmentSetParent
  split
  · next hp => exact Or.inl ⟨hp, rfl⟩
  split
  · next hancestor => exact Or.inr (Or.inl ⟨hancestor, rfl⟩)
  next hancestor =>
    -- the segment is out of its old list and gets into the new one
    have hput : ∀ released : SegmentTxn, txn.Retains released →
        released.links = txn.links.release segment →
        let moved := (released.nrSegmentChildrenAdd parent segment).modify segment fun s =>
          { s with parent := some parent }
        txn.Retains moved ∧ moved.links = txn.links.move parent segment := by
      intro released hretains hlinks
      refine ⟨(hretains.trans (.modify released parent
        (f := fun s => { s with children := s.children ++ [segment] }) fun _ => rfl)).trans
        (.modify _ segment (f := fun s => { s with parent := some parent }) fun _ => rfl), ?_⟩
      rw [SegmentTxn.links_modify_parent, SegmentTxn.links_childrenAdd, hlinks]
      rfl
    refine Or.inr (Or.inr ⟨Bool.eq_false_iff.mpr hancestor, _, rfl, ?_⟩)
    have hlink : txn.links.parent segment = (txn.segment segment).parent := rfl
    apply hput
    · split
      · exact retains_childrenRemove txn _ segment
      · exact ⟨rfl, fun _ => rfl⟩
    · rw [Links.release, hlink]
      cases (txn.segment segment).parent with
      | some old => exact txn.links_childrenRemove old segment
      | none => rfl

end SetParent

/-- `nr_txn_end` stops the recording. When it gets to the root, it ends it. -/
theorem nrTxnEnd_cases (txn : SegmentTxn) (name : Option ℕ) (now : ℕ) :
    (∃ complete recording, nrTxnEnd txn name now =
      (false, { txn with complete := complete, recording := recording })) ∨
    ∃ txn', nrTxnEnd txn name now = (true, txn') ∧
      SegmentTxn.Ended { txn with complete := true, recording := false } txn.segmentRoot txn' := by
  unfold nrTxnEnd
  split
  · exact Or.inl ⟨txn.complete, txn.recording, rfl⟩
  simp only
  split
  · exact Or.inl ⟨true, false, rfl⟩
  cases name with
  | none => exact Or.inl ⟨true, false, rfl⟩
  | some name =>
      refine Or.inr ⟨_, rfl, ?_⟩
      exact .of_modify (f := fun s => { s with name := name }) (fun _ => rfl) (fun _ => rfl)
        (fun _ => rfl) (ended_nrSegmentEnd _ _ now)

/-! ### Runs -/

/-- A call on the segments of a transaction, at the time of a clock. -/
inductive GraphCall
  | start (parent asyncContext : Option ℕ) (now : ℕ)
  | setParent (segment parent : ℕ)
  | addChild (parent child : ℕ)
  | finish (segment now : ℕ)
  | discard (segment : ℕ)
  | finishTxn (name : Option ℕ) (now : ℕ)

namespace SegmentRun

def execGraph (s : SegmentRun) : GraphCall → SegmentRun
  | .start parent asyncContext now =>
      { s with txn := (nrSegmentStart s.txn parent asyncContext now).2 }
  | .setParent segment parent => { s with txn := (nrSegmentSetParent s.txn segment parent).2 }
  | .addChild parent child => { s with txn := (nrSegmentAddChild s.txn parent child).2 }
  | .finish segment now =>
      { s with
        txn := nrSegmentEnd s.txn segment now
        ended := Function.update s.ended segment true }
  | .discard segment =>
      let (discarded, txn) := nrSegmentDiscard s.txn segment
      { s with txn, removed := Function.update s.removed segment discarded }
  | .finishTxn name now =>
      let (finished, txn) := nrTxnEnd s.txn name now
      { s with
        txn
        ended := if finished then Function.update s.ended s.txn.segmentRoot true else s.ended }

/-- What callers keep to: the segments are there, and only ended ones are
discarded. -/
def GraphAllowed (s : SegmentRun) : GraphCall → Prop
  | .start parent _ _ => ∀ p ∈ parent, s.Live p
  | .setParent segment parent => s.Live segment ∧ s.Live parent
  | .addChild parent child => s.Live parent ∧ s.Live child
  | .finish segment _ => s.Live segment
  | .discard segment => s.Live segment ∧ s.ended segment = true
  | .finishTxn _ _ => True

instance (s : SegmentRun) (segment : ℕ) : Decidable (s.Live segment) :=
  inferInstanceAs (Decidable (_ ∧ _))

instance (s : SegmentRun) : ∀ call, Decidable (s.GraphAllowed call)
  | .start none _ _ => isTrue (by simp [GraphAllowed])
  | .start (some p) _ _ => decidable_of_iff (s.Live p) (by simp [GraphAllowed])
  | .setParent _ _ => inferInstanceAs (Decidable (_ ∧ _))
  | .addChild _ _ => inferInstanceAs (Decidable (_ ∧ _))
  | .finish segment _ => inferInstanceAs (Decidable (s.Live segment))
  | .discard _ => inferInstanceAs (Decidable (_ ∧ _))
  | .finishTxn _ _ => inferInstanceAs (Decidable True)

/-- A segment that is started without a parent finds a current one. -/
def FindsParent (s : SegmentRun) : GraphCall → Prop
  | .start parent asyncContext _ =>
      s.txn.recording = true → startParent s.txn parent asyncContext ≠ none
  | _ => True

/-- No segment is started without a parent once the root was ended, unless the recording
was stopped as well. -/
def RootOpen (s : SegmentRun) : GraphCall → Prop
  | .start none _ _ => s.txn.recording = true → s.ended s.txn.segmentRoot = false
  | _ => True

/-- What the graph and the stacks are, in every state of a run. -/
structure GraphHolds (s : SegmentRun) : Prop where
  count : ∀ c p, s.Live c →
    (s.txn.segment p).children.count c = if (s.txn.segment c).parent = some p then 1 else 0
  live : ∀ c p, c ∈ (s.txn.segment p).children → s.Live p ∧ s.Live c
  acyclic : s.txn.links.Acyclic
  top : ∀ c, s.Live c →
    ∃ top, s.Live top ∧ (s.txn.segment top).parent = none ∧ s.txn.links.Up c top
  stacked : ∀ context a, a ∈ s.txn.stack context → s.Live a ∧ s.ended a = false

/-- All segments are below the root. -/
def ReachesRoot (s : SegmentRun) : Prop := ∀ a, s.Live a → s.txn.links.Up a s.txn.segmentRoot

/-- A segment below `p` was discarded: its children are those of `p` now, nothing else
has moved, and it alone is gone. -/
structure Discarded (s s' : SegmentRun) (a p : ℕ) : Prop where
  live : ∀ x, s'.Live x ↔ s.Live x ∧ x ≠ a
  parent : ∀ c, (s'.txn.segment c).parent =
    if c ∈ (s.txn.segment a).children then some p else (s.txn.segment c).parent
  children : ∀ q, (s'.txn.segment q).children =
    if q = a then []
    else if q = p then (s.txn.segment p).children.erase a ++ (s.txn.segment a).children
    else (s.txn.segment q).children

/-! ### The invariant -/

structure GraphInvariant (s : SegmentRun) : Prop where
  root : s.txn.segmentRoot = 0
  rootUsed : 0 < s.txn.used
  wellFormed : s.txn.links.WellFormed s.Live
  parent_lt : ∀ {c p}, s.txn.links.parent c = some p → p < s.txn.used
  fresh : ∀ a, s.txn.used ≤ a → s.txn.links.parent a = none
  onStacks : SegmentStacks s.txn s.ended s.removed
  ended_lt : ∀ {a}, s.ended a = true → a < s.txn.used
  removed_lt : ∀ {a}, s.removed a = true → a < s.txn.used
  rootOnStack : s.ended 0 = false → 0 ∈ s.txn.stack 0

/-- No segment but the root is without parent. -/
def OnlyTop (s : SegmentRun) : Prop :=
  ∀ a, s.Live a → s.txn.links.parent a = none → a = s.txn.segmentRoot

section Steps

variable {s : SegmentRun} (h : s.GraphInvariant)

include h

theorem GraphInvariant.reachesRoot_iff : s.ReachesRoot ↔ s.OnlyTop :=
  h.wellFormed.up_iff_only_top s.txn.segmentRoot

theorem GraphInvariant.holds : s.GraphHolds where
  count := fun _ p hc => h.wellFormed.count hc p
  live := fun _ _ => h.wellFormed.live_of_mem
  acyclic := h.wellFormed.graded.acyclic
  top := fun _ => h.wellFormed.exists_top
  stacked := by
    intro context a ha
    obtain ⟨hlt, -, hopen, hremoved⟩ := h.onStacks.mem ha
    exact ⟨⟨hlt, hremoved⟩, hopen⟩

/-- The segments on the way up from a segment came from the slab. -/
theorem GraphInvariant.isAncestor_iff {a p : ℕ} (hp : s.Live p) :
    isAncestor s.txn a s.txn.used (some p) = true ↔ s.txn.links.Up p a := by
  have habove : ∀ b, s.txn.links.Up p b → b ∈ Finset.range s.txn.used :=
    fun b hb => Finset.mem_range.mpr (h.wellFormed.live_of_up hp hb).1
  exact Axiom.isAncestor_iff h.wellFormed.graded.acyclic habove (Finset.card_range _).le

theorem GraphInvariant.links_init (parent asyncContext : Option ℕ) (now : ℕ) :
    (nrSegmentInit { s.txn with used := s.txn.used + 1 } s.txn.used parent asyncContext now).links =
      s.txn.links.attachUnder (startParent s.txn parent asyncContext) s.txn.used := by
  have hnil : s.txn.links.children s.txn.used = [] := by
    refine List.eq_nil_iff_forall_not_mem.mpr fun c hc => ?_
    exact Nat.lt_irrefl _ (h.wellFormed.live_of_mem hc).1.1
  exact nrSegmentInit_links { s.txn with used := s.txn.used + 1 } (h.fresh s.txn.used (Nat.le_refl _))
    hnil parent asyncContext now

theorem GraphInvariant.started (hrecording : s.txn.recording = true)
    (parent asyncContext : Option ℕ) (now : ℕ) :
    ∃ txn', s.execGraph (.start parent asyncContext now) = { s with txn := txn' } ∧
      txn' = nrSegmentInit { s.txn with used := s.txn.used + 1 } s.txn.used parent asyncContext now ∧
      txn'.used = s.txn.used + 1 ∧ txn'.segmentRoot = s.txn.segmentRoot ∧
      ∀ x, txn'.links.parent x =
        if x = s.txn.used then startParent s.txn parent asyncContext
        else s.txn.links.parent x := by
  have hframe := nrSegmentInit_frame { s.txn with used := s.txn.used + 1 } s.txn.used parent
    asyncContext now
  refine ⟨_, ?_, rfl, hframe.used, hframe.segmentRoot, fun x => ?_⟩
  · simp only [SegmentRun.execGraph, nrSegmentStart_of_recording hrecording]
  · rw [h.links_init, Links.attachUnder_parent (h.fresh s.txn.used (Nat.le_refl _))]

theorem GraphInvariant.start {parent asyncContext : Option ℕ} (now : ℕ)
    (hparent : ∀ p ∈ parent, s.Live p) :
    (s.execGraph (.start parent asyncContext now)).GraphInvariant := by
  cases hrecording : s.txn.recording with
  | false =>
      simp only [SegmentRun.execGraph, nrSegmentStart_of_not_recording hrecording]
      exact h
  | true =>
      have hended : s.ended s.txn.used = false :=
        Bool.eq_false_iff.mpr fun he => Nat.lt_irrefl _ (h.ended_lt he)
      have hremoved : s.removed s.txn.used = false :=
        Bool.eq_false_iff.mpr fun hr => Nat.lt_irrefl _ (h.removed_lt hr)
      have hnew : ¬ s.Live s.txn.used := fun hlive => Nat.lt_irrefl _ hlive.1
      have htop := h.fresh s.txn.used (Nat.le_refl _)
      have hleaf : ∀ x, s.txn.links.parent x ≠ some s.txn.used :=
        fun x hx => Nat.lt_irrefl _ (h.parent_lt hx)
      have hlive : ∀ p, startParent s.txn parent asyncContext = some p → s.Live p :=
        fun p hp => h.onStacks.live_startParent hparent hp
      obtain ⟨txn', hstep, htxn', hused, hroot, hparents⟩ :=
        h.started hrecording parent asyncContext now
      have hlinks : txn'.links = _ := (congrArg SegmentTxn.links htxn').trans
        (h.links_init parent asyncContext now)
      rw [hstep]
      refine ⟨hroot.trans h.root, hused ▸ Nat.succ_pos _, ?_, ?_, ?_,
        htxn' ▸ h.onStacks.init hended hremoved parent asyncContext now, ?_, ?_, ?_⟩
      · show txn'.links.WellFormed _
        rw [hlinks]
        refine (h.wellFormed.attachUnder hnew hleaf htop hlive).congr fun x => ?_
        show x < txn'.used ∧ s.removed x = false ↔ _
        rw [hused, Nat.lt_succ_iff_lt_or_eq, or_and_right]
        refine or_congr_right ⟨fun hx => hx.1, fun hx => ⟨hx, hx ▸ hremoved⟩⟩
      · intro c p hp
        show p < txn'.used
        rw [hused]
        rw [hparents] at hp
        split at hp
        · exact Nat.lt_succ_of_lt (hlive p hp).1
        · exact Nat.lt_succ_of_lt (h.parent_lt hp)
      · intro a ha
        have ha' : s.txn.used + 1 ≤ a := hused ▸ ha
        rw [hparents, if_neg (by omega)]
        exact h.fresh a (by omega)
      · exact fun ha => hused ▸ Nat.lt_succ_of_lt (h.ended_lt ha)
      · exact fun ha => hused ▸ Nat.lt_succ_of_lt (h.removed_lt ha)
      · intro hopen
        show 0 ∈ txn'.stack 0
        have hkeys := h.onStacks.keys
        have hkeys' : SegmentTxn.StackKeys { s.txn with used := s.txn.used + 1 } :=
          ⟨hkeys.nodup, hkeys.ne_zero, hkeys.empty⟩
        have hstack := nrSegmentInit_stack hkeys' s.txn.used parent asyncContext now 0
        rw [htxn', hstack]
        split
        · exact List.mem_cons_of_mem _ (h.rootOnStack hopen)
        · exact h.rootOnStack hopen

theorem GraphInvariant.finish {a : ℕ} (ha : a < s.txn.used) {txn txn' : SegmentTxn}
    (hend : txn.Ended a txn')
    (htxn : ∃ complete recording, txn = { s.txn with complete := complete, recording := recording }) :
    GraphInvariant { s with txn := txn', ended := Function.update s.ended a true } := by
  obtain ⟨complete, recording, rfl⟩ := htxn
  have hused : txn'.used = s.txn.used := hend.frame.used
  have hstacks : SegmentStacks { s.txn with complete := complete, recording := recording } s.ended
      s.removed :=
    ⟨⟨h.onStacks.keys.nodup, h.onStacks.keys.ne_zero, h.onStacks.keys.empty⟩, h.onStacks.mem,
      h.onStacks.nodup⟩
  have hlinks : txn'.links = s.txn.links := hend.links
  refine ⟨hend.frame.segmentRoot.trans h.root, hused.symm ▸ h.rootUsed, ?_, ?_, ?_,
    hstacks.finish hend, ?_, ?_, ?_⟩
  · show txn'.links.WellFormed _
    rw [hlinks]
    refine h.wellFormed.congr fun x => ?_
    show x < txn'.used ∧ _ ↔ _
    rw [hused]
    rfl
  · intro c p hp
    show p < txn'.used
    rw [hused]
    exact h.parent_lt (hlinks ▸ hp)
  · intro b hb
    show txn'.links.parent b = none
    rw [hlinks]
    exact h.fresh b (hused ▸ hb)
  · intro b hb
    show b < txn'.used
    rw [hused]
    by_cases hba : b = a
    · exact hba ▸ ha
    · exact h.ended_lt ((Function.update_of_ne hba ..).symm.trans hb)
  · intro b hb
    show b < txn'.used
    rw [hused]
    exact h.removed_lt hb
  · intro hopen
    have hopen' : Function.update s.ended a true 0 = false := hopen
    have hne : 0 ≠ a := by
      rintro rfl
      rw [Function.update_self] at hopen'
      cases hopen'
    rw [Function.update_of_ne hne] at hopen'
    show 0 ∈ txn'.stack 0
    have hmem : 0 ∈ s.txn.stack 0 := h.rootOnStack hopen'
    rw [hend.stack]
    split
    · exact (List.mem_erase_of_ne hne).mpr hmem
    · exact hmem

/-- What leaves the counts of segments and the stacks alone, and keeps the graph. -/
theorem GraphInvariant.retains {txn' : SegmentTxn} (hretains : s.txn.Retains txn')
    {removed' : ℕ → Bool} (hstacks : SegmentStacks s.txn s.ended removed')
    (hremoved : ∀ {a}, removed' a = true → a < s.txn.used)
    (hwell : txn'.links.WellFormed fun a => a < s.txn.used ∧ removed' a = false)
    (hparent : ∀ c p, txn'.links.parent c = some p → p < s.txn.used)
    (hfresh : ∀ a, s.txn.used ≤ a → txn'.links.parent a = none) :
    GraphInvariant { s with txn := txn', removed := removed' } := by
  have hused : txn'.used = s.txn.used := hretains.frame.used
  refine ⟨hretains.frame.segmentRoot.trans h.root, hused.symm ▸ h.rootUsed, ?_, ?_, ?_,
    hstacks.retains hretains, ?_, ?_, ?_⟩
  · refine hwell.congr fun x => ?_
    show x < txn'.used ∧ _ ↔ _
    rw [hused]
  · intro c p hp
    show p < txn'.used
    rw [hused]
    exact hparent c p hp
  · exact fun a ha => hfresh a (hused ▸ ha)
  · intro a ha
    show a < txn'.used
    rw [hused]
    exact h.ended_lt ha
  · intro a ha
    show a < txn'.used
    rw [hused]
    exact hremoved ha
  · intro hopen
    show 0 ∈ txn'.stack 0
    rw [hretains.stack]
    exact h.rootOnStack hopen

theorem GraphInvariant.setParent {a p : ℕ} (ha : s.Live a) (hp : s.Live p) :
    (s.execGraph (.setParent a p)).GraphInvariant := by
  rcases nrSegmentSetParent_cases s.txn a p with ⟨-, hsame⟩ | ⟨-, hfailed⟩ | ⟨hfree, txn', hmoved,
    hretains, hlinks⟩
  · simp only [SegmentRun.execGraph, hsame]
    exact h
  · simp only [SegmentRun.execGraph, hfailed]
    exact h
  · have hnot : ¬ s.txn.links.Up p a := by
      rw [← h.isAncestor_iff hp, hfree]
      exact Bool.false_ne_true
    have hparents : ∀ x, txn'.links.parent x = if x = a then some p else s.txn.links.parent x := by
      intro x
      rw [hlinks, Links.move_parent, Function.update_apply]
    simp only [SegmentRun.execGraph, hmoved]
    refine h.retains hretains h.onStacks h.removed_lt ?_ ?_ ?_
    · rw [hlinks]
      exact h.wellFormed.move ha hp hnot
    · intro c q hq
      rw [hparents] at hq
      split at hq
      · exact Option.some.inj hq ▸ hp.1
      · exact h.parent_lt hq
    · intro b hb
      have hne : b ≠ a := by
        rintro rfl
        exact absurd ha.1 (Nat.not_lt.mpr hb)
      rw [hparents, if_neg hne]
      exact h.fresh b hb

theorem GraphInvariant.discarded {a p : ℕ} (ha : s.Live a) (hp : s.txn.links.parent a = some p) :
    s.Discarded (s.execGraph (.discard a)) a p := by
  obtain ⟨htrue, hretains, -, hlinks⟩ := nrSegmentDiscard_of_parent hp
  have hpa := h.wellFormed.ne_parent hp
  have hused : (nrSegmentDiscard s.txn a).2.used = s.txn.used := hretains.frame.used
  have hexec : s.execGraph (.discard a) =
      { s with
        txn := (nrSegmentDiscard s.txn a).2
        removed := Function.update s.removed a true } := by
    simp only [SegmentRun.execGraph, htrue]
  rw [hexec]
  refine ⟨?_, ?_, ?_⟩
  · intro x
    show x < (nrSegmentDiscard s.txn a).2.used ∧ Function.update s.removed a true x = false ↔ _
    rw [hused]
    by_cases hx : x = a
    · subst hx
      simp
    · simp only [Function.update_of_ne hx, ne_eq, hx, not_false_eq_true, and_true]
      rfl
  · intro c
    show (nrSegmentDiscard s.txn a).2.links.parent c = _
    rw [hlinks, Links.parent_detach_splice _ hpa]
    rfl
  · intro q
    show (nrSegmentDiscard s.txn a).2.links.children q = _
    rw [hlinks, Links.children_detach_splice _ hpa]
    rfl

theorem GraphInvariant.discard {a : ℕ} (ha : s.Live a) (hended : s.ended a = true) :
    (s.execGraph (.discard a)).GraphInvariant := by
  cases hp : s.txn.links.parent a with
  | none =>
      simp only [SegmentRun.execGraph, nrSegmentDiscard_of_root hp, ha.update_false]
      exact h
  | some p =>
      obtain ⟨htrue, hretains, -, hlinks⟩ := nrSegmentDiscard_of_parent hp
      have hgone := h.discarded ha hp
      have hparents : ∀ x, (nrSegmentDiscard s.txn a).2.links.parent x =
          if x ∈ s.txn.links.children a then some p else s.txn.links.parent x := hgone.parent
      simp only [SegmentRun.execGraph, htrue] at hgone ⊢
      refine h.retains hretains (h.onStacks.remove hended true) ?_ ?_ ?_ ?_
      · intro b hb
        by_cases hba : b = a
        · exact hba ▸ ha.1
        · exact h.removed_lt ((Function.update_of_ne hba ..).symm.trans hb)
      · rw [hlinks]
        refine (h.wellFormed.discard ha hp).congr fun x => ?_
        rw [← hretains.frame.used]
        exact hgone.live x
      · intro c q hq
        rw [hparents] at hq
        split at hq
        · exact Option.some.inj hq ▸ h.parent_lt hp
        · exact h.parent_lt hq
      · intro b hb
        have hnot : b ∉ s.txn.links.children a := fun hc =>
          absurd (h.wellFormed.live_of_mem hc).2.1 (Nat.not_lt.mpr hb)
        rw [hparents, if_neg hnot]
        exact h.fresh b hb

theorem GraphInvariant.finishTxn (name : Option ℕ) (now : ℕ) :
    (s.execGraph (.finishTxn name now)).GraphInvariant := by
  rcases nrTxnEnd_cases s.txn name now with ⟨complete, recording, hstopped⟩ | ⟨txn', hended, hend⟩
  · simp only [SegmentRun.execGraph, hstopped]
    exact ⟨h.root, h.rootUsed, h.wellFormed, h.parent_lt, h.fresh,
      ⟨⟨h.onStacks.keys.nodup, h.onStacks.keys.ne_zero, h.onStacks.keys.empty⟩, h.onStacks.mem,
        h.onStacks.nodup⟩, h.ended_lt, h.removed_lt, h.rootOnStack⟩
  · simp only [SegmentRun.execGraph, hended, if_true]
    exact h.finish (h.root.symm ▸ h.rootUsed) hend ⟨true, false, rfl⟩

theorem GraphInvariant.exec (call : GraphCall) (hcall : s.GraphAllowed call) :
    (s.execGraph call).GraphInvariant := by
  cases call with
  | start parent asyncContext now => exact h.start now hcall
  | setParent a p => exact h.setParent hcall.1 hcall.2
  | addChild p c => exact h.setParent hcall.2 hcall.1
  | finish a now =>
      exact h.finish hcall.1 (ended_nrSegmentEnd s.txn a now) ⟨s.txn.complete, s.txn.recording, rfl⟩
  | discard a => exact h.discard hcall.1 hcall.2
  | finishTxn name now => exact h.finishTxn name now

/-- As long as every start finds a parent, the root is the only segment without one; a start
that finds none adds another. -/
theorem GraphInvariant.onlyTop_exec_iff (honly : s.OnlyTop) {call : GraphCall}
    (hcall : s.GraphAllowed call) : (s.execGraph call).OnlyTop ↔ s.FindsParent call := by
  -- segments that got another parent are not in the way
  have hkept : ∀ t : SegmentRun, t.txn.segmentRoot = s.txn.segmentRoot →
      (∀ a, t.Live a → s.Live a) →
      (∀ a, t.txn.links.parent a = none → s.txn.links.parent a = none) → t.OnlyTop :=
    fun t hroot hlive hparent a ha hp =>
      (honly a (hlive a ha) (hparent a hp)).trans hroot.symm
  have hset : ∀ a p, (s.execGraph (.setParent a p)).OnlyTop := by
    intro a p
    rcases nrSegmentSetParent_cases s.txn a p with ⟨-, hsame⟩ | ⟨-, hfailed⟩ | ⟨-, txn', hmoved,
      hretains, hlinks⟩
    · simp only [execGraph, hsame]
      exact honly
    · simp only [execGraph, hfailed]
      exact honly
    · simp only [execGraph, hmoved]
      refine hkept _ hretains.frame.segmentRoot (fun b hb => ?_) fun b hb => ?_
      · exact ⟨hretains.frame.used ▸ hb.1, hb.2⟩
      · have hb' : txn'.links.parent b = none := hb
        rw [hlinks, Links.move_parent] at hb'
        by_cases hba : b = a
        · rw [hba, Function.update_self] at hb'
          cases hb'
        · rwa [Function.update_of_ne hba] at hb'
  have hfinish : ∀ {txn txn' : SegmentTxn} {a : ℕ}, txn.Ended a txn' → txn.links = s.txn.links →
      txn.used = s.txn.used → txn.segmentRoot = s.txn.segmentRoot →
      ∀ ended, OnlyTop { s with txn := txn', ended := ended } := by
    intro txn txn' a hend hlinks hused hroot ended
    refine hkept _ (hend.frame.segmentRoot.trans hroot) (fun b hb => ?_) fun b hb => ?_
    · exact ⟨(hend.frame.used.trans hused) ▸ hb.1, hb.2⟩
    · rw [← hlinks, ← hend.links]
      exact hb
  cases call with
  | start parent asyncContext now =>
      cases hrecording : s.txn.recording with
      | false =>
          simp only [execGraph, nrSegmentStart_of_not_recording hrecording, FindsParent, hrecording,
            Bool.false_eq_true, false_imp_iff, iff_true]
          exact honly
      | true =>
          obtain ⟨txn', hstep, -, hused, hroot, hparents⟩ :=
            h.started hrecording parent asyncContext now
          have hremoved : s.removed s.txn.used = false :=
            Bool.eq_false_iff.mpr fun hr => Nat.lt_irrefl _ (h.removed_lt hr)
          simp only [hstep, FindsParent, hrecording, forall_const]
          constructor
          · intro honly' hnone
            have hp : txn'.links.parent s.txn.used = none := by
              rw [hparents, if_pos rfl, hnone]
            have hnew := honly' s.txn.used ⟨hused ▸ Nat.lt_succ_self _, hremoved⟩ hp
            have hzero : s.txn.used = 0 := hnew.trans (hroot.trans h.root)
            have hpos := h.rootUsed
            omega
          · intro hfinds a ha hp
            have hp' : txn'.links.parent a = none := hp
            rw [hparents] at hp'
            have hne : a ≠ s.txn.used := by
              rintro rfl
              rw [if_pos rfl] at hp'
              exact hfinds hp'
            rw [if_neg hne] at hp'
            have hlt : a < txn'.used := ha.1
            exact (honly a ⟨by omega, ha.2⟩ hp').trans hroot.symm
  | setParent a p => exact iff_of_true (hset a p) trivial
  | addChild p c => exact iff_of_true (hset c p) trivial
  | finish a now =>
      refine iff_of_true ?_ trivial
      exact hfinish (ended_nrSegmentEnd s.txn a now) rfl rfl rfl _
  | discard a =>
      refine iff_of_true ?_ trivial
      cases hp : s.txn.links.parent a with
      | none =>
          simp only [execGraph, nrSegmentDiscard_of_root hp, hcall.1.update_false]
          exact honly
      | some p =>
          obtain ⟨htrue, hretains, -, -⟩ := nrSegmentDiscard_of_parent hp
          have hgone := h.discarded hcall.1 hp
          refine hkept _ ?_ (fun b hb => ((hgone.live b).mp hb).1) fun b hb => ?_
          · simp only [execGraph, htrue]
            exact hretains.frame.segmentRoot
          · have hb' := (hgone.parent b).symm.trans hb
            split at hb'
            · cases hb'
            · exact hb'
  | finishTxn name now =>
      refine iff_of_true ?_ trivial
      rcases nrTxnEnd_cases s.txn name now with ⟨complete, recording, hstopped⟩ | ⟨txn', hended, hend⟩
      · simp only [execGraph, hstopped]
        exact honly
      · simp only [execGraph, hended, if_true]
        exact hfinish hend rfl rfl rfl _

end Steps

theorem graphInvariant_begin (absStartTime now : ℕ) : (begin absStartTime now).GraphInvariant := by
  have h := invariant_begin absStartTime now
  have hused : (begin absStartTime now).txn.used = 1 := rfl
  have hparent : ∀ c, (begin absStartTime now).txn.links.parent c = none := by
    intro c
    by_cases hc : c = 0
    · exact hc ▸ h.forest.root
    · exact (h.forest.fresh c (by omega)).1
  have hempty : ∀ c p, c ∉ (begin absStartTime now).txn.links.children p := by
    intro c p hc
    have hp := h.forest.consistent.parent_of_mem hc
    rw [hparent] at hp
    cases hp
  refine ⟨h.root, h.rootUsed, ⟨h.forest.consistent, ⟨id, ?_⟩, ?_, ?_⟩, ?_, fun a _ => hparent a,
    h.onStacks, nofun, nofun, fun _ => (attached_begin absStartTime now).rootOnStack⟩
  · exact fun c p hp => h.forest.parent_lt hp
  · exact fun hc => absurd hc (hempty _ _)
  · intro p c _ hp
    rw [hparent] at hp
    cases hp
  · intro c p hp
    rw [hparent] at hp
    cases hp

/-! ### Every run -/

section Runs

variable {absStartTime start : ℕ} {calls : List GraphCall}
  (hcalls : Along execGraph GraphAllowed (begin absStartTime start) calls)

include hcalls

theorem graphInvariant_of_run :
    Throughout execGraph GraphInvariant (begin absStartTime start) calls :=
  throughout_of_along (fun _ call h hcall => h.exec call hcall)
    (graphInvariant_begin absStartTime start) hcalls

/-- The segments stay below the root exactly as long as every start finds a parent. -/
theorem reachesRoot_iff_along_findsParent :
    Throughout execGraph ReachesRoot (begin absStartTime start) calls ↔
      Along execGraph FindsParent (begin absStartTime start) calls := by
  have hstep : ∀ (s : SegmentRun) call, s.GraphInvariant ∧ s.OnlyTop → s.GraphAllowed call →
      ((s.execGraph call).GraphInvariant ∧ (s.execGraph call).OnlyTop ↔ s.FindsParent call) := by
    intro s call hs hcall
    rw [← hs.1.onlyTop_exec_iff hs.2 hcall]
    exact and_iff_right (hs.1.exec call hcall)
  have hbegin : (begin absStartTime start).OnlyTop := by
    intro a ha _
    have hlt : a < 1 := ha.1
    show a = 0
    omega
  rw [← throughout_iff_along_of_along hstep ⟨graphInvariant_begin absStartTime start, hbegin⟩ hcalls]
  constructor
  · intro hroot
    exact (throughout_and_iff.mpr ⟨graphInvariant_of_run hcalls, hroot⟩).imp
      fun s hs => ⟨hs.1, hs.1.reachesRoot_iff.mp hs.2⟩
  · exact fun h => h.imp fun s hs => hs.1.reachesRoot_iff.mpr hs.2

omit hcalls in
theorem GraphInvariant.findsParent {s : SegmentRun} (h : s.GraphInvariant) {call : GraphCall}
    (hopen : s.RootOpen call) : s.FindsParent call := by
  cases call with
  | start parent asyncContext now =>
      intro hrecording
      cases parent with
      | some p => simp [startParent]
      | none =>
          have hroot := h.rootOnStack (h.root ▸ hopen hrecording)
          obtain ⟨p, hp⟩ := exists_startParent hroot none asyncContext
          rw [hp]
          simp
  | _ => trivial

/-- The segment graph of a transaction, in every run of starts, moves, ends and discards of
ended segments. The links agree, no way up comes back, a way up ends at a segment that
lives, and the stacks hold segments that live and were not ended. A move that fails and a
discard that fails change nothing; a discard moves the children up, and nothing else.

All segments are below the root exactly if every start finds a parent. It does as long as
the root was not ended. -/
theorem segmentGraph_of_run :
    Throughout execGraph GraphHolds (begin absStartTime start) calls ∧
    (Throughout execGraph ReachesRoot (begin absStartTime start) calls ↔
      Along execGraph FindsParent (begin absStartTime start) calls) ∧
    (Along execGraph RootOpen (begin absStartTime start) calls →
      Throughout execGraph ReachesRoot (begin absStartTime start) calls) ∧
    let s := runFrom execGraph (begin absStartTime start) calls
    (∀ a p, s.Live a → s.Live p →
      ((nrSegmentSetParent s.txn a p).1 = false ↔ s.txn.links.Up p a) ∧
      ((nrSegmentSetParent s.txn a p).1 = false → (nrSegmentSetParent s.txn a p).2 = s.txn)) ∧
    ∀ a, s.Live a → s.ended a = true →
      ((nrSegmentDiscard s.txn a).1 = false → (nrSegmentDiscard s.txn a).2 = s.txn) ∧
      ((nrSegmentDiscard s.txn a).1 = true →
        ∃ p, (s.txn.segment a).parent = some p ∧ s.Discarded (s.execGraph (.discard a)) a p) ∧
      ((nrSegmentDiscard s.txn a).1 = false ↔ (s.txn.segment a).parent = none) := by
  have hinv := graphInvariant_of_run hcalls
  have hroot := reachesRoot_iff_along_findsParent hcalls
  refine ⟨hinv.imp fun _ h => h.holds, hroot, fun hopen => ?_, ?_⟩
  · exact hroot.mpr (hopen.imp_of_throughout (fun _ _ h => h.findsParent) hinv)
  intro s
  have h : s.GraphInvariant := hinv.last
  refine ⟨fun a p ha hp => ?_, fun a ha hended => ?_⟩
  · rcases nrSegmentSetParent_cases s.txn a p with ⟨hparent, hsame⟩ | ⟨hfound, hfailed⟩ |
      ⟨hfree, txn', hmoved, -⟩
    · rw [hsame]
      -- the parent is not below the segment, for no way up comes back
      have hnot : ¬ s.txn.links.Up p a := by
        intro hup
        exact h.wellFormed.graded.acyclic a (.head' hparent hup)
      exact ⟨iff_of_false (by simp) hnot, fun _ => rfl⟩
    · rw [hfailed]
      exact ⟨iff_of_true rfl ((h.isAncestor_iff hp).mp hfound), fun _ => rfl⟩
    · rw [hmoved]
      have hnot : ¬ s.txn.links.Up p a := by
        rw [← h.isAncestor_iff hp, hfree]
        exact Bool.false_ne_true
      exact ⟨iff_of_false (by simp) hnot, fun hfalse => by cases hfalse⟩
  · cases hp : s.txn.links.parent a with
    | none =>
        rw [nrSegmentDiscard_of_root hp]
        exact ⟨fun _ => rfl, by simp, iff_of_true rfl hp⟩
    | some p =>
        have htrue := (nrSegmentDiscard_of_parent hp).1
        have hsome : (s.txn.segment a).parent = some p := hp
        rw [htrue, hsome]
        exact ⟨by simp, fun _ => ⟨p, rfl, h.discarded ha hp⟩, by simp⟩

end Runs

/-- The second segment is moved below the fourth one, which is below it, and stays; the third
one is discarded, and what was moved below it moves up. -/
def movedCalls : List GraphCall :=
  [.start none none 1, .start none none 2, .start none (some 5) 3, .start (some 2) none 4,
    .setParent 4 3, .addChild 4 2, .finish 3 5, .discard 3, .finishTxn (some 7) 6]

theorem allowed_movedCalls : Along execGraph GraphAllowed (begin 0 0) movedCalls := by
  decide +kernel

theorem segmentGraph_of_run_movedCalls :
    Throughout execGraph GraphHolds (begin 0 0) movedCalls ∧
    Throughout execGraph ReachesRoot (begin 0 0) movedCalls := by
  obtain ⟨hholds, -, hroot, -⟩ := segmentGraph_of_run allowed_movedCalls
  refine ⟨hholds, hroot ⟨?_, ?_, ?_, trivial, trivial, trivial, trivial, trivial, trivial, trivial⟩⟩
  all_goals exact fun _ => rfl

/-- The root is ended, and then a segment is started. -/
def orphanCalls : List GraphCall := [.finish 0 1, .start none none 2]

/-- The segment that is started after the end of the root has no parent: it is live, and not
below the root. -/
theorem segmentGraph_orphanCalls :
    Along execGraph GraphAllowed (begin 0 0) orphanCalls ∧
    ¬ Throughout execGraph ReachesRoot (begin 0 0) orphanCalls := by
  refine ⟨by decide +kernel, fun hroot => ?_⟩
  have hup := hroot.last 1 ⟨by decide, rfl⟩
  have hzero : 1 = 0 := (Links.up_iff_of_top rfl).mp hup
  cases hzero

end SegmentRun

end AxiomDaemon.Axiom

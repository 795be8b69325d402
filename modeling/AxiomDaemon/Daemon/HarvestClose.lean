import Mathlib.Algebra.BigOperators.Group.Finset.Basic
import AxiomDaemon.Daemon.HarvestTrigger

/-!
What `Close` does to a harvest trigger: no goroutine sends on a channel that it
has closed, every member confirms its cancellation once before it returns, and it
does return.

That it returns has two parts. While it has not, some goroutine can take a step,
whatever the clock does. And the goroutines cannot go on for ever without the
clock: each of their steps uses up work, of which a tick adds a bounded amount.
-/

namespace AxiomDaemon.Daemon

open AxiomDaemon.Lib

namespace AppHarvest

variable {w : HarvestTrigger} {s t : State} {e : Event}

/-! ### Confirmations -/

/-- Member `k` confirms its cancellation. -/
def confirms (w : HarvestTrigger) (k : ℕ) : Event → Bool
  | .send i _ c _ => decide (i = .member k ∧ c = w.cancelOf k)
  | _ => false

theorem confirms_of_ne {k : ℕ} {i j : Goroutine} {c : Chan} {m : Message}
    (h : i ≠ .member k ∨ c ≠ w.cancelOf k) : confirms w k (.send i j c m) = false :=
  decide_eq_false fun hboth => h.elim (absurd hboth.1) (absurd hboth.2)

theorem Staged.confirms_iff (hs : Staged w s) (h : TriggerStep w s e t) (k : ℕ) :
    (confirms w k e = true ∧ MemberAt.phase (s.place (.member k)) = .confirming ∧
      MemberAt.phase (t.place (.member k)) = .done) ∨
    (confirms w k e = false ∧ (MemberAt.phase (t.place (.member k)) = .done ↔
      MemberAt.phase (s.place (.member k)) = .done)) := by
  have hother : ∀ {u : State} {j : ℕ} {p : MemberAt}, k ≠ j →
      u.place (.member k) = s.place (.member k) →
      (MemberAt.phase ((u.goto (.member j) p).place (.member k)) = .done ↔
        MemberAt.phase (s.place (.member k)) = .done) := by
    intro u j p hkj hu
    rw [Net.goto_place_of_ne _ (by simpa using hkj), hu]
  cases h with
  | startForwarder h => exact Or.inr ⟨rfl, by simp⟩
  | startSingle hw h =>
      refine Or.inr ⟨rfl, ?_⟩
      rcases eq_or_ne k 0 with rfl | hk
      · have hunborn : MemberAt.phase (s.place (.member 0)) = .unborn := by
          subst hw
          rw [hs.phases 0, memberPhase, if_pos rfl, h]
          rfl
        rw [hunborn, Net.goto_place_self]
        simp [MemberAt.phase]
      · exact hother hk (by simp)
  | startGroup hw h => exact Or.inr ⟨rfl, by simp⟩
  | @startMember ts j hw h hj =>
      refine Or.inr ⟨rfl, ?_⟩
      rcases eq_or_ne k j with rfl | hk
      · have hunborn : MemberAt.phase (s.place (.member k)) = .unborn := by
          rw [hs.group_phase hw hj, h]
          exact if_neg (lt_irrefl k)
        rw [hunborn, Net.goto_place_self]
        simp [MemberAt.phase]
      · exact hother hk (by simp)
  | startBroadcaster hw h hk => exact Or.inr ⟨rfl, by simp⟩
  | callClose h => exact Or.inr ⟨rfl, by simp⟩
  | cancelSingle hw h hm =>
      refine Or.inr ⟨confirms_of_ne (Or.inl (by simp)), ?_⟩
      rcases eq_or_ne k 0 with rfl | hk
      · simp [hm, MemberAt.phase]
      · exact hother hk (by simp)
  | cancelGroup hw h hb => exact Or.inr ⟨confirms_of_ne (Or.inl (by simp)), by simp⟩
  | @tell ts j _ hw hj h hm =>
      refine Or.inr ⟨confirms_of_ne (Or.inl (by simp)), ?_⟩
      rcases eq_or_ne k j with rfl | hk
      · simp [hm, MemberAt.phase]
      · exact hother hk (by simp)
  | @hear ts j hw h hm =>
      subst hw
      rcases eq_or_ne k j with rfl | hk
      · exact Or.inl ⟨by simp [confirms, HarvestTrigger.cancelOf], by simp [hm, MemberAt.phase],
          by simp [MemberAt.phase]⟩
      · refine Or.inr ⟨confirms_of_ne (Or.inl (by simpa using hk.symm)), ?_⟩
        simpa using hother (p := MemberAt.done) hk rfl
  | confirmSingle hw h hm =>
      subst hw
      rcases eq_or_ne k 0 with rfl | hk
      · exact Or.inl ⟨by simp [confirms, HarvestTrigger.cancelOf], by simp [hm, MemberAt.phase],
          by simp [MemberAt.phase]⟩
      · refine Or.inr ⟨confirms_of_ne (Or.inl (by simpa using hk.symm)), ?_⟩
        simpa using hother (p := MemberAt.done) hk rfl
  | confirmGroup hw hk h hb => exact Or.inr ⟨confirms_of_ne (Or.inl (by simp)), by simp⟩
  | @take j h =>
      refine Or.inr ⟨rfl, ?_⟩
      rcases eq_or_ne k j with rfl | hk
      · simp [h, MemberAt.phase]
      · exact hother hk rfl
  | @sendTrigger j b ht h hf =>
      refine Or.inr ⟨confirms_of_ne (Or.inr (by cases w <;> simp [HarvestTrigger.cancelOf])), ?_⟩
      rcases eq_or_ne k j with rfl | hk
      · simp [h, MemberAt.phase]
      · simpa using hother (p := MemberAt.select b) hk rfl
  | forward h => exact Or.inr ⟨confirms_of_ne (Or.inl (by simp)), by simp⟩
  | drain h hclosed => exact Or.inr ⟨rfl, by simp⟩
  | closeTrigger h => exact Or.inr ⟨rfl, by simp⟩
  | closeCancel h => exact Or.inr ⟨rfl, by simp⟩
  | @tickSelect j h =>
      refine Or.inr ⟨rfl, ?_⟩
      rcases eq_or_ne k j with rfl | hk
      · simp [h, MemberAt.phase]
      · exact hother hk rfl
  | @tickSend j h =>
      refine Or.inr ⟨rfl, ?_⟩
      rcases eq_or_ne k j with rfl | hk
      · simp [h, MemberAt.phase]
      · exact hother hk rfl

/-- A member that is done has confirmed once, and one that is not has not. -/
theorem countP_confirms {tr : List Event} (h : Net.Run (program w) start tr s) (k : ℕ) :
    tr.countP (confirms w k) =
      if MemberAt.phase (s.place (.member k)) = .done then 1 else 0 := by
  have hboth := h.invariant
    (fun tr t => Staged w t ∧ tr.countP (confirms w k) =
      if MemberAt.phase (t.place (.member k)) = .done then 1 else 0)
    ⟨staged_start w, rfl⟩ ?_
  · exact hboth.2
  · rintro tr' t' e u ⟨ht, hcount⟩ hstep
    have hcases := ht.step_cases hstep
    refine ⟨ht.step hcases, ?_⟩
    rw [List.countP_append, List.countP_singleton, hcount]
    rcases ht.confirms_iff hcases k with ⟨hconfirms, hbefore, hafter⟩ | ⟨hconfirms, hsame⟩
    · rw [hconfirms, hbefore, hafter]
      rfl
    · rw [hconfirms]
      simp only [hsame, Bool.false_eq_true, if_false, Nat.add_zero]

/-- No goroutine panics: no send and no closing meets a closed channel. -/
theorem no_panic {tr : List Event} (h : Net.Run (program w) start tr s) (i : Goroutine) (c : Chan) :
    .panic i c ∉ tr := by
  have hboth := h.invariant (fun tr t => Staged w t ∧ .panic i c ∉ tr)
    ⟨staged_start w, List.not_mem_nil⟩ ?_
  · exact hboth.2
  · rintro tr' t' e u ⟨ht, hnot⟩ hstep
    have hcases := ht.step_cases hstep
    refine ⟨ht.step hcases, fun hmem => ?_⟩
    rcases List.mem_append.mp hmem with hmem | hmem
    · exact hnot hmem
    · rw [← List.mem_singleton.mp hmem] at hcases
      cases hcases

/-! ### A step is always possible -/

def HarvestTrigger.typeOf : HarvestTrigger → ℕ → HarvestType
  | .triggerBuilder t, _ => t
  | .group ts, k => ts.getD k 0

/-- `Close` has been called and has not returned. -/
def closing : OwnerAt → Bool
  | .sendCancel => true
  | .awaitConfirmation => true
  | .closeTrigger => true
  | .closeCancel => true
  | _ => false

/-- Some goroutine can take a step without the clock. -/
def CanStep (w : HarvestTrigger) (s : State) : Prop :=
  ∃ e t, Net.Step (program w) s e t ∧ e.isTick = false

theorem canStep_send {i j : Goroutine} {c : Chan} {v : Message} {p : Place i}
    {q : Option Message → Place j} (hne : i ≠ j) (hsend : .send c v p ∈ program w i (s.place i))
    (hreceive : .receive c q ∈ program w j (s.place j)) (hopen : s.closed c = false) :
    CanStep w s :=
  ⟨_, _, .send hne hsend hreceive hopen, rfl⟩

theorem program_member {k : ℕ} (hk : k < w.members) :
    program w (.member k) = triggerProgram k (w.typeOf k) (w.cancelOf k) := by
  cases w with
  | triggerBuilder t =>
      have hzero : k = 0 := Nat.lt_one_iff.mp hk
      simp [program, hzero, HarvestTrigger.typeOf, HarvestTrigger.cancelOf]
  | group ts => rfl

theorem Staged.lt_members (hs : Staged w s) {k : ℕ}
    (h : MemberAt.phase (s.place (.member k)) ≠ .unborn) : k < w.members := by
  by_contra hk
  refine h ((hs.phases k).trans ?_)
  cases w with
  | triggerBuilder t =>
      refine if_neg ?_
      rintro rfl
      exact hk Nat.zero_lt_one
  | group ts => exact if_neg hk

/-- The forwarder is ready for a member that sends, or has a trigger to forward first. -/
theorem Staged.canStep_of_sendTrigger (hs : Staged w s) {k : ℕ} {b : Bool}
    (h : s.place (.member k) = MemberAt.sendTrigger b)
    (hforwarder : s.place .forwarder ≠ ForwarderAt.unborn) : CanStep w s := by
  have hk : k < w.members := hs.lt_members (by rw [h]; simp [MemberAt.phase])
  have hsend : .send .trigger (.harvest (w.typeOf k)) (MemberAt.select b) ∈
      program w (.member k) (s.place (.member k)) := by
    rw [program_member hk, h]
    cases b <;> simp [triggerProgram]
  have hopen : s.closed .trigger = false := hs.open_of_send (offers_of_mem hsend)
  cases hf : s.place .forwarder with
  | unborn => exact absurd hf hforwarder
  | range =>
      have hreceive : .receive .trigger (fun m => m.elim ForwarderAt.done ForwarderAt.forward) ∈
          program w .forwarder (s.place .forwarder) := by
        rw [hf]
        exact List.mem_singleton.mpr rfl
      exact canStep_send (by simp) hsend hreceive hopen
  | forward m =>
      have hforward : .send .processor m ForwarderAt.range ∈
          program w .forwarder (s.place .forwarder) := by
        rw [hf]
        exact List.mem_singleton.mpr rfl
      have hreceive : .receive .processor (fun _ => ()) ∈
          program w .processor (s.place .processor) := List.mem_singleton.mpr rfl
      exact canStep_send (by simp) hforward hreceive hs.processor
  | done =>
      have hclosed := hs.drained hf
      rw [hopen] at hclosed
      cases hclosed

/-- A live member takes what `c` sends it, once its trigger is out. -/
theorem Staged.canStep_of_live (hs : Staged w s) {i : Goroutine} {k : ℕ} {p : Place i}
    (hforwarder : s.place .forwarder ≠ ForwarderAt.unborn) (hne : i ≠ .member k)
    (hlive : MemberAt.phase (s.place (.member k)) = .live)
    (hsend : .send (w.cancelOf k) (.flag true) p ∈ program w i (s.place i)) : CanStep w s := by
  have hk : k < w.members := hs.lt_members (by rw [hlive]; simp)
  cases hm : s.place (.member k) with
  | select b =>
      refine canStep_send hne hsend (q := fun _ => MemberAt.confirm) ?_
        (hs.open_of_send (offers_of_mem hsend))
      rw [program_member hk, hm]
      cases b <;> simp [triggerProgram]
  | sendTrigger b => exact hs.canStep_of_sendTrigger hm hforwarder
  | unborn => rw [hm] at hlive; cases hlive
  | confirm => rw [hm] at hlive; cases hlive
  | done => rw [hm] at hlive; cases hlive

theorem Staged.canStep_of_confirm (hs : Staged w s) {j : Goroutine} {k : ℕ}
    {q : Option Message → Place j} (hne : .member k ≠ j)
    (hconfirm : MemberAt.phase (s.place (.member k)) = .confirming)
    (hreceive : .receive (w.cancelOf k) q ∈ program w j (s.place j)) : CanStep w s := by
  have hk : k < w.members := hs.lt_members (by rw [hconfirm]; simp)
  have hm : s.place (.member k) = MemberAt.confirm := by
    cases hm : s.place (.member k) <;> rw [hm] at hconfirm <;> cases hconfirm
  have hsend : .send (w.cancelOf k) (.flag true) MemberAt.done ∈
      program w (.member k) (s.place (.member k)) := by
    rw [program_member hk, hm]
    exact List.mem_singleton.mpr rfl
  exact canStep_send hne hsend hreceive (hs.open_of_send (offers_of_mem hsend))

theorem Staged.canStep_of_started (hs : Staged w s) {ts : List HarvestType} (hw : w = .group ts)
    {k : ℕ} (h : s.place .starter = StarterAt.started k) : CanStep w s := by
  subst hw
  by_cases hk : k < ts.length
  · have hgo : .go (.member k) (MemberAt.select false) (StarterAt.started (k + 1)) ∈
        program (.group ts) .starter (s.place .starter) := by
      simp [program, h, starterProgram, hk]
    exact ⟨_, _, .go hgo, rfl⟩
  · have hgo : .go .broadcaster BroadcasterAt.listen StarterAt.done ∈
        program (.group ts) .starter (s.place .starter) := by
      simp [program, h, starterProgram, hk]
    exact ⟨_, _, .go hgo, rfl⟩

/-- The broadcaster can go on with whatever member it has come to. -/
theorem Staged.canStep_of_broadcast (hs : Staged w s) {ts : List HarvestType} (hw : w = .group ts)
    (hforwarder : s.place .forwarder ≠ ForwarderAt.unborn)
    (ho : s.place .owner = OwnerAt.awaitConfirmation) : CanStep w s := by
  have hfits := hs.group ts hw
  rw [ho] at hfits
  obtain ⟨hst, ⟨k, hk, hb⟩ | ⟨k, hk, hb⟩⟩ := hfits
  · rcases Nat.lt_or_eq_of_le hk with hlt | heq
    · have hsend : .send (w.cancelOf k) (.flag true) (BroadcasterAt.hear k) ∈
          program w .broadcaster (s.place .broadcaster) := by
        subst hw
        simp [program, hb, broadcasterProgram, hlt, HarvestTrigger.cancelOf]
      have hlive : MemberAt.phase (s.place (.member k)) = .live := by
        rw [hs.group_phase hw hlt, hst, hb]
        exact if_neg (lt_irrefl k)
      exact hs.canStep_of_live hforwarder (by simp) hlive hsend
    · have hsend : .send .cancel (.flag true) BroadcasterAt.done ∈
          program w .broadcaster (s.place .broadcaster) := by
        subst hw
        simp [program, hb, broadcasterProgram, heq]
      have hreceive : .receive .cancel (fun _ => OwnerAt.closeTrigger) ∈
          program w .owner (s.place .owner) := by
        rw [ho]
        exact List.mem_singleton.mpr rfl
      exact canStep_send (by simp) hsend hreceive (hs.open_of_send (offers_of_mem hsend))
  · have hreceive : .receive (w.cancelOf k) (fun _ => BroadcasterAt.tell (k + 1)) ∈
        program w .broadcaster (s.place .broadcaster) := by
      subst hw
      rw [hb]
      exact List.mem_singleton.mpr rfl
    have hconfirm : MemberAt.phase (s.place (.member k)) = .confirming := by
      rw [hs.group_phase hw hk, hst, hb]
      simp [groupPhase]
    exact hs.canStep_of_confirm (by simp) hconfirm hreceive

/-- While the cancellation is under way, what takes part in it can go on. -/
theorem Staged.canStep (hs : Staged w s) (h : closing (s.place .owner) = true) : CanStep w s := by
  have hforwarder : s.place .forwarder ≠ ForwarderAt.unborn :=
    hs.forwarder fun ho => by rw [ho] at h; cases h
  cases ho : s.place .owner with
  | sendCancel =>
      have hsend : .send .cancel (.flag true) OwnerAt.awaitConfirmation ∈
          program w .owner (s.place .owner) := by
        rw [ho]
        exact List.mem_singleton.mpr rfl
      cases w with
      | triggerBuilder ht =>
          have hphase := hs.phases 0
          rw [memberPhase, if_pos rfl, ho] at hphase
          exact hs.canStep_of_live hforwarder (by simp) hphase hsend
      | group ts =>
          have hfits := hs.group ts rfl
          rw [ho] at hfits
          cases hst : s.place .starter with
          | started k => exact hs.canStep_of_started rfl hst
          | unborn => rw [hst] at hfits; cases hfits.1
          | done =>
              rw [hst] at hfits
              have hreceive : .receive .cancel (fun _ => BroadcasterAt.tell 0) ∈
                  program (.group ts) .broadcaster (s.place .broadcaster) := by
                rw [hfits.2]
                exact List.mem_singleton.mpr rfl
              exact canStep_send (by simp) hsend hreceive (hs.open_of_send (offers_of_mem hsend))
  | awaitConfirmation =>
      cases w with
      | triggerBuilder ht =>
          have hphase := hs.phases 0
          rw [memberPhase, if_pos rfl, ho] at hphase
          have hreceive : .receive .cancel (fun _ => OwnerAt.closeTrigger) ∈
              program (.triggerBuilder ht) .owner (s.place .owner) := by
            rw [ho]
            exact List.mem_singleton.mpr rfl
          exact hs.canStep_of_confirm (by simp) hphase hreceive
      | group ts => exact hs.canStep_of_broadcast rfl hforwarder ho
  | closeTrigger =>
      have hclose : .close .trigger OwnerAt.closeCancel ∈ program w .owner (s.place .owner) := by
        rw [ho]
        exact List.mem_singleton.mpr rfl
      exact ⟨_, _, .close hclose (hs.open_of_close (offers_of_mem hclose)), rfl⟩
  | closeCancel =>
      have hclose : .close .cancel OwnerAt.returned ∈ program w .owner (s.place .owner) := by
        rw [ho]
        exact List.mem_singleton.mpr rfl
      exact ⟨_, _, .close hclose (hs.open_of_close (offers_of_mem hclose)), rfl⟩
  | _ => rw [ho] at h; cases h

/-! ### The work that is left -/

def ownerWork : OwnerAt → ℕ
  | .startForwarder => 10
  | .startTrigger => 8
  | .made => 5
  | .sendCancel => 4
  | .awaitConfirmation => 3
  | .closeTrigger => 2
  | .closeCancel => 1
  | .returned => 0

def forwarderWork : ForwarderAt → ℕ
  | .unborn => 0
  | .range => 1
  | .forward _ => 2
  | .done => 0

def starterWork (n : ℕ) : StarterAt → ℕ
  | .unborn => 3 * n + 1
  | .started k => 3 * (n - k) + 1
  | .done => 0

def broadcasterWork (n : ℕ) : BroadcasterAt → ℕ
  | .unborn => 2 * n + 3
  | .listen => 2 * n + 3
  | .tell k => 2 * (n - k) + 2
  | .hear k => 2 * (n - k) + 1
  | .done => 0

/-- A pending tick makes three steps: the member takes it and sends, and the forwarder
forwards. -/
def memberWork : MemberAt → ℕ
  | .unborn => 0
  | .select false => 2
  | .select true => 5
  | .sendTrigger false => 4
  | .sendTrigger true => 7
  | .confirm => 1
  | .done => 0

def membersWork (n : ℕ) (s : State) : ℕ :=
  ∑ k ∈ Finset.range n, memberWork (s.place (.member k))

def work (w : HarvestTrigger) (s : State) : ℕ :=
  ownerWork (s.place .owner) + forwarderWork (s.place .forwarder) +
    starterWork w.members (s.place .starter) + broadcasterWork w.members (s.place .broadcaster) +
    membersWork w.members s

/-- What one goroutine at a place has left. -/
def placeWork (w : HarvestTrigger) : (i : Goroutine) → Place i → ℕ
  | .owner, p => ownerWork p
  | .forwarder, p => forwarderWork p
  | .processor, _ => 0
  | .starter, p => starterWork w.members p
  | .broadcaster, p => broadcasterWork w.members p
  | .member _, p => memberWork p

theorem membersWork_goto {n : ℕ} (s : State) {i : Goroutine} (h : ∀ k, i ≠ .member k)
    (p : Place i) : membersWork n (s.goto i p) = membersWork n s := by
  refine Finset.sum_congr rfl fun k _ => ?_
  rw [Net.goto_place_of_ne _ (h k).symm]

theorem membersWork_goto_member {n k : ℕ} (hk : k < n) (s : State) (p : MemberAt) :
    membersWork n (s.goto (.member k) p) + memberWork (s.place (.member k)) =
      membersWork n s + memberWork p := by
  have hmem : k ∈ Finset.range n := Finset.mem_range.mpr hk
  have hrest : ∑ j ∈ (Finset.range n).erase k, memberWork ((s.goto (.member k) p).place (.member j)) =
      ∑ j ∈ (Finset.range n).erase k, memberWork (s.place (.member j)) := by
    refine Finset.sum_congr rfl fun j hj => ?_
    rw [Net.goto_place_of_ne _ (by simpa using Finset.ne_of_mem_erase hj)]
  rw [membersWork, membersWork, ← Finset.sum_erase_add _ _ hmem, ← Finset.sum_erase_add _ _ hmem,
    hrest, Net.goto_place_self]
  omega

/-- Only the members of the trigger have work. -/
def HarvestTrigger.Runs (w : HarvestTrigger) : Goroutine → Prop
  | .member k => k < w.members
  | _ => True

/-- A goroutine that moves gives the work of its old place for that of the new one. -/
theorem work_goto (w : HarvestTrigger) (s : State) {i : Goroutine} (hi : w.Runs i) (p : Place i) :
    work w (s.goto i p) + placeWork w i (s.place i) = work w s + placeWork w i p := by
  cases i with
  | member k =>
      have hmembers := membersWork_goto_member hi s p
      simp only [work, placeWork, ne_eq, reduceCtorEq, not_false_eq_true, Net.goto_place_of_ne]
      omega
  | processor =>
      simp only [work, placeWork, ne_eq, reduceCtorEq, not_false_eq_true, Net.goto_place_of_ne,
        membersWork_goto, implies_true]
  | _ =>
      simp only [work, placeWork, ne_eq, reduceCtorEq, not_false_eq_true, Net.goto_place_of_ne,
        Net.goto_place_self, membersWork_goto, implies_true]
      omega

theorem work_goto_goto (w : HarvestTrigger) (s : State) {i j : Goroutine} (hne : j ≠ i)
    (hi : w.Runs i) (hj : w.Runs j) (p : Place i) (q : Place j) :
    work w ((s.goto i p).goto j q) + placeWork w i (s.place i) + placeWork w j (s.place j) =
      work w s + placeWork w i p + placeWork w j q := by
  have hfirst := work_goto w s hi p
  have hsecond := work_goto w (s.goto i p) hj q
  rw [Net.goto_place_of_ne _ hne] at hsecond
  omega

theorem work_shut (w : HarvestTrigger) (s : State) (c : Chan) : work w (s.shut c) = work w s := rfl

theorem two_le_select {k : ℕ} {b : Bool} (h : s.place (.member k) = MemberAt.select b) :
    2 ≤ memberWork (s.place (.member k)) := by
  rw [h]
  cases b <;> simp [memberWork]

theorem spends (he : e.isTick = false) (h : work w t < work w s) :
    work w t + (if e.isTick = true then 0 else 1) ≤
      work w s + (if e.isTick = true then 3 else 0) := by
  rw [he]
  exact h

theorem earns (he : e.isTick = true) (h : work w t ≤ work w s + 3) :
    work w t + (if e.isTick = true then 0 else 1) ≤
      work w s + (if e.isTick = true then 3 else 0) := by
  rw [he]
  exact h

theorem Staged.work_step (hs : Staged w s) (h : TriggerStep w s e t) :
    work w t + (if e.isTick = true then 0 else 1) ≤
      work w s + (if e.isTick = true then 3 else 0) := by
  have hlt : ∀ {k : ℕ} {p : MemberAt}, s.place (.member k) = p → MemberAt.phase p ≠ .unborn →
      k < w.members := fun hm hp => hs.lt_members (by rw [hm]; exact hp)
  cases h with
  | startForwarder h =>
      have hwork := work_goto_goto w s (by simp : Goroutine.forwarder ≠ .owner) trivial trivial
        OwnerAt.startTrigger ForwarderAt.range
      simp only [placeWork, h, ownerWork, forwarderWork] at hwork
      refine spends rfl ?_
      omega
  | startSingle hw h =>
      have hk : 0 < w.members := by rw [hw]; exact Nat.zero_lt_one
      have hwork := work_goto_goto w s (by simp : Goroutine.member 0 ≠ .owner) trivial hk
        OwnerAt.made (MemberAt.select false)
      simp only [placeWork, h, ownerWork, memberWork] at hwork
      refine spends rfl ?_
      omega
  | startGroup hw h =>
      have hfits := hs.group _ hw
      rw [h] at hfits
      have hwork := work_goto_goto w s (by simp : Goroutine.starter ≠ .owner) trivial trivial
        OwnerAt.made (StarterAt.started 0)
      simp only [placeWork, h, hfits.1, ownerWork, starterWork] at hwork
      refine spends rfl ?_
      omega
  | @startMember ts k hw h hk =>
      have hmembers : k < w.members := by rw [hw]; exact hk
      have hwork := work_goto_goto w s (by simp : Goroutine.member k ≠ .starter) trivial hmembers
        (StarterAt.started (k + 1)) (MemberAt.select false)
      simp only [placeWork, h, starterWork, memberWork] at hwork
      refine spends rfl ?_
      omega
  | startBroadcaster hw h hk =>
      have hfits := hs.group _ hw
      rw [h, groupFits_started] at hfits
      have hwork := work_goto_goto w s (by simp : Goroutine.broadcaster ≠ .starter) trivial trivial
        StarterAt.done BroadcasterAt.listen
      simp only [placeWork, h, hfits.2.2, starterWork, broadcasterWork] at hwork
      refine spends rfl ?_
      omega
  | callClose h =>
      have hwork := work_goto w s (i := .owner) trivial OwnerAt.sendCancel
      simp only [placeWork, h, ownerWork] at hwork
      refine spends rfl ?_
      omega
  | cancelSingle hw h hm =>
      have hk := hlt hm (by simp [MemberAt.phase])
      have hselect := two_le_select hm
      have hwork := work_goto_goto w s (by simp : Goroutine.member 0 ≠ .owner) trivial hk
        OwnerAt.awaitConfirmation MemberAt.confirm
      simp only [placeWork, h, ownerWork, memberWork.eq_6] at hwork
      refine spends rfl ?_
      omega
  | cancelGroup hw h hb =>
      have hwork := work_goto_goto w s (by simp : Goroutine.broadcaster ≠ .owner) trivial trivial
        OwnerAt.awaitConfirmation (BroadcasterAt.tell 0)
      simp only [placeWork, h, hb, ownerWork, broadcasterWork] at hwork
      refine spends rfl ?_
      omega
  | @tell ts k b hw hk h hm =>
      have hmembers : k < w.members := by rw [hw]; exact hk
      have hselect := two_le_select hm
      have hwork := work_goto_goto w s (by simp : Goroutine.member k ≠ .broadcaster) trivial hmembers
        (BroadcasterAt.hear k) MemberAt.confirm
      simp only [placeWork, h, broadcasterWork, memberWork.eq_6] at hwork
      refine spends rfl ?_
      omega
  | @hear ts k hw h hm =>
      have hk := hlt hm (by simp [MemberAt.phase])
      have hwork := work_goto_goto w s (by simp : Goroutine.broadcaster ≠ .member k) hk trivial
        MemberAt.done (BroadcasterAt.tell (k + 1))
      simp only [placeWork, h, hm, broadcasterWork, memberWork] at hwork
      refine spends rfl ?_
      omega
  | confirmSingle hw h hm =>
      have hk := hlt hm (by simp [MemberAt.phase])
      have hwork := work_goto_goto w s (by simp : Goroutine.owner ≠ .member 0) hk trivial
        MemberAt.done OwnerAt.closeTrigger
      simp only [placeWork, h, hm, ownerWork, memberWork] at hwork
      refine spends rfl ?_
      omega
  | confirmGroup hw hk h hb =>
      have hwork := work_goto_goto w s (by simp : Goroutine.owner ≠ .broadcaster) trivial trivial
        BroadcasterAt.done OwnerAt.closeTrigger
      simp only [placeWork, h, hb, ownerWork, broadcasterWork] at hwork
      refine spends rfl ?_
      omega
  | @take k h =>
      have hk := hlt h (by simp [MemberAt.phase])
      have hwork := work_goto w s (i := .member k) hk (MemberAt.sendTrigger false)
      simp only [placeWork, h, memberWork] at hwork
      refine spends rfl ?_
      omega
  | @sendTrigger k b ht h hf =>
      have hk := hlt h (by simp [MemberAt.phase])
      have hwork := work_goto_goto w s (by simp : Goroutine.forwarder ≠ .member k) hk trivial
        (MemberAt.select b) (ForwarderAt.forward (.harvest ht))
      simp only [placeWork, h, hf, forwarderWork] at hwork
      refine spends rfl ?_
      cases b <;> simp only [memberWork] at hwork <;> omega
  | forward h =>
      have hwork := work_goto_goto w s (by simp : Goroutine.processor ≠ .forwarder) trivial trivial
        ForwarderAt.range ()
      simp only [placeWork, h, forwarderWork] at hwork
      refine spends rfl ?_
      omega
  | drain h hclosed =>
      have hwork := work_goto w s (i := .forwarder) trivial ForwarderAt.done
      simp only [placeWork, h, forwarderWork] at hwork
      refine spends rfl ?_
      omega
  | closeTrigger h =>
      have hwork := work_goto w s (i := .owner) trivial OwnerAt.closeCancel
      simp only [placeWork, h, ownerWork] at hwork
      refine spends rfl ?_
      rw [work_shut]
      omega
  | closeCancel h =>
      have hwork := work_goto w s (i := .owner) trivial OwnerAt.returned
      simp only [placeWork, h, ownerWork] at hwork
      refine spends rfl ?_
      rw [work_shut]
      omega
  | @tickSelect k h =>
      have hk := hlt h (by simp [MemberAt.phase])
      have hwork := work_goto w s (i := .member k) hk (MemberAt.select true)
      simp only [placeWork, h, memberWork] at hwork
      refine earns rfl ?_
      omega
  | @tickSend k h =>
      have hk := hlt h (by simp [MemberAt.phase])
      have hwork := work_goto w s (i := .member k) hk (MemberAt.sendTrigger true)
      simp only [placeWork, h, memberWork] at hwork
      refine earns rfl ?_
      omega

theorem work_start (w : HarvestTrigger) : work w start = 5 * w.members + 14 := by
  have hmembers : membersWork w.members start = 0 := Finset.sum_eq_zero fun _ _ => rfl
  rw [work, hmembers]
  simp only [start, unbornPlace, ownerWork, forwarderWork, starterWork, broadcasterWork]
  omega

/-- The steps of the goroutines in a run are bounded by the ticks. -/
theorem steps_le {tr : List Event} (h : Net.Run (program w) start tr s) :
    tr.countP (fun e => !e.isTick) ≤ 5 * w.members + 14 + 3 * tr.countP NetEvent.isTick := by
  have hbound : work w s + tr.countP (fun e => !e.isTick) ≤
      work w start + 3 * tr.countP NetEvent.isTick :=
    (h.bounded (Staged w) (staged_start w) fun _ _ _ ht hstep =>
      ⟨ht.step (ht.step_cases hstep), ht.work_step (ht.step_cases hstep)⟩).2
  rw [work_start] at hbound
  omega

/-! ### Closing -/

theorem closing_step (h : TriggerStep w s e t) (ho : closing (s.place .owner) = true) :
    closing (t.place .owner) = true ∨ t.place .owner = OwnerAt.returned := by
  cases h with
  | closeCancel h => exact Or.inr (by simp)
  | startForwarder h => rw [h] at ho; cases ho
  | startSingle hw h => rw [h] at ho; cases ho
  | startGroup hw h => rw [h] at ho; cases ho
  | callClose h => exact Or.inl (by simp [closing])
  | cancelSingle hw h hm => exact Or.inl (by simp [closing])
  | cancelGroup hw h hb => exact Or.inl (by simp [closing])
  | confirmSingle hw h hm => exact Or.inl (by simp [closing])
  | confirmGroup hw hk h hb => exact Or.inl (by simp [closing])
  | closeTrigger h => exact Or.inl (by simp [closing])
  | _ => exact Or.inl (by simpa using ho)

/-- Without the clock the cancellation comes to its end. The induction is on the work that
is left. -/
theorem Staged.can_return (hs : Staged w s) (ho : closing (s.place .owner) = true) :
    ∃ tr t, Net.Run (program w) s tr t ∧ tr.countP NetEvent.isTick = 0 ∧
      t.place .owner = OwnerAt.returned := by
  induction hwork : work w s using Nat.strong_induction_on generalizing s with
  | _ n ih =>
      obtain ⟨e, t, hstep, htick⟩ := hs.canStep ho
      have hcases := hs.step_cases hstep
      have hle := hs.work_step hcases
      rw [htick] at hle
      simp only [Bool.false_eq_true, if_false, Nat.add_zero] at hle
      rcases closing_step hcases ho with hclosing | hreturned
      · obtain ⟨tr, u, hrun, hticks, hu⟩ := ih (work w t) (by omega) (hs.step hcases) hclosing rfl
        exact ⟨e :: tr, u, hrun.cons hstep, by simp [hticks, htick], hu⟩
      · exact ⟨[e], t, Net.Run.nil.snoc hstep, by simp [htick], hreturned⟩

/-- After any run of a trigger of one period, or of a group of any number of members: no
goroutine has sent on a closed channel; no member has confirmed its cancellation twice, and each
has done so once `Close` has returned; and while `Close` has not returned some goroutine can take a
step, `Close` can return without another tick, and the goroutines take no more than so many
steps without one. -/
theorem cancellation_safe {tr : List Event} (h : Net.Run (program w) start tr s) :
    (∀ i c, .panic i c ∉ tr) ∧
      (∀ k < w.members, tr.countP (confirms w k) ≤ 1) ∧
      (s.place .owner = OwnerAt.returned → ∀ k < w.members, tr.countP (confirms w k) = 1) ∧
      (closing (s.place .owner) = true → CanStep w s ∧
        ∃ tr' t, Net.Run (program w) s tr' t ∧ tr'.countP NetEvent.isTick = 0 ∧
          t.place .owner = OwnerAt.returned) ∧
      tr.countP (fun e => !e.isTick) ≤ 5 * w.members + 14 + 3 * tr.countP NetEvent.isTick := by
  have hs := staged_run h
  refine ⟨no_panic h, fun k _ => ?_, fun ho k hk => ?_, fun ho => ⟨hs.canStep ho, hs.can_return ho⟩,
    steps_le h⟩
  · rw [countP_confirms h k]
    split <;> omega
  · have hphase := hs.phases k
    rw [countP_confirms h k, if_pos]
    cases w with
    | triggerBuilder t =>
        rw [hphase, memberPhase, if_pos (Nat.lt_one_iff.mp hk), ho]
        rfl
    | group ts =>
        have hfits := hs.group ts rfl
        rw [ho] at hfits
        rw [hs.group_phase rfl hk, hfits.1, hfits.2]
        rfl

/-- A trigger of one period whose member has a tick pending when it is cancelled. -/
theorem cancellation_safe_single :
    ∃ tr s, Net.Run (program (.triggerBuilder harvestAllTypes)) start tr s ∧
      s.place .owner = OwnerAt.returned ∧
      tr.countP (confirms (.triggerBuilder harvestAllTypes) 0) = 1 := by
  have hrun := ((((((((Net.Run.nil :
      Net.Run (program (.triggerBuilder harvestAllTypes)) start [] start
    ).snoc (.go (i := .owner) (List.mem_singleton.mpr rfl))
    ).snoc (.go (i := .owner) (List.mem_singleton.mpr rfl))
    ).snoc (.tick (i := .member 0) (List.mem_cons_self))
    ).snoc (.move (i := .owner) (List.mem_singleton.mpr rfl))
    ).snoc (.send (i := .owner) (j := .member 0) (by decide) (List.mem_singleton.mpr rfl)
      (List.mem_cons_of_mem _ List.mem_cons_self) rfl)
    ).snoc (.send (i := .member 0) (j := .owner) (by decide) (List.mem_singleton.mpr rfl)
      (List.mem_singleton.mpr rfl) rfl)
    ).snoc (.close (i := .owner) (List.mem_singleton.mpr rfl) rfl)
    ).snoc (.close (i := .owner) (List.mem_singleton.mpr rfl) rfl)
  exact ⟨_, _, hrun, rfl, (cancellation_safe hrun).2.2.1 rfl 0 Nat.zero_lt_one⟩

end AppHarvest

end AxiomDaemon.Daemon

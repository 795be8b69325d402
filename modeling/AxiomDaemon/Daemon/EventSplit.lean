import AxiomDaemon.Daemon.EventReservoir
import AxiomDaemon.Daemon.Harvest

/-!
What `Split` of `analytics_events.go` conserves. The halves of a reservoir have
its events and the number of its failed harvests, but each of them has seen only
the events that it has. A reservoir that was full has seen more than it saved,
and that number is lost with the split: it is neither reported by the two
payloads nor given back when their delivery fails.
-/

namespace AxiomDaemon.Daemon

namespace Reservoir

variable {ε : Type} {lower : ε → ε → Bool}

/-! ### Adding and merging while there is room -/

theorem addEvent_perm {evs : Reservoir ε} (hroom : evs.events.length < evs.cap) (e : ε) :
    (evs.addEvent lower e).events.Perm (evs.events ++ [e]) := by
  rw [addEvent, dif_pos hroom]
  exact (push_perm lower evs.events evs.cap e).trans (List.perm_append_singleton e evs.events).symm

theorem addEvents_perm {evs : Reservoir ε} {es : List ε}
    (hroom : evs.events.length + es.length ≤ evs.cap) :
    (evs.addEvents lower es).events.Perm (evs.events ++ es) := by
  induction es generalizing evs with
  | nil =>
      rw [List.append_nil]
      exact List.Perm.refl _
  | cons e es ih =>
      rw [List.length_cons] at hroom
      have hadd : (evs.addEvent lower e).events.Perm (evs.events ++ [e]) :=
        addEvent_perm (by omega) e
      have hroom' : (evs.addEvent lower e).events.length + es.length ≤
          (evs.addEvent lower e).cap := by
        rw [hadd.length_eq, cap_addEvent, List.length_append, List.length_singleton]
        omega
      have hperm := (ih hroom').trans (hadd.append_right es)
      rw [List.append_assoc, List.singleton_append] at hperm
      exact hperm

theorem numSeen_addEvents (lower : ε → ε → Bool) (evs : Reservoir ε) (es : List ε) :
    (evs.addEvents lower es).numSeen = evs.numSeen + es.length := by
  induction es generalizing evs with
  | nil => rfl
  | cons e es ih =>
      have hrest := ih (evs.addEvent lower e)
      rw [numSeen_addEvent] at hrest
      rw [List.length_cons]
      exact hrest.trans (by omega)

theorem length_addEvent (lower : ε → ε → Bool) (evs : Reservoir ε) (e : ε) :
    (evs.addEvent lower e).events.length = min evs.cap (evs.events.length + 1) := by
  have hbounded := evs.bounded
  by_cases hroom : evs.events.length < evs.cap
  · rw [(addEvent_perm hroom e).length_eq, List.length_append, List.length_singleton]
    omega
  · rw [addEvent, dif_neg hroom]
    split
    · show evs.events.length = _
      omega
    · show (replace lower evs.events e).length = _
      rw [length_replace]
      omega

theorem length_addEvents (lower : ε → ε → Bool) (evs : Reservoir ε) (es : List ε) :
    (evs.addEvents lower es).events.length = min evs.cap (evs.events.length + es.length) := by
  induction es generalizing evs with
  | nil =>
      have hbounded := evs.bounded
      show evs.events.length = min evs.cap (evs.events.length + 0)
      omega
  | cons e es ih =>
      have hrest := ih (evs.addEvent lower e)
      rw [length_addEvent, cap_addEvent] at hrest
      refine hrest.trans ?_
      rw [List.length_cons]
      omega

/-- Two reservoirs with the same events, in whatever order, and the same counts. -/
structure Same (evs evs' : Reservoir ε) : Prop where
  events : evs.events.Perm evs'.events
  numSeen : evs.numSeen = evs'.numSeen
  cap : evs.cap = evs'.cap
  failedHarvests : evs.failedHarvests = evs'.failedHarvests

/-- Of a reservoir that has failed too often nothing is merged. -/
theorem mergeFailed_of_exhausted (evs : Reservoir ε) {other : Reservoir ε}
    (hfails : failedEventsAttemptsLimit < other.failedHarvests + 1) :
    evs.mergeFailed lower other = evs := if_pos hfails

section Merging

variable {evs other : Reservoir ε}
  (hfails : ¬ failedEventsAttemptsLimit < other.failedHarvests + 1)
include hfails

theorem mergeFailed_eq :
    evs.mergeFailed lower other =
      merge lower { evs with failedHarvests := other.failedHarvests + 1 } other := if_neg hfails

@[simp] theorem cap_mergeFailed : (evs.mergeFailed lower other).cap = evs.cap := by
  rw [mergeFailed_eq hfails]
  exact cap_addEvents ..

theorem failedHarvests_mergeFailed :
    (evs.mergeFailed lower other).failedHarvests = other.failedHarvests + 1 := by
  rw [mergeFailed_eq hfails]
  exact failedHarvests_addEvents ..

theorem numSeen_mergeFailed :
    (evs.mergeFailed lower other).numSeen = evs.numSeen + other.numSeen := by
  rw [mergeFailed_eq hfails]
  rfl

theorem mergeFailed_perm (hroom : evs.events.length + other.events.length ≤ evs.cap) :
    (evs.mergeFailed lower other).events.Perm (evs.events ++ other.events) := by
  rw [mergeFailed_eq hfails]
  have hadd : (({ evs with failedHarvests := other.failedHarvests + 1 } : Reservoir ε).addEvents
      lower other.events).events.Perm (evs.events ++ other.events) := addEvents_perm hroom
  exact hadd

end Merging

/-! ### Splitting -/

/-- One part is merged back after a failed delivery, then events are added, and
then the other part is merged back. -/
def mergeParts (lower : ε → ε → Bool) (target first : Reservoir ε) (between : List ε)
    (second : Reservoir ε) : Reservoir ε :=
  ((target.mergeFailed lower first).addEvents lower between).mergeFailed lower second

/-- What a split has to conserve. Capacity allows that nothing is left out. -/
structure SplitConserves (lower : ε → ε → Bool) (evs : Reservoir ε) : Prop where
  events : evs.split.1.events ++ evs.split.2.events = evs.events
  numSeen : evs.split.1.numSeen + evs.split.2.numSeen = evs.numSeen
  failedHarvests : evs.split.1.failedHarvests = evs.failedHarvests ∧
    evs.split.2.failedHarvests = evs.failedHarvests
  merged : ∀ (target : Reservoir ε) (between : List ε),
    target.events.length + evs.events.length + between.length ≤ target.cap →
    let whole := (target.mergeFailed lower evs).addEvents lower between
    (mergeParts lower target evs.split.1 between evs.split.2).Same whole ∧
      (mergeParts lower target evs.split.2 between evs.split.1).Same whole

theorem events_split (evs : Reservoir ε) :
    evs.split.1.events ++ evs.split.2.events = evs.events := List.take_append_drop ..

theorem numSeen_split (evs : Reservoir ε) :
    evs.split.1.numSeen + evs.split.2.numSeen = evs.events.length := by
  rw [← events_split evs, List.length_append]
  rfl

theorem SplitConserves.numSeen_eq {evs : Reservoir ε} (h : SplitConserves lower evs) :
    evs.numSeen = evs.events.length := by
  rw [← h.numSeen, numSeen_split]

/-- Two parts of a reservoir that have seen, together, what it has seen. -/
theorem mergeParts_same {target evs first second : Reservoir ε} {between : List ε}
    (hevents : (first.events ++ second.events).Perm evs.events)
    (hseen : first.numSeen + second.numSeen = evs.numSeen)
    (hfirst : first.failedHarvests = evs.failedHarvests)
    (hsecond : second.failedHarvests = evs.failedHarvests)
    (hroom : target.events.length + evs.events.length + between.length ≤ target.cap) :
    (mergeParts lower target first between second).Same
      ((target.mergeFailed lower evs).addEvents lower between) := by
  rw [mergeParts]
  by_cases hfails : failedEventsAttemptsLimit < evs.failedHarvests + 1
  · rw [mergeFailed_of_exhausted _ (hsecond ▸ hfails), mergeFailed_of_exhausted _ (hfirst ▸ hfails),
      mergeFailed_of_exhausted _ hfails]
    exact ⟨List.Perm.refl _, rfl, rfl, rfl⟩
  · have hfails₁ : ¬ failedEventsAttemptsLimit < first.failedHarvests + 1 := hfirst ▸ hfails
    have hfails₂ : ¬ failedEventsAttemptsLimit < second.failedHarvests + 1 := hsecond ▸ hfails
    have hlength := hevents.length_eq
    rw [List.length_append] at hlength
    -- the events of the three reservoirs, in the order in which they came
    have hmerged₁ : (target.mergeFailed lower first).events.Perm (target.events ++ first.events) :=
      mergeFailed_perm hfails₁ (by omega)
    have hadded : ((target.mergeFailed lower first).addEvents lower between).events.Perm
        (target.events ++ first.events ++ between) := by
      refine (addEvents_perm ?_).trans (hmerged₁.append_right between)
      rw [hmerged₁.length_eq, cap_mergeFailed hfails₁, List.length_append]
      omega
    have hmerged₂ : (mergeParts lower target first between second).events.Perm
        (target.events ++ first.events ++ between ++ second.events) := by
      refine (mergeFailed_perm hfails₂ ?_).trans (hadded.append_right second.events)
      rw [hadded.length_eq, cap_addEvents, cap_mergeFailed hfails₁]
      simp only [List.length_append]
      omega
    have hwhole : (target.mergeFailed lower evs).events.Perm (target.events ++ evs.events) :=
      mergeFailed_perm hfails (by omega)
    have hwhole' : ((target.mergeFailed lower evs).addEvents lower between).events.Perm
        (target.events ++ evs.events ++ between) := by
      refine (addEvents_perm ?_).trans (hwhole.append_right between)
      rw [hwhole.length_eq, cap_mergeFailed hfails, List.length_append]
      omega
    have hsame : (target.events ++ first.events ++ between ++ second.events).Perm
        (target.events ++ evs.events ++ between) := by
      have hswap : (first.events ++ (between ++ second.events)).Perm
          (first.events ++ second.events ++ between) := by
        rw [List.append_assoc]
        exact List.perm_append_comm.append_left first.events
      simp only [List.append_assoc] at hswap ⊢
      refine (hswap.trans ?_).append_left target.events
      rw [← List.append_assoc]
      exact hevents.append_right between
    constructor
    · exact hmerged₂.trans (hsame.trans hwhole'.symm)
    · rw [numSeen_mergeFailed hfails₂, numSeen_addEvents, numSeen_mergeFailed hfails₁,
        numSeen_addEvents, numSeen_mergeFailed hfails]
      omega
    · rw [cap_mergeFailed hfails₂, cap_addEvents, cap_mergeFailed hfails₁, cap_addEvents,
        cap_mergeFailed hfails]
    · rw [failedHarvests_mergeFailed hfails₂, failedHarvests_addEvents,
        failedHarvests_mergeFailed hfails, hsecond]

theorem SplitConserves.of_numSeen_eq (lower : ε → ε → Bool) {evs : Reservoir ε}
    (h : evs.numSeen = evs.events.length) : SplitConserves lower evs where
  events := events_split evs
  numSeen := by rw [numSeen_split, h]
  failedHarvests := ⟨rfl, rfl⟩
  merged := by
    intro target between hroom
    have hseen := (numSeen_split evs).trans h.symm
    have hevents : (evs.split.1.events ++ evs.split.2.events).Perm evs.events := by
      rw [events_split]
    constructor
    · exact mergeParts_same hevents hseen rfl rfl hroom
    · exact mergeParts_same (List.perm_append_comm.trans hevents) (by omega) rfl rfl hroom

/-- A split conserves a reservoir if and only if it has seen no event that it did
not save. -/
theorem split_conserves_iff (lower : ε → ε → Bool) (evs : Reservoir ε) :
    SplitConserves lower evs ↔ evs.numSeen = evs.events.length :=
  ⟨SplitConserves.numSeen_eq, SplitConserves.of_numSeen_eq lower⟩

theorem numSeen_newReservoir (lower : ε → ε → Bool) (max : ℕ) (es : List ε) :
    ((newReservoir max).addEvents lower es).numSeen = es.length :=
  (numSeen_addEvents lower (newReservoir max) es).trans (Nat.zero_add _)

theorem length_newReservoir (lower : ε → ε → Bool) (max : ℕ) (es : List ε) :
    ((newReservoir max).addEvents lower es).events.length = min max es.length := by
  refine (length_addEvents lower (newReservoir max) es).trans ?_
  show min max (0 + es.length) = _
  rw [Nat.zero_add]

/-- Events are added to a new reservoir. The split conserves it if and only if
they all found room. -/
theorem splitConserves_addEvents (lower : ε → ε → Bool) (max : ℕ) (es : List ε) :
    SplitConserves lower ((newReservoir max).addEvents lower es) ↔ es.length ≤ max := by
  have hseen := numSeen_newReservoir lower max es
  have hlength := length_newReservoir lower max es
  constructor
  · intro h
    have heq := h.numSeen_eq
    omega
  · intro hle
    refine SplitConserves.of_numSeen_eq lower ?_
    omega

/-- One transaction event more than there is room for. -/
theorem split_loses_numSeen :
    let es := List.replicate (maxTxnEvents + 1) 0
    let evs := (newReservoir maxTxnEvents).addEvents (fun x y : ℕ => decide (x < y)) es
    evs.numSeen = maxTxnEvents + 1 ∧ evs.split.1.numSeen + evs.split.2.numSeen = maxTxnEvents ∧
      ¬ SplitConserves (fun x y => decide (x < y)) evs := by
  have hlength : (List.replicate (maxTxnEvents + 1) 0).length = maxTxnEvents + 1 :=
    List.length_replicate
  generalize List.replicate (maxTxnEvents + 1) 0 = es at hlength
  intro evs
  refine ⟨?_, ?_, ?_⟩
  · exact (numSeen_newReservoir _ _ es).trans hlength
  · rw [numSeen_split, length_newReservoir, hlength, min_eq_left (Nat.le_succ _)]
  · rw [splitConserves_addEvents, hlength]
    exact Nat.not_succ_le_self _

end Reservoir

end AxiomDaemon.Daemon

import AxiomDaemon.Daemon.Collections
import AxiomDaemon.Lib.Double
import AxiomDaemon.Lib.HeapOrder
import AxiomDaemon.Lib.Transition

/-!
Which events a reservoir of the daemon keeps (`analytics_events.go`).

The reservoirs of `AnalyticsEvents` carry priorities whose order is that of the
machine's floating point unit and can only be run. Here the type of the events
and their comparison are parameters; the operations are the same ones, which
`toReservoir_addEvent` and its companions say. With the priorities of
`Double`, whose order is defined, it can be proved what is kept.

Until a reservoir is full its events lie in the order of their arrival. They
become a heap when the last place is taken and are one from then on, so that the
first event is one of least priority whenever an event has to make room. That is
the invariant. It does not depend on how the events of a merged reservoir lie.
-/

namespace AxiomDaemon.Daemon

open AxiomDaemon.Lib

/-! ### Reservoirs of any events -/

/-- `analyticsEvents`, where `ε` is the type of the events. -/
structure Reservoir (ε : Type) where
  numSeen : ℕ
  events : List ε
  cap : ℕ
  failedHarvests : ℕ
  bounded : events.length ≤ cap

namespace Reservoir

variable {ε : Type}

/-- `newAnalyticsEvents`. -/
def newReservoir (max : ℕ) : Reservoir ε where
  numSeen := 0
  events := []
  cap := max
  failedHarvests := 0
  bounded := Nat.zero_le max

section Operations

variable (lower : ε → ε → Bool)

/-- The event that is added while there is room. The last one makes a heap. -/
def push (events : List ε) (cap : ℕ) (e : ε) : List ε :=
  if (events ++ [e]).length = cap then heapInit lower (events ++ [e]) else events ++ [e]

theorem push_perm (events : List ε) (cap : ℕ) (e : ε) : (push lower events cap e).Perm (e :: events) := by
  rw [push]
  split
  · exact (heapInit_perm _ _).trans (List.perm_append_singleton e events)
  · exact List.perm_append_singleton e events

def replace (events : List ε) (e : ε) : List ε :=
  match events.head? with
  | none => events
  | some root => if lower e root then events else heapPush lower (heapPop lower events) e

theorem length_replace (events : List ε) (e : ε) : (replace lower events e).length = events.length := by
  rw [replace]
  split
  · rfl
  · next root hroot =>
      split
      · rfl
      · have hpos : 0 < events.length := List.length_pos_of_mem (List.mem_of_head? hroot)
        rw [length_heapPush, length_heapPop]
        omega

/-- `AddEvent`. -/
def addEvent (evs : Reservoir ε) (e : ε) : Reservoir ε :=
  if h : evs.events.length < evs.cap then
    { evs with
      numSeen := evs.numSeen + 1
      events := push lower evs.events evs.cap e
      bounded := by rw [(push_perm lower evs.events evs.cap e).length_eq]; exact h }
  else if evs.cap = 0 then { evs with numSeen := evs.numSeen + 1 }
  else
    { evs with
      numSeen := evs.numSeen + 1
      events := replace lower evs.events e
      bounded := by rw [length_replace]; exact evs.bounded }

def addEvents (evs : Reservoir ε) (es : List ε) : Reservoir ε := es.foldl (addEvent lower) evs

/-- `Merge`. -/
def merge (evs other : Reservoir ε) : Reservoir ε :=
  { evs.addEvents lower other.events with numSeen := evs.numSeen + other.numSeen }

/-- `MergeFailed`. -/
def mergeFailed (evs other : Reservoir ε) : Reservoir ε :=
  let fails := other.failedHarvests + 1
  if fails > failedEventsAttemptsLimit then evs
  else merge lower { evs with failedHarvests := fails } other

end Operations

def half (evs : Reservoir ε) (events : List ε) : Reservoir ε where
  numSeen := events.length
  events := events
  cap := events.length
  failedHarvests := evs.failedHarvests
  bounded := le_rfl

/-- `Split`. -/
def split (evs : Reservoir ε) : Reservoir ε × Reservoir ε :=
  (evs.half (evs.events.take (evs.events.length / 2)),
    evs.half (evs.events.drop (evs.events.length / 2)))

/-- What happens to a reservoir, with the reservoirs that are merged into it. -/
inductive Op (ε : Type)
  | addEvent (e : ε)
  | merge (other : Reservoir ε)
  | mergeFailed (other : Reservoir ε)

def exec (lower : ε → ε → Bool) (evs : Reservoir ε) : Op ε → Reservoir ε
  | .addEvent e => evs.addEvent lower e
  | .merge other => evs.merge lower other
  | .mergeFailed other => evs.mergeFailed lower other

/-- The events that an operation offers. A reservoir that has failed too often
is discarded and offers none. -/
def Op.offered : Op ε → List ε
  | .addEvent e => [e]
  | .merge other => other.events
  | .mergeFailed other =>
      if other.failedHarvests + 1 > failedEventsAttemptsLimit then [] else other.events

/-- How many events a merged reservoir has seen beyond those that it saved. -/
def Op.unsaved : Op ε → ℤ
  | .addEvent _ => 0
  | .merge other => other.numSeen - other.events.length
  | .mergeFailed other =>
      if other.failedHarvests + 1 > failedEventsAttemptsLimit then 0
      else other.numSeen - other.events.length

/-! ### Counts -/

section Counts

variable (lower : ε → ε → Bool)

@[simp] theorem cap_addEvent (evs : Reservoir ε) (e : ε) : (evs.addEvent lower e).cap = evs.cap := by
  rw [addEvent]
  split
  · rfl
  · split <;> rfl

@[simp] theorem failedHarvests_addEvent (evs : Reservoir ε) (e : ε) :
    (evs.addEvent lower e).failedHarvests = evs.failedHarvests := by
  rw [addEvent]
  split
  · rfl
  · split <;> rfl

@[simp] theorem cap_addEvents (evs : Reservoir ε) (es : List ε) :
    (evs.addEvents lower es).cap = evs.cap := by
  induction es generalizing evs with
  | nil => rfl
  | cons e es ih => exact (ih (evs.addEvent lower e)).trans (cap_addEvent lower evs e)

@[simp] theorem failedHarvests_addEvents (evs : Reservoir ε) (es : List ε) :
    (evs.addEvents lower es).failedHarvests = evs.failedHarvests := by
  induction es generalizing evs with
  | nil => rfl
  | cons e es ih =>
      exact (ih (evs.addEvent lower e)).trans (failedHarvests_addEvent lower evs e)

theorem numSeen_addEvent (evs : Reservoir ε) (e : ε) :
    (evs.addEvent lower e).numSeen = evs.numSeen + 1 := by
  rw [addEvent]
  split
  · rfl
  · split <;> rfl

theorem numSeen_exec (evs : Reservoir ε) (op : Op ε) :
    ((evs.exec lower op).numSeen : ℤ) = evs.numSeen + op.offered.length + op.unsaved := by
  cases op with
  | addEvent e =>
      have hseen := numSeen_addEvent lower evs e
      simp only [exec, Op.offered, Op.unsaved, hseen, List.length_singleton]
      omega
  | merge other =>
      simp only [exec, merge, Op.offered, Op.unsaved]
      omega
  | mergeFailed other =>
      simp only [exec, mergeFailed, merge, Op.offered, Op.unsaved]
      split
      · rw [List.length_nil]
        omega
      · simp only
        omega

theorem failedHarvests_exec {evs : Reservoir ε} (h : evs.failedHarvests ≤ failedEventsAttemptsLimit)
    (op : Op ε) : (evs.exec lower op).failedHarvests ≤ failedEventsAttemptsLimit := by
  cases op with
  | addEvent e =>
      rw [exec, failedHarvests_addEvent]
      exact h
  | merge other =>
      simp only [exec, merge, failedHarvests_addEvents]
      exact h
  | mergeFailed other =>
      simp only [exec, mergeFailed, merge]
      split
      · exact h
      · next hfew =>
          rw [failedHarvests_addEvents]
          exact not_lt.mp hfew

end Counts

/-! ### What is kept -/

section Kept

variable {β : Type} [LinearOrder β] {lower : ε → ε → Bool} {rank : ε → β}

/-- A reservoir holds the greatest of what it was offered, and is a heap once it
is full. -/
structure Holds (rank : ε → β) (evs : Reservoir ε) (offered : List ε) : Prop where
  greatest : Greatest rank evs.cap ↑offered ↑evs.events
  heap : evs.events.length = evs.cap → HeapOrdered rank evs.events

theorem holds_newReservoir (max : ℕ) : Holds rank (newReservoir max) [] where
  greatest := Greatest.empty rank max
  heap := fun _ c _ hc => absurd hc (Nat.not_lt_zero c)

variable {evs : Reservoir ε} {offered : List ε}

theorem Holds.subset (h : Holds rank evs offered) : evs.events ⊆ offered := by
  obtain ⟨left, hleft, _⟩ := h.greatest.sampled
  intro x hx
  have hmem : x ∈ (↑offered : Multiset ε) := by
    rw [hleft]
    exact Multiset.mem_add.mpr (Or.inl hx)
  exact hmem

theorem Holds.push (h : Holds rank evs offered) {e : ε}
    (hlower : ComparesBy lower rank (e :: offered)) (hroom : evs.events.length < evs.cap) :
    Greatest rank evs.cap ↑(e :: offered) ↑(push lower evs.events evs.cap e) ∧
      ((push lower evs.events evs.cap e).length = evs.cap →
        HeapOrdered rank (push lower evs.events evs.cap e)) := by
  have hperm := push_perm lower evs.events evs.cap e
  refine ⟨?_, ?_⟩
  · rw [Multiset.coe_eq_coe.mpr hperm]
    exact h.greatest.room hroom e
  · intro hfull
    have hlast : (evs.events ++ [e]).length = evs.cap := by
      rw [← hfull, hperm.length_eq, List.length_append, List.length_singleton, List.length_cons]
    rw [Reservoir.push, if_pos hlast]
    refine heapInit_ordered (hlower.subset ?_)
    exact List.Subset.trans (List.perm_append_singleton e evs.events).subset
      (List.cons_subset_cons e h.subset)

theorem Holds.replace (h : Holds rank evs offered) {e : ε}
    (hlower : ComparesBy lower rank (e :: offered)) (hfull : evs.events.length = evs.cap)
    (hcap : 0 < evs.cap) :
    Greatest rank evs.cap ↑(e :: offered) ↑(replace lower evs.events e) ∧
      HeapOrdered rank (replace lower evs.events e) := by
  have hheap := h.heap hfull
  obtain ⟨root, hroot⟩ : ∃ root, evs.events.head? = some root :=
    Option.isSome_iff_exists.mp (List.isSome_head?.mpr (List.ne_nil_of_length_pos (by omega)))
  have hmem : root ∈ evs.events := List.mem_of_head? hroot
  have hless : lower e root = true ↔ rank e < rank root :=
    hlower e List.mem_cons_self root (List.mem_cons_of_mem e (h.subset hmem))
  simp only [Reservoir.replace, hroot]
  split
  · next hlt =>
      refine ⟨h.greatest.discard hfull fun y hy => ?_, hheap⟩
      exact (hless.mp hlt).le.trans (hheap.root_le hroot hy)
  · next hge =>
      have hpop : (root :: heapPop lower evs.events).Perm evs.events := heapPop_perm hroot
      have hpush := heapPush_perm lower (heapPop lower evs.events) e
      have hle : rank root ≤ rank e := not_lt.mp fun hlt => hge (hless.mpr hlt)
      have hkept := h.greatest
      rw [← Multiset.coe_eq_coe.mpr hpop, ← Multiset.cons_coe] at hkept
      have hsub : heapPop lower evs.events ⊆ evs.events :=
        List.Subset.trans (List.subset_cons_self root _) hpop.subset
      refine ⟨?_, ?_⟩
      · rw [Multiset.coe_eq_coe.mpr hpush, ← Multiset.cons_coe, ← Multiset.cons_coe]
        refine hkept.replace (hpop.length_eq.trans hfull) (fun y hy => ?_) hle
        exact hheap.root_le hroot (hsub hy)
      · have hoffered : e :: heapPop lower evs.events ⊆ e :: offered :=
          List.cons_subset_cons e (List.Subset.trans hsub h.subset)
        have hevents : evs.events ⊆ e :: offered :=
          List.Subset.trans h.subset (List.subset_cons_self e offered)
        exact heapPush_ordered (hlower.subset hoffered)
          (heapPop_ordered (hlower.subset hevents) hheap)

theorem Holds.addEvent (h : Holds rank evs offered) {e : ε}
    (hlower : ComparesBy lower rank (e :: offered)) :
    Holds rank (evs.addEvent lower e) (e :: offered) := by
  rw [Reservoir.addEvent]
  split
  · next hroom => exact ⟨(h.push hlower hroom).1, (h.push hlower hroom).2⟩
  · next hno =>
      have hfull : evs.events.length = evs.cap := le_antisymm evs.bounded (not_lt.mp hno)
      split
      · next hzero =>
          have hnil : evs.events = [] := List.length_eq_zero_iff.mp (hfull.trans hzero)
          refine ⟨h.greatest.discard hfull fun y hy => ?_, h.heap⟩
          rw [hnil] at hy
          exact absurd hy (Multiset.notMem_zero y)
      · next hcap =>
          have hreplace := h.replace hlower hfull (Nat.pos_of_ne_zero hcap)
          exact ⟨hreplace.1, fun _ => hreplace.2⟩

/-- The events of another reservoir are offered one by one. -/
theorem Holds.addEvents (h : Holds rank evs offered) (es : List ε)
    (hlower : ComparesBy lower rank (es.reverse ++ offered)) :
    Holds rank (evs.addEvents lower es) (es.reverse ++ offered) := by
  induction es generalizing evs offered with
  | nil => exact h
  | cons e es ih =>
      rw [List.reverse_cons, List.append_assoc, List.singleton_append] at hlower ⊢
      exact ih (h.addEvent (hlower.subset (List.subset_append_right _ _))) hlower

theorem Holds.counted (h : Holds rank evs offered) (numSeen failedHarvests : ℕ) :
    Holds rank { evs with numSeen := numSeen, failedHarvests := failedHarvests } offered :=
  ⟨h.greatest, h.heap⟩

theorem Holds.exec (h : Holds rank evs offered) (op : Op ε)
    (hlower : ComparesBy lower rank (op.offered.reverse ++ offered)) :
    Holds rank (evs.exec lower op) (op.offered.reverse ++ offered) := by
  cases op with
  | addEvent e => exact h.addEvent hlower
  | merge other => exact (h.addEvents other.events hlower).counted _ _
  | mergeFailed other =>
      simp only [Op.offered] at hlower ⊢
      simp only [Reservoir.exec, mergeFailed]
      split
      · exact h
      · next hfew =>
          rw [if_neg hfew] at hlower
          exact ((h.counted _ _).addEvents other.events hlower).counted _ _

theorem Holds.run (h : Holds rank evs offered) (ops : List (Op ε))
    (hlower : ComparesBy lower rank ((ops.flatMap Op.offered).reverse ++ offered)) :
    Holds rank (runFrom (Reservoir.exec lower) evs ops)
      ((ops.flatMap Op.offered).reverse ++ offered) := by
  induction ops generalizing evs offered with
  | nil => exact h
  | cons op ops ih =>
      rw [List.flatMap_cons, List.reverse_append, List.append_assoc] at hlower ⊢
      exact ih (h.exec op (hlower.subset (List.subset_append_right _ _))) hlower

end Kept

/-! ### Whole runs -/

theorem cap_exec (lower : ε → ε → Bool) (evs : Reservoir ε) (op : Op ε) :
    (evs.exec lower op).cap = evs.cap := by
  cases op with
  | addEvent e => exact cap_addEvent lower evs e
  | merge other => exact cap_addEvents lower evs other.events
  | mergeFailed other =>
      simp only [exec, mergeFailed, merge]
      split
      · rfl
      · exact cap_addEvents lower _ other.events

theorem cap_run (lower : ε → ε → Bool) (evs : Reservoir ε) (ops : List (Op ε)) :
    (runFrom (exec lower) evs ops).cap = evs.cap := by
  induction ops generalizing evs with
  | nil => rfl
  | cons op ops ih => exact (ih (evs.exec lower op)).trans (cap_exec lower evs op)

theorem numSeen_run (lower : ε → ε → Bool) (evs : Reservoir ε) (ops : List (Op ε)) :
    ((runFrom (exec lower) evs ops).numSeen : ℤ) =
      evs.numSeen + (ops.flatMap Op.offered).length + (ops.map Op.unsaved).sum := by
  induction ops generalizing evs with
  | nil => simp
  | cons op ops ih =>
      rw [runFrom_cons, ih (evs.exec lower op), numSeen_exec, List.flatMap_cons, List.length_append,
        List.map_cons, List.sum_cons]
      push_cast
      ring

theorem failedHarvests_run (lower : ε → ε → Bool) {evs : Reservoir ε}
    (h : evs.failedHarvests ≤ failedEventsAttemptsLimit) (ops : List (Op ε)) :
    (runFrom (exec lower) evs ops).failedHarvests ≤ failedEventsAttemptsLimit := by
  induction ops generalizing evs with
  | nil => exact h
  | cons op ops ih => exact ih (failedHarvests_exec lower h op)

end Reservoir

/-! ### Events with a sampling priority -/

/-- `AnalyticsEvent`. -/
structure SampledEvent (ι : Type) where
  priority : Double
  data : ι

/-- `IsLowerPriority`, of the priorities of two events. -/
def SampledEvent.lower {ι : Type} (x y : SampledEvent ι) : Bool := x.priority.lt y.priority

theorem SampledEvent.comparesBy {ι : Type} {events : List (SampledEvent ι)}
    (h : ∀ e ∈ events, e.priority.isNaN = false) :
    ComparesBy SampledEvent.lower (fun e => e.priority.rank) events :=
  fun x hx y hy => Double.lt_iff (h x hx) (h y hy)

namespace Reservoir

/-- What a reservoir holds after any operations on a new one, the priorities being
numbers: as many of the offered events as there is room for, and those of the
greatest priorities. -/
theorem reservoir_keeps_greatest {ι : Type} (c : ℕ) (ops : List (Op (SampledEvent ι)))
    (hcomparable : ∀ e ∈ ops.flatMap Op.offered, e.priority.isNaN = false) :
    let evs := runFrom (exec SampledEvent.lower) (newReservoir c) ops
    let offered := ops.flatMap Op.offered
    evs.cap = c ∧ evs.events.length ≤ c ∧ evs.events.length = min c offered.length ∧
      (∃ left : List (SampledEvent ι), offered.Perm (evs.events ++ left) ∧
        ∀ x ∈ left, ∀ y ∈ evs.events, y.priority.lt x.priority = false) ∧
      (evs.numSeen : ℤ) = offered.length + (ops.map Op.unsaved).sum ∧
      evs.failedHarvests ≤ failedEventsAttemptsLimit := by
  intro evs offered
  have hlower : ComparesBy SampledEvent.lower (fun e => e.priority.rank) (offered.reverse ++ []) := by
    refine SampledEvent.comparesBy fun e he => hcomparable e ?_
    rw [List.append_nil, List.mem_reverse] at he
    exact he
  have hcap : evs.cap = c := cap_run SampledEvent.lower (newReservoir c) ops
  have hholds := (holds_newReservoir c).run ops hlower
  rw [List.append_nil] at hholds
  have hcard := hholds.greatest.card
  rw [Multiset.coe_card, Multiset.coe_card, List.length_reverse] at hcard
  refine ⟨hcap, hcap ▸ evs.bounded, hcap ▸ hcard, ?_, ?_, ?_⟩
  · obtain ⟨left, hleft, hle⟩ := hholds.greatest.sampled
    obtain ⟨left, rfl⟩ := Quot.exists_rep left
    have hperm : offered.reverse.Perm (evs.events ++ left) := Multiset.coe_eq_coe.mp hleft
    refine ⟨left, offered.reverse_perm.symm.trans hperm, fun x hx y hy => ?_⟩
    have hmem : ∀ z ∈ evs.events ++ left, z.priority.isNaN = false := fun z hz =>
      hcomparable z (List.mem_reverse.mp (hperm.symm.subset hz))
    rw [Bool.eq_false_iff, Ne, Double.lt_iff (hmem y (List.mem_append_left left hy))
      (hmem x (List.mem_append_right evs.events hx)), not_lt]
    exact hle x hx y hy
  · have hseen := numSeen_run SampledEvent.lower (newReservoir c) ops
    rw [hseen]
    exact congrArg (· + _) (zero_add _)
  · exact failedHarvests_run SampledEvent.lower (Nat.zero_le _) ops

/-- An event whose priority is `n * 2 ^ -53`. -/
def eventOf (n : ℕ) (h : n < 2 ^ 53) : SampledEvent ℕ where
  priority := .finite ⟨false, n, 1021, h, by decide⟩
  data := n

/-- Three events are added to a reservoir of two, which is then split; the first half is
merged into another reservoir of two that has seen one event and failed nine times. -/
theorem reservoir_keeps_greatest_split :
    let added : List (Op (SampledEvent ℕ)) :=
      [.addEvent (eventOf 5 (by decide)), .addEvent (eventOf 1 (by decide)),
        .addEvent (eventOf 3 (by decide))]
    let other := runFrom (exec SampledEvent.lower) (newReservoir 2) added
    let ops : List (Op (SampledEvent ℕ)) :=
      [.addEvent (eventOf 4 (by decide)),
        .mergeFailed { other.split.1 with failedHarvests := 9 }, .merge other]
    (runFrom (exec SampledEvent.lower) (newReservoir 2) ops).events.length =
      min 2 (ops.flatMap Op.offered).length := by
  intro added other ops
  exact (reservoir_keeps_greatest 2 ops (by decide +kernel)).2.2.1

end Reservoir

/-! ### The reservoirs of the daemon -/

namespace AnalyticsEvents

variable {ι : Type}

/-- The same reservoir. -/
def toReservoir (evs : AnalyticsEvents ι) : Reservoir (AnalyticsEvent ι) where
  numSeen := evs.numSeen
  events := evs.events
  cap := evs.cap
  failedHarvests := evs.failedHarvests
  bounded := evs.bounded

theorem replace_eq (events : List (AnalyticsEvent ι)) (e : AnalyticsEvent ι) :
    replace events e = Reservoir.replace AnalyticsEvent.less events e := by
  cases events <;> rfl

theorem toReservoir_addEvent (evs : AnalyticsEvents ι) (e : AnalyticsEvent ι) :
    (evs.addEvent e).toReservoir = evs.toReservoir.addEvent AnalyticsEvent.less e := by
  have hlen : evs.toReservoir.events.length = evs.events.length := rfl
  have hcap : evs.toReservoir.cap = evs.cap := rfl
  simp only [addEvent, Reservoir.addEvent, hlen, hcap, replace_eq]
  split
  · rfl
  · split <;> rfl

theorem toReservoir_addEvents (evs : AnalyticsEvents ι) (es : List (AnalyticsEvent ι)) :
    (evs.addEvents es).toReservoir = evs.toReservoir.addEvents AnalyticsEvent.less es := by
  induction es generalizing evs with
  | nil => rfl
  | cons e es ih =>
      refine (ih (evs.addEvent e)).trans ?_
      rw [toReservoir_addEvent]
      rfl

theorem toReservoir_merge (evs other : AnalyticsEvents ι) :
    (evs.merge other).toReservoir =
      evs.toReservoir.merge AnalyticsEvent.less other.toReservoir :=
  congrArg (fun r : Reservoir (AnalyticsEvent ι) =>
    { r with numSeen := evs.numSeen + other.numSeen }) (toReservoir_addEvents evs other.events)

theorem toReservoir_mergeFailed (evs other : AnalyticsEvents ι) :
    (evs.mergeFailed other).toReservoir =
      evs.toReservoir.mergeFailed AnalyticsEvent.less other.toReservoir := by
  have hfails : other.toReservoir.failedHarvests = other.failedHarvests := rfl
  simp only [mergeFailed, Reservoir.mergeFailed, hfails]
  split
  · rfl
  · exact toReservoir_merge _ other

theorem toReservoir_split (evs : AnalyticsEvents ι) :
    (evs.split.1.toReservoir, evs.split.2.toReservoir) = evs.toReservoir.split := rfl

/-- Under any order that the comparison of the priorities follows, a reservoir holds the
greatest of the events that it was offered. -/
theorem addEvents_greatest {β : Type} [LinearOrder β] {rank : AnalyticsEvent ι → β} (max : ℕ)
    {es : List (AnalyticsEvent ι)} (h : ComparesBy AnalyticsEvent.less rank es) :
    Greatest rank max ↑es ↑((newAnalyticsEvents max).addEvents es).events := by
  have hes : es.reverse ++ [] ⊆ es := by
    rw [List.append_nil]
    exact es.reverse_subset.mpr (List.Subset.refl es)
  have hholds := (Reservoir.holds_newReservoir max).addEvents es (h.subset hes)
  have hkept := hholds.greatest
  rw [List.append_nil, Reservoir.cap_addEvents, Multiset.coe_eq_coe.mpr es.reverse_perm] at hkept
  have hsame : ((newAnalyticsEvents max).addEvents es).events =
      ((Reservoir.newReservoir max).addEvents AnalyticsEvent.less es).events :=
    congrArg Reservoir.events (toReservoir_addEvents (newAnalyticsEvents max) es)
  rw [hsame]
  exact hkept

end AnalyticsEvents

end AxiomDaemon.Daemon

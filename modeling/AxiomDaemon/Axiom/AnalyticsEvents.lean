import AxiomDaemon.Axiom.TxnData
import AxiomDaemon.Lib.Sampling
import AxiomDaemon.Util.Random

/-!
The reservoir of events of the agent, `nr_analytics_events.c`, as a sample of the events
that are added to it.

An event for which there is no room draws an index below the count of the events so far, and
no two of them draw below the same bound. So the draws of a reservoir are a list, or a
function of the bounds. `events_seen`, which is an `int`, is a number without bound.
-/

namespace AxiomDaemon.Axiom

open AxiomDaemon.Lib AxiomDaemon.Util

variable {k n : ℕ}

/-- A reservoir that is new. -/
def emptyEvents (maxEvents : ℕ) : NrAnalyticsEvents where
  eventsAllocated := maxEvents
  eventsSeen := 0
  events := []

/-- What `nr_random_range` returns for a bound, if the draws of a reservoir of `k` events are
these: the first one is below `k + 1`. -/
def drawAt (k : ℕ) (draws : List ℕ) (maxExclusive : ℕ) : ℤ :=
  draws.getD (maxExclusive - (k + 1)) 0

/-- A new reservoir after events were added one after the other. -/
def addEvents (k : ℕ) (draws : List ℕ) (adds : List Bytes) : Option NrAnalyticsEvents :=
  adds.foldl (fun events event => nrAnalyticsEventsAddEvent events event (drawAt k draws))
    (some (emptyEvents k))

/-- What the calls of `nr_random_range` draw, below one bound after the other, from a
generator with these outputs. -/
def drawIndices : List ℕ → List ℕ → Option (List ℕ)
  | [], _ => some []
  | maxExclusive :: bounds, outputs =>
      (Util.nrRandomRange maxExclusive outputs).bind fun (draw, outputs) =>
        (drawIndices bounds outputs).map (draw :: ·)

theorem addEvents_eq (k n : ℕ) (event : ℕ → Bytes) (draws : List ℕ) :
    addEvents k draws ((List.range n).map event) =
      some
        { eventsAllocated := k
          eventsSeen := n
          events := (sampleAfter k n draws).map event } := by
  induction n with
  | zero => rfl
  | succ n ih =>
      have hlength := (isSample_sampleAfter k n draws).length_eq
      rw [List.range_succ, List.map_append, addEvents, List.foldl_append, ← addEvents, ih,
        List.map_singleton, List.foldl_cons, List.foldl_nil, nrAnalyticsEventsAddEvent,
        Option.map_some, sampleAfter]
      simp only [List.length_map, hlength, drawAt, Nat.add_sub_add_right]
      by_cases hn : n < k
      · rw [if_pos (by omega), if_pos hn, List.map_append, List.map_singleton]
      · rw [if_neg (by omega), if_neg hn, place]
        by_cases hd : draws.getD (n - k) 0 < k
        · rw [if_pos ⟨Int.natCast_nonneg _, Int.ofNat_lt.mpr hd⟩, if_pos hd, List.map_set,
            Int.toNat_natCast]
        · rw [if_neg (fun h => hd (Int.ofNat_lt.mp h.2)), if_neg hd]

theorem drawIndices_lt {bounds outputs draws : List ℕ} (hbounds : ∀ b ∈ bounds, 0 < b)
    (h : drawIndices bounds outputs = some draws) : List.Forall₂ (· < ·) draws bounds := by
  induction bounds generalizing outputs draws with
  | nil =>
      rw [← Option.some.inj h]
      exact .nil
  | cons maxExclusive bounds ih =>
      obtain ⟨hmax, hbounds⟩ := List.forall_mem_cons.mp hbounds
      rw [drawIndices, Option.bind_eq_some_iff] at h
      obtain ⟨⟨draw, left⟩, hdraw, hrest⟩ := h
      obtain ⟨later, hlater, rfl⟩ := Option.map_eq_some_iff.mp hrest
      exact .cons (nrRandomRange_lt hmax hdraw) (ih hbounds hlater)

/-- What the generator draws for a reservoir is one of the sequences of draws. -/
theorem drawIndices_mem {outputs draws : List ℕ}
    (h : drawIndices (List.range' (k + 1) (n - k)) outputs = some draws) :
    draws ∈ drawSequences k n := by
  have hbounds : ∀ b ∈ List.range' (k + 1) (n - k), 0 < b := by
    intro b hb
    exact (Nat.succ_pos k).trans_le (List.mem_range'_1.mp hb).1
  have hlt := drawIndices_lt hbounds h
  have hlength := hlt.length_eq
  rw [mem_drawSequences_iff]
  refine ⟨by rw [hlength, List.length_range'], fun i d hd => ?_⟩
  obtain ⟨hi, rfl⟩ := List.getElem?_eq_some_iff.mp hd
  have hbelow := hlt.get hi (hlength ▸ hi)
  rw [List.get_eq_getElem, List.get_eq_getElem, List.getElem_range'] at hbelow
  dsimp only at hbelow
  omega

/-- A reservoir of `k` events after `n` were added, for every sequence of index draws, of
which each is listed once: it holds as many different ones of the events as it can and has
seen them all. If it is full, each of the events is in it after the same share of these
sequences. What the generator draws is such a sequence; a draw is decided by the first output
that is accepted, and each number below the bound by equally many of these. -/
theorem analyticsEvents_fair (k n : ℕ) (event : ℕ → Bytes) :
    (∀ draws ∈ drawSequences k n, IsSample k n (sampleAfter k n draws) ∧
      addEvents k draws ((List.range n).map event) =
        some
          { eventsAllocated := k
            eventsSeen := n
            events := (sampleAfter k n draws).map event }) ∧
      (k ≤ n → ∀ i < n,
        (((drawSequences k n).countP fun draws => decide (i ∈ sampleAfter k n draws) : ℕ) : ℚ) /
          (drawSequences k n).length = k / n) ∧
      (drawSequences k n).Nodup ∧
      (∀ draws, draws ∈ drawSequences k n ↔
        draws.length = n - k ∧ ∀ i d, draws[i]? = some d → d ≤ k + i) ∧
      (∀ outputs draws, drawIndices (List.range' (k + 1) (n - k)) outputs = some draws →
        draws ∈ drawSequences k n) ∧
      ∀ maxExclusive ≤ Util.nrRandomMaxExclusiveLimit,
        (1 < maxExclusive → ∀ rejected x rest,
          (∀ y ∈ rejected, largestMultiple maxExclusive ≤ y) → x < largestMultiple maxExclusive →
            Util.nrRandomRange maxExclusive (rejected ++ x :: rest) =
              some (x % maxExclusive, rest)) ∧
        ∀ v < maxExclusive,
          Nat.count (fun x => (Util.nrRandomRange maxExclusive [x]).map Prod.fst = some v)
            Util.nrRandomMaxExclusiveLimit = Util.nrRandomMaxExclusiveLimit / maxExclusive := by
  refine ⟨fun draws _ => ⟨isSample_sampleAfter k n draws, addEvents_eq k n event draws⟩,
    fun hk i hi => heldCount_div hk hi, nodup_drawSequences k n,
    fun draws => mem_drawSequences_iff, fun outputs draws h => drawIndices_mem h, ?_⟩
  intro maxExclusive hlimit
  refine ⟨fun hlow rejected x rest hrejected hx => ?_, fun v hv => ?_⟩
  · exact nrRandomRange_append hlow hlimit hrejected hx rest
  · exact count_nrRandomRange hv hlimit

end AxiomDaemon.Axiom

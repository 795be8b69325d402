import AxiomDaemon.Util.MetricTable
import Mathlib.Algebra.Order.Chebyshev
import Mathlib.Algebra.BigOperators.Fin

/-!
The sums of squares of `util_metrics.c`. A duration is squared, and the
squares are added, in the unsigned 64-bit numbers that hold the durations
themselves: the sum that is stored is the exact one as long as that is below
`2 ^ 64`, and is too small from then on. One duration of 2 ^ 32 microseconds,
which is an hour and eleven minutes, is enough.
-/

namespace AxiomDaemon.Util

open AxiomDaemon.Lib AxiomDaemon.Axiom

/-! ### Sums of words -/

theorem toNat_sum (words : List UInt64) :
    words.sum.toNat = (words.map UInt64.toNat).sum % 2 ^ 64 := by
  induction words with
  | nil => rfl
  | cons word words ih =>
      rw [List.sum_cons, UInt64.toNat_add, ih, List.map_cons, List.sum_cons, Nat.add_mod_mod]

/-- The square of the sum is at most the sum of the squares, times their number. -/
theorem sq_sum_le (numbers : List ℕ) :
    numbers.sum ^ 2 ≤ numbers.length * (numbers.map (· ^ 2)).sum := by
  have hsum := Fin.sum_univ_getElem numbers
  have hsquares := Fin.sum_univ_fun_getElem numbers (· ^ 2)
  have hcauchy := sq_sum_le_card_mul_sum_sq (s := Finset.univ)
    (f := fun i : Fin numbers.length => numbers[i.1])
  rw [hsum, hsquares, Finset.card_univ, Fintype.card_fin] at hcauchy
  exact hcauchy

/-! ### Durations -/

/-- What `nrm_add_ex` and `nrm_force_add_ex` pass on. -/
def timedData (duration exclusive : UInt64) : MetricData :=
  { count := 1, total := duration, exclusive := exclusive, min := duration, max := duration,
    sumSquares := duration * duration }

/-- `nrm_add_ex`. -/
def nrmAddEx (table : NrmintTable) (name : CString) (duration exclusive : UInt64) : NrmintTable :=
  nrmAddInternal false table name (timedData duration exclusive)

/-- `nrm_force_add_ex`. -/
def nrmForceAddEx (table : NrmintTable) (name : CString) (duration exclusive : UInt64) :
    NrmintTable :=
  nrmAddInternal true table name (timedData duration exclusive)

/-- `nrm_add`. -/
def nrmAdd (table : NrmintTable) (name : CString) (duration : UInt64) : NrmintTable :=
  nrmAddInternal false table name (durationData duration)

/-- A call that times a metric. -/
inductive TimedCall
  | add (duration : UInt64)
  | addEx (duration exclusive : UInt64)
  | forceAdd (duration : UInt64)
  | forceAddEx (duration exclusive : UInt64)

namespace TimedCall

def exec (name : CString) (table : NrmintTable) : TimedCall → NrmintTable
  | add duration => nrmAdd table name duration
  | addEx duration exclusive => nrmAddEx table name duration exclusive
  | forceAdd duration => nrmForceAdd table name duration
  | forceAddEx duration exclusive => nrmForceAddEx table name duration exclusive

def duration : TimedCall → UInt64
  | add duration | addEx duration _ | forceAdd duration | forceAddEx duration _ => duration

def exclusive : TimedCall → UInt64
  | add duration | forceAdd duration => duration
  | addEx _ exclusive | forceAddEx _ exclusive => exclusive

def force : TimedCall → Bool
  | add _ | addEx _ _ => false
  | forceAdd _ | forceAddEx _ _ => true

/-- What the call adds to its metric. -/
def data (call : TimedCall) : MetricData := timedData call.duration call.exclusive

end TimedCall

/-- A forced addition drops nothing, whatever is done with what is dropped. -/
theorem nrmForceAdd_eq (table : NrmintTable) (name : CString) (duration : UInt64) :
    nrmForceAdd table name duration = nrmAddInternal true table name (durationData duration) := by
  simp [nrmForceAdd, nrmAddInternal, nrmFindOrCreate, findOrCreate]

theorem TimedCall.exec_eq (name : CString) (table : NrmintTable) (call : TimedCall) :
    call.exec name table = execMetricCall table (.add call.force name call.data) := by
  cases call with
  | add | addEx | forceAddEx => rfl
  | forceAdd duration => exact nrmForceAdd_eq table name duration

theorem TimedCall.runFrom_exec (name : CString) (table : NrmintTable) (calls : List TimedCall) :
    runFrom (fun table call => TimedCall.exec name table call) table calls =
      runFrom execMetricCall table (calls.map fun call => .add call.force name call.data) := by
  induction calls generalizing table with
  | nil => rfl
  | cons call calls ih =>
      rw [List.map_cons, runFrom_cons, runFrom_cons, call.exec_eq]
      exact ih _

theorem NrmintTable.Holds.entered_timed {table : NrmintTable} {metrics : List NamedMetric}
    (h : table.Holds metrics) (name : CString) (calls : List TimedCall)
    (hroom : ∀ call ∈ calls.head?, ¬ Drops table call.force name) :
    entered table (calls.map fun call => .add call.force name call.data) =
      calls.map fun call => (name, call.data) := by
  induction calls generalizing table metrics with
  | nil => rfl
  | cons call calls ih =>
      have hentry : entryFor table call.force name call.data = (name, call.data) :=
        if_neg (hroom call rfl)
      have hexec := h.execMetricCall (.add call.force name call.data)
      obtain ⟨g, hholds⟩ := hexec
      have hfound : (nrmFind (Util.execMetricCall table (.add call.force name call.data))
          name).isSome := by
        rw [nrmFind_isSome, h.nrmData_execMetricCall rfl, hentry, if_pos rfl]
        rfl
      simp only [List.map_cons, entered, MetricCall.addition, Option.map_some, hentry,
        Option.toList_some, List.singleton_append]
      congr 1
      refine ih hholds fun next _ hdrops => ?_
      rw [hdrops.1] at hfound
      cases hfound

/-! ### Sums of squares -/

/-- The mathematical sum of the squared durations. -/
def sumOfSquares (durations : List UInt64) : ℕ := (durations.map fun d => d.toNat ^ 2).sum

/-- The metric has the sum of the squares of the durations, and it is not less
than the square of the total over the number of durations. -/
structure MetricData.SquaresExact (mdata : MetricData) (durations : List UInt64) : Prop where
  sumSquares : mdata.sumSquares.toNat = sumOfSquares durations
  spread : mdata.total.toNat * mdata.total.toNat ≤ durations.length * mdata.sumSquares.toNat

theorem toNat_squares (durations : List UInt64) :
    (durations.map fun d => d * d).sum.toNat = sumOfSquares durations % 2 ^ 64 := by
  rw [toNat_sum, List.map_map, sumOfSquares]
  induction durations with
  | nil => rfl
  | cons d durations ih =>
      simp only [List.map_cons, List.sum_cons, Function.comp_apply, UInt64.toNat_mul] at ih ⊢
      rw [Nat.add_mod, ih, ← sq, Nat.mod_mod, ← Nat.add_mod]

theorem sq_total_le (durations : List UInt64) :
    (durations.map UInt64.toNat).sum ^ 2 ≤ durations.length * sumOfSquares durations := by
  have hle := sq_sum_le (durations.map UInt64.toNat)
  rw [List.length_map, List.map_map] at hle
  exact hle

theorem foldData_timed (calls : List TimedCall) :
    (foldData (calls.map TimedCall.data)).count.toNat = calls.length % 2 ^ 64 ∧
    (foldData (calls.map TimedCall.data)).total.toNat =
      (calls.map fun call => call.duration.toNat).sum % 2 ^ 64 ∧
    (foldData (calls.map TimedCall.data)).sumSquares.toNat =
      sumOfSquares (calls.map TimedCall.duration) % 2 ^ 64 := by
  refine ⟨?_, ?_, ?_⟩
  · rw [foldData, toNat_sum]
    simp [List.map_map, Function.comp_def, TimedCall.data, timedData]
  · rw [foldData, toNat_sum]
    simp [List.map_map, Function.comp_def, TimedCall.data, timedData]
  · rw [← toNat_squares, foldData]
    simp only [List.map_map]
    rfl

theorem squaresExact_foldData_iff (calls : List TimedCall)
    (hfits : (calls.map fun call => call.duration.toNat).sum < 2 ^ 64) :
    (foldData (calls.map TimedCall.data)).SquaresExact (calls.map TimedCall.duration) ↔
      sumOfSquares (calls.map TimedCall.duration) < 2 ^ 64 := by
  obtain ⟨_, htotal, hsquares⟩ := foldData_timed calls
  rw [Nat.mod_eq_of_lt hfits] at htotal
  constructor
  · intro hexact
    rw [← hexact.sumSquares]
    exact UInt64.toNat_lt _
  · intro hlt
    rw [Nat.mod_eq_of_lt hlt] at hsquares
    refine ⟨hsquares, ?_⟩
    have hle := sq_total_le (calls.map TimedCall.duration)
    rw [List.map_map] at hle
    rw [htotal, hsquares, ← sq]
    exact hle

/-- After any calls for other metrics, a metric is timed, and the first call
finds room for it or is forced. The durations are counted, and where their sum
fits, the sum of their squares is exact if and only if it fits too. -/
theorem nrmAdd_squaresExact_iff (maxSize : ℤ) (earlier : List MetricCall) (name : CString)
    (first : TimedCall) (calls : List TimedCall) :
    let table := runFrom execMetricCall (nrmTableCreate maxSize) earlier
    let table' := runFrom (fun table call => TimedCall.exec name table call) table (first :: calls)
    let durations := (first :: calls).map TimedCall.duration
    nrmFind table name = none →
    first.force = true ∨ table.number < table.maxSize →
    (durations.map UInt64.toNat).sum < 2 ^ 64 →
    ∃ mdata, nrmData table' name = some mdata ∧
      mdata.count.toNat = durations.length % 2 ^ 64 ∧
      (mdata.SquaresExact durations ↔ sumOfSquares durations < 2 ^ 64) := by
  intro table table' durations hnew hroom hfits
  obtain ⟨metrics, htracks⟩ := (nrmTableCreate_tracks maxSize).runFrom earlier
  rw [List.nil_append] at htracks
  have hnotDropped : ¬ Drops table first.force name := by
    rintro ⟨_, hfull, hforce⟩
    rw [hforce] at hroom
    exact absurd hfull (not_le.mpr (hroom.resolve_left (by decide)))
  have hentered := htracks.holds.entered_timed name (first :: calls) (by
    intro call hcall
    rw [← Option.some.inj hcall]
    exact hnotDropped)
  obtain ⟨metrics', htracks'⟩ := htracks.runFrom
    ((first :: calls).map fun call => .add call.force name call.data)
  rw [hentered, ← TimedCall.runFrom_exec] at htracks'
  have hown : ownData (entered (nrmTableCreate maxSize) earlier ++
      (first :: calls).map fun call => (name, call.data)) name =
        (first :: calls).map TimedCall.data := by
    have hnone : dataOf metrics name = none := by
      rw [← htracks.holds.nrmData_eq, nrmData, hnew]
      rfl
    have hnot : name ∉ (entered (nrmTableCreate maxSize) earlier).map Prod.fst := by
      intro hmem
      rw [htracks.data, if_pos hmem] at hnone
      cases hnone
    rw [ownData_append, ownData_eq_nil hnot, List.nil_append]
    simp [ownData, List.filter_map, Function.comp_def]
  refine ⟨foldData ((first :: calls).map TimedCall.data), ?_, ?_, ?_⟩
  · rw [htracks'.holds.nrmData_eq, htracks'.data, hown]
    exact if_pos (by simp)
  · rw [List.length_map]
    exact (foldData_timed (first :: calls)).1
  · rw [List.map_map] at hfits
    exact squaresExact_foldData_iff (first :: calls) hfits

/-- Durations of 3 and of 4 microseconds. -/
theorem nrmAdd_squaresExact_two :
    let table' := runFrom (fun table call => TimedCall.exec plainName table call)
      (nrmTableCreate 1) [.add 3, .forceAddEx 4 1]
    ∃ mdata, nrmData table' plainName = some mdata ∧ mdata.count.toNat = 2 % 2 ^ 64 ∧
      (mdata.SquaresExact [3, 4] ↔ sumOfSquares [3, 4] < 2 ^ 64) :=
  nrmAdd_squaresExact_iff 1 [] plainName (.add 3) [.forceAddEx 4 1] rfl (.inr (by decide))
    (by decide)

/-- One duration of 2 ^ 32 microseconds leaves a sum of squares of 0. -/
theorem nrmAdd_squares_wrap :
    let table := nrmAdd (nrmTableCreate 1) plainName 0x100000000
    ∃ mdata, nrmData table plainName = some mdata ∧ mdata.total = 0x100000000 ∧
      mdata.sumSquares = 0 ∧ ¬ mdata.SquaresExact [0x100000000] := by
  have hentry : entryFor (nrmTableCreate 1) false plainName (durationData 0x100000000) =
      (plainName, durationData 0x100000000) := by
    refine if_neg ?_
    rintro ⟨_, hfull, _⟩
    exact absurd hfull (by decide)
  have haddition : MetricCall.addition (nrmTableCreate 1)
      (.add false plainName (durationData 0x100000000)) =
        some (false, plainName, durationData 0x100000000) := rfl
  have hdata := (nrmTableCreate_holds 1).nrmData_execMetricCall haddition plainName
  rw [hentry, if_pos rfl] at hdata
  refine ⟨_, hdata, rfl, rfl, fun hexact => ?_⟩
  exact absurd hexact.sumSquares (by decide)

end AxiomDaemon.Util

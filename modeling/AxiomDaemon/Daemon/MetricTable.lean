import Mathlib.Data.List.AList
import AxiomDaemon.Lib.Transition

/-!
The daemon's table of metrics (`metrics.go`) and the rename rules that are
applied to it when it is harvested (`metric_rules.go`).

What a metric holds is a parameter: the table only ever copies the data of a
metric or aggregates it with that of another. For the daemon the data is
`MetricData`, six numbers. To speak of a value that is contained in a table
the same functions are run on `Recorded`, which remembers the values that
were aggregated, and `MetricTable.Represents` says that the daemon's table is
the evaluation of that one.

A Go map is iterated in an order that is chosen anew each time, so the
functions that iterate over a table take the order.
-/

namespace AxiomDaemon.Daemon

open AxiomDaemon.Lib

/-- `limits.FailedMetricAttemptsLimit`. -/
def failedMetricAttemptsLimit : Nat := 5

/-- `limits.MaxMetrics`. -/
def maxMetrics : Nat := 2 * 1000

inductive MetricForce
  | forced
  | unforced
deriving DecidableEq, Repr

structure MetricID where
  name : String
  scope : String
deriving DecidableEq, Repr

/-- Data that can be aggregated into a metric: `aggregate data src`. -/
class Aggregate (D : Type) where
  aggregate : D → D → D

export Aggregate (aggregate)

/-- `metricData`, over any type of numbers. -/
structure MetricData (K : Type) where
  countSatisfied : K
  totalTolerated : K
  exclusiveFailed : K
  min : K
  max : K
  sumSquares : K
deriving DecidableEq, Repr

instance {K : Type} [Add K] [LT K] [DecidableLT K] : Aggregate (MetricData K) where
  aggregate data src :=
    { countSatisfied := data.countSatisfied + src.countSatisfied
      totalTolerated := data.totalTolerated + src.totalTolerated
      exclusiveFailed := data.exclusiveFailed + src.exclusiveFailed
      min := if src.min < data.min then src.min else data.min
      max := if src.max > data.max then src.max else data.max
      sumSquares := data.sumSquares + src.sumSquares }

structure Metric (D : Type) where
  forced : MetricForce
  data : D
deriving DecidableEq, Repr

/-- The order in which one iteration visits the keys of a map. -/
structure MapOrder where
  keys : List MetricID → List MetricID
  perm : ∀ l, (keys l).Perm l

/-- The order that visits the keys as they are stored. -/
def MapOrder.stored : MapOrder where
  keys := id
  perm := fun l => List.Perm.refl l

/-! ### Rename rules

The regular expression of a rule is Go's; a rule is what it does to a name. -/

inductive MetricRuleResult
  | matched
  | unmatched
  | ignore
deriving DecidableEq, Repr

structure MetricRule where
  apply : String → MetricRuleResult × String
  terminate : Bool

abbrev MetricRules := List MetricRule

/-- The loop of `MetricRules.Apply`. -/
def applyLoop : MetricRules → Bool → String → MetricRuleResult × String
  | [], matched, s => (if matched then .matched else .unmatched, s)
  | rule :: rules, matched, s =>
      match rule.apply s with
      | (.ignore, _) => (.ignore, "")
      | (.matched, out) =>
          if rule.terminate then (.matched, out) else applyLoop rules true out
      | (.unmatched, out) => applyLoop rules matched out

/-- `MetricRules.Apply`. -/
def MetricRules.apply (rules : MetricRules) (s : String) : MetricRuleResult × String :=
  applyLoop rules false s

/-! ### The table -/

variable {D : Type}

/-- `MetricTable`: the nested maps by name and by scope are one map by
`MetricID`. -/
structure MetricTable (D : Type) where
  metricPeriodStart : Int
  failedHarvests : Nat
  maxTableSize : Nat
  count : Nat
  numDropped : Nat
  metrics : AList fun _ : MetricID => Metric D
  counted : count = metrics.keys.length

def newMetricTable (maxTableSize : Nat) (now : Int) : MetricTable D where
  metricPeriodStart := now
  failedHarvests := 0
  maxTableSize := maxTableSize
  count := 0
  numDropped := 0
  metrics := ∅
  counted := rfl

namespace MetricTable

def full (mt : MetricTable D) : Bool := decide (mt.count ≥ mt.maxTableSize)

def empty (mt : MetricTable D) : Bool := decide (0 = mt.count)

theorem length_keys_insert_of_none {ms : AList fun _ : MetricID => Metric D} {id : MetricID}
    (h : ms.lookup id = none) (m : Metric D) :
    (ms.insert id m).keys.length = ms.keys.length + 1 := by
  have hnot : id ∉ ms.keys := AList.lookup_eq_none.mp h
  rw [AList.keys_insert, List.length_cons, List.erase_of_not_mem hnot]

theorem length_keys_insert_of_some {ms : AList fun _ : MetricID => Metric D} {id : MetricID}
    {old : Metric D} (h : ms.lookup id = some old) (m : Metric D) :
    (ms.insert id m).keys.length = ms.keys.length := by
  have hmem : id ∈ ms.keys := by
    apply AList.lookup_isSome.mp
    rw [h]
    rfl
  have hpos : 0 < ms.keys.length := List.length_pos_of_mem hmem
  rw [AList.keys_insert, List.length_cons, List.length_erase_of_mem hmem]
  omega

section Merging

variable [Aggregate D]

/-- `mergeMetric`. -/
def mergeMetric (mt : MetricTable D) (id : MetricID) (m : Metric D) : MetricTable D :=
  match h : mt.metrics.lookup id with
  | none =>
      if mt.full && decide (m.forced = .unforced) then
        { mt with numDropped := mt.numDropped + 1 }
      else
        { mt with
          metrics := mt.metrics.insert id m
          count := mt.count + 1
          counted := by rw [length_keys_insert_of_none h, mt.counted] }
  | some old =>
      { mt with
        metrics := mt.metrics.insert id { old with data := aggregate old.data m.data }
        counted := by rw [length_keys_insert_of_some h, mt.counted] }

/-- The body of the loops over the metrics of another table. -/
def mergeKeys (mt src : MetricTable D) (rename : MetricID → MetricID) (ids : List MetricID) :
    MetricTable D :=
  ids.foldl (fun mt id =>
    match src.metrics.lookup id with
    | none => mt
    | some m => mt.mergeMetric (rename id) m) mt

/-- `Merge`. -/
def merge (mt src : MetricTable D) (order : MapOrder) : MetricTable D :=
  mt.mergeKeys src id (order.keys src.metrics.keys)

/-- `MergeFailed`. -/
def mergeFailed (mt src : MetricTable D) (order : MapOrder) : MetricTable D :=
  let fails := src.failedHarvests + 1
  if fails > failedMetricAttemptsLimit then mt
  else
    { mt with
      metricPeriodStart :=
        if src.metricPeriodStart < mt.metricPeriodStart then src.metricPeriodStart
        else mt.metricPeriodStart
      failedHarvests := fails }.merge src order

/-- `ApplyRules`. A nil list of rules is an empty one. -/
def applyRules (mt : MetricTable D) (rules : MetricRules) (order : MapOrder) : MetricTable D :=
  if rules.length = 0 then mt
  else
    (newMetricTable mt.maxTableSize mt.metricPeriodStart).mergeKeys mt
      (fun id => { id with name := (rules.apply id.name).2 }) (order.keys mt.metrics.keys)

/-- The metrics of a list are added one after the other. -/
def addAll (mt : MetricTable D) (rs : List (MetricID × Metric D)) : MetricTable D :=
  rs.foldl (fun mt r => mt.mergeMetric r.1 r.2) mt

/-! ### What merging does -/

theorem mergeMetric_of_none {mt : MetricTable D} {id : MetricID}
    (h : mt.metrics.lookup id = none) (m : Metric D) :
    mt.mergeMetric id m =
      if mt.full && decide (m.forced = .unforced) then { mt with numDropped := mt.numDropped + 1 }
      else
        { mt with
          metrics := mt.metrics.insert id m
          count := mt.count + 1
          counted := by rw [length_keys_insert_of_none h, mt.counted] } := by
  rw [mergeMetric]
  split
  · rfl
  · next old hold =>
      rw [h] at hold
      cases hold

theorem mergeMetric_of_some {mt : MetricTable D} {id : MetricID} {old : Metric D}
    (h : mt.metrics.lookup id = some old) (m : Metric D) :
    mt.mergeMetric id m =
      { mt with
        metrics := mt.metrics.insert id { old with data := aggregate old.data m.data }
        counted := by rw [length_keys_insert_of_some h, mt.counted] } := by
  rw [mergeMetric]
  split
  · next hnone =>
      rw [h] at hnone
      cases hnone
  · next old' hold =>
      obtain rfl : old = old' := Option.some.inj (h.symm.trans hold)
      rfl

/-- A metric is dropped, or added, or aggregated into the one that is there. -/
theorem mergeMetric_cases (mt : MetricTable D) (id : MetricID) (m : Metric D) :
    (mt.metrics.lookup id = none ∧ m.forced = .unforced ∧
        (mt.mergeMetric id m).metrics = mt.metrics) ∨
      (mt.metrics.lookup id = none ∧
        (mt.mergeMetric id m).metrics = mt.metrics.insert id m) ∨
      ∃ old, mt.metrics.lookup id = some old ∧ (mt.mergeMetric id m).metrics =
        mt.metrics.insert id { old with data := aggregate old.data m.data } := by
  cases h : mt.metrics.lookup id with
  | none =>
      rw [mergeMetric_of_none h]
      split
      · next hdrop =>
          rw [Bool.and_eq_true, decide_eq_true_iff] at hdrop
          exact .inl ⟨rfl, hdrop.2, rfl⟩
      · exact .inr (.inl ⟨rfl, rfl⟩)
  | some old =>
      rw [mergeMetric_of_some h]
      exact .inr (.inr ⟨old, rfl, rfl⟩)

@[simp] theorem failedHarvests_mergeMetric (mt : MetricTable D) (id : MetricID) (m : Metric D) :
    (mt.mergeMetric id m).failedHarvests = mt.failedHarvests := by
  cases h : mt.metrics.lookup id with
  | none =>
      rw [mergeMetric_of_none h]
      split <;> rfl
  | some old => rw [mergeMetric_of_some h]

@[simp] theorem failedHarvests_mergeKeys (mt src : MetricTable D) (rename : MetricID → MetricID)
    (ids : List MetricID) : (mt.mergeKeys src rename ids).failedHarvests = mt.failedHarvests := by
  induction ids generalizing mt with
  | nil => rfl
  | cons id ids ih =>
      rw [mergeKeys, List.foldl_cons]
      refine (ih _).trans ?_
      split
      · rfl
      · exact failedHarvests_mergeMetric mt (rename id) _

@[simp] theorem failedHarvests_addAll (mt : MetricTable D) (rs : List (MetricID × Metric D)) :
    (mt.addAll rs).failedHarvests = mt.failedHarvests := by
  induction rs generalizing mt with
  | nil => rfl
  | cons r rs ih =>
      rw [addAll, List.foldl_cons]
      exact (ih _).trans (failedHarvests_mergeMetric mt r.1 r.2)

/-- An invariant of the metrics of a table, kept by every metric that is
added or aggregated, holds after a loop over another table. -/
theorem mergeKeys_induction {P : MetricTable D → Prop} {src : MetricTable D}
    {rename : MetricID → MetricID} {ids : List MetricID} {mt : MetricTable D} (h : P mt)
    (hstep : ∀ mt id m, P mt → id ∈ ids → src.metrics.lookup id = some m →
      P (mt.mergeMetric (rename id) m)) : P (mt.mergeKeys src rename ids) := by
  induction ids generalizing mt with
  | nil => exact h
  | cons id ids ih =>
      rw [mergeKeys, List.foldl_cons]
      apply ih
      · split
        · exact h
        · next m hm => exact hstep mt id m h List.mem_cons_self hm
      · intro mt id' m hmt hid'
        exact hstep mt id' m hmt (List.mem_cons_of_mem id hid')

theorem addAll_induction {P : MetricTable D → Prop} {rs : List (MetricID × Metric D)}
    {mt : MetricTable D} (h : P mt)
    (hstep : ∀ mt, P mt → ∀ r ∈ rs, P (mt.mergeMetric r.1 r.2)) : P (mt.addAll rs) := by
  induction rs generalizing mt with
  | nil => exact h
  | cons r rs ih =>
      rw [addAll, List.foldl_cons]
      apply ih
      · exact hstep mt h r List.mem_cons_self
      · intro mt hmt r' hr'
        exact hstep mt hmt r' (List.mem_cons_of_mem r hr')

end Merging

end MetricTable

end AxiomDaemon.Daemon

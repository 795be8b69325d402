import AxiomDaemon.Daemon.MetricTable

/-!
Metrics that cannot be delivered: the table is handed over at every harvest,
its delivery fails, and it is merged back into the table of the next harvest.

`MergeFailed` counts the failures on the table and discards it once the limit
is passed. Whether a value is ever discarded depends on the count surviving
each hand-over. It survives the merge, which sets it on the live table. It
does not survive `ApplyRules`, which makes a new table whenever there are
rules.
-/

namespace AxiomDaemon.Daemon

open AxiomDaemon.Lib

variable {ι D : Type}

/-! ### The values in a table -/

/-- The data of a metric as the values it was aggregated from. -/
inductive Recorded (ι : Type)
  | value (i : ι)
  | aggregated (data src : Recorded ι)
deriving DecidableEq, Repr

namespace Recorded

instance : Aggregate (Recorded ι) := ⟨aggregated⟩

def Contains : Recorded ι → ι → Prop
  | value j, i => j = i
  | aggregated data src, i => data.Contains i ∨ src.Contains i

/-- The data that results when every recorded value has data of its own. -/
def eval [Aggregate D] (v : ι → D) : Recorded ι → D
  | value i => v i
  | aggregated data src => aggregate (data.eval v) (src.eval v)

end Recorded

/-- The value `i` is contained in the table. -/
def MetricTable.Holds (mt : MetricTable (Recorded ι)) (i : ι) : Prop :=
  ∃ id m, mt.metrics.lookup id = some m ∧ m.data.Contains i

theorem lookup_insert_eq {ms : AList fun _ : MetricID => Metric D} {id id' : MetricID}
    {m : Metric D} :
    (ms.insert id m).lookup id' = if id' = id then some m else ms.lookup id' := by
  split
  · next h => rw [h, AList.lookup_insert]
  · next h => rw [AList.lookup_insert_ne h]

namespace MetricTable

theorem not_holds_new (size : Nat) (now : Int) (i : ι) :
    ¬ (newMetricTable size now : MetricTable (Recorded ι)).Holds i := by
  rintro ⟨id, m, hm, _⟩
  cases hm

theorem not_empty_of_holds {mt : MetricTable (Recorded ι)} {i : ι} (h : mt.Holds i) :
    mt.empty = false := by
  obtain ⟨id, m, hm, _⟩ := h
  have hmem : id ∈ mt.metrics.keys := by
    apply AList.lookup_isSome.mp
    rw [hm]
    rfl
  have hpos : 0 < mt.metrics.keys.length := List.length_pos_of_mem hmem
  rw [empty, decide_eq_false_iff_not, mt.counted]
  omega

theorem holds_mergeMetric {mt : MetricTable (Recorded ι)} {id : MetricID}
    {m : Metric (Recorded ι)} {i : ι} (h : (mt.mergeMetric id m).Holds i) :
    mt.Holds i ∨ m.data.Contains i := by
  obtain ⟨id', m', hm', hi⟩ := h
  rcases mergeMetric_cases mt id m with ⟨_, _, heq⟩ | ⟨_, heq⟩ | ⟨old, hold, heq⟩
  · rw [heq] at hm'
    exact .inl ⟨id', m', hm', hi⟩
  · rw [heq, lookup_insert_eq] at hm'
    split at hm'
    · cases hm'
      exact .inr hi
    · exact .inl ⟨id', m', hm', hi⟩
  · rw [heq, lookup_insert_eq] at hm'
    split at hm'
    · cases hm'
      rcases hi with hi | hi
      · exact .inl ⟨id, old, hold, hi⟩
      · exact .inr hi
    · exact .inl ⟨id', m', hm', hi⟩

theorem holds_mergeKeys {mt src : MetricTable (Recorded ι)} {rename : MetricID → MetricID}
    {ids : List MetricID} {i : ι} (h : (mt.mergeKeys src rename ids).Holds i) :
    mt.Holds i ∨ src.Holds i := by
  have hall : (mt.mergeKeys src rename ids).Holds i → mt.Holds i ∨ src.Holds i := by
    apply mergeKeys_induction (P := fun t => t.Holds i → mt.Holds i ∨ src.Holds i)
    · exact Or.inl
    · intro t id m ih _ hm ht
      rcases holds_mergeMetric ht with ht | hi
      · exact ih ht
      · exact .inr ⟨id, m, hm, hi⟩
  exact hall h

theorem not_holds_addAll {mt : MetricTable (Recorded ι)} {i : ι} (h : ¬ mt.Holds i)
    {rs : List (MetricID × Metric (Recorded ι))} (hrs : ∀ r ∈ rs, ¬ r.2.data.Contains i) :
    ¬ (mt.addAll rs).Holds i := by
  apply addAll_induction (P := fun t => ¬ t.Holds i) h
  intro t ht r hr hholds
  rcases holds_mergeMetric hholds with hholds | hi
  · exact ht hholds
  · exact hrs r hr hi

theorem failedHarvests_applyRules (mt : MetricTable D) [Aggregate D] {rules : MetricRules}
    (h : rules ≠ []) (order : MapOrder) : (mt.applyRules rules order).failedHarvests = 0 := by
  rw [applyRules, if_neg (by simpa using h), failedHarvests_mergeKeys]
  rfl

theorem applyRules_nil [Aggregate D] (mt : MetricTable D) (order : MapOrder) :
    mt.applyRules [] order = mt := by
  rw [applyRules, if_pos List.length_nil]

theorem holds_applyRules {mt : MetricTable (Recorded ι)} {rules : MetricRules} {order : MapOrder}
    {i : ι} (h : (mt.applyRules rules order).Holds i) : mt.Holds i := by
  rw [applyRules] at h
  split at h
  · exact h
  · rcases holds_mergeKeys h with h | h
    · exact absurd h (not_holds_new _ _ i)
    · exact h

theorem holds_merge {mt src : MetricTable (Recorded ι)} {order : MapOrder} {i : ι}
    (h : (mt.merge src order).Holds i) : mt.Holds i ∨ src.Holds i := holds_mergeKeys h

theorem holds_mergeFailed {mt src : MetricTable (Recorded ι)} {order : MapOrder} {i : ι}
    (h : (mt.mergeFailed src order).Holds i) : mt.Holds i ∨ src.Holds i := by
  rw [mergeFailed] at h
  split at h
  · exact .inl h
  · rcases holds_merge h with h | h
    · exact .inl h
    · exact .inr h

end MetricTable

/-! ### Harvest cycles -/

/-- One cycle in which the delivery of the previous harvest fails: metrics
recorded until the failure arrives, the failed table merged back, more
metrics recorded, and the next harvest. The metrics that the harvest itself
adds to the table are the last of `late`. -/
structure HarvestCycle (D : Type) where
  now : Int
  early : List (MetricID × Metric D)
  mergeOrder : MapOrder
  late : List (MetricID × Metric D)
  rulesOrder : MapOrder

section Cycles

variable [Aggregate D]

/-- The live table after the delivery of `pending` has failed. An empty table
is not delivered. -/
def afterFailure (pending : MetricTable D) (c : HarvestCycle D) : MetricTable D :=
  let live := (newMetricTable maxMetrics c.now).addAll c.early
  if pending.empty then live else live.mergeFailed pending c.mergeOrder

/-- The table handed over for delivery at the end of a cycle. -/
def harvestCycle (rules : MetricRules) (pending : MetricTable D) (c : HarvestCycle D) :
    MetricTable D :=
  ((afterFailure pending c).addAll c.late).applyRules rules c.rulesOrder

end Cycles

/-! ### The daemon's table

The daemon runs the same functions on numbers. Its table is at every moment
the evaluation of the table of recorded values. -/

section Representation

variable [Aggregate D] {v : ι → D}

def Metric.eval (v : ι → D) (m : Metric (Recorded ι)) : Metric D := ⟨m.forced, m.data.eval v⟩

def evalAll (v : ι → D) (rs : List (MetricID × Metric (Recorded ι))) : List (MetricID × Metric D) :=
  rs.map fun r => (r.1, r.2.eval v)

def HarvestCycle.eval (v : ι → D) (c : HarvestCycle (Recorded ι)) : HarvestCycle D :=
  { c with early := evalAll v c.early, late := evalAll v c.late }

namespace MetricTable

/-- `u` is `t` with the recorded values evaluated. -/
structure Represents (v : ι → D) (t : MetricTable (Recorded ι)) (u : MetricTable D) : Prop where
  start : u.metricPeriodStart = t.metricPeriodStart
  fails : u.failedHarvests = t.failedHarvests
  size : u.maxTableSize = t.maxTableSize
  dropped : u.numDropped = t.numDropped
  keys : u.metrics.keys = t.metrics.keys
  lookup : ∀ id, u.metrics.lookup id = (t.metrics.lookup id).map (Metric.eval v)

theorem Represents.count {t : MetricTable (Recorded ι)} {u : MetricTable D}
    (h : Represents v t u) : u.count = t.count := by
  rw [u.counted, t.counted, h.keys]

theorem Represents.full {t : MetricTable (Recorded ι)} {u : MetricTable D}
    (h : Represents v t u) : u.full = t.full := by
  rw [MetricTable.full, MetricTable.full, h.count, h.size]

theorem Represents.empty {t : MetricTable (Recorded ι)} {u : MetricTable D}
    (h : Represents v t u) : u.empty = t.empty := by
  rw [MetricTable.empty, MetricTable.empty, h.count]

theorem represents_new (v : ι → D) (size : Nat) (now : Int) :
    Represents v (newMetricTable size now) (newMetricTable size now) :=
  ⟨rfl, rfl, rfl, rfl, rfl, fun _ => rfl⟩

theorem lookup_insert_eval {ms : AList fun _ : MetricID => Metric (Recorded ι)}
    {ns : AList fun _ : MetricID => Metric D}
    (h : ∀ id, ns.lookup id = (ms.lookup id).map (Metric.eval v)) (id id' : MetricID)
    (m : Metric (Recorded ι)) :
    (ns.insert id (m.eval v)).lookup id' = ((ms.insert id m).lookup id').map (Metric.eval v) := by
  rw [lookup_insert_eq, lookup_insert_eq]
  split
  · rfl
  · exact h id'

theorem Represents.mergeMetric {t : MetricTable (Recorded ι)} {u : MetricTable D}
    (h : Represents v t u) (id : MetricID) (m : Metric (Recorded ι)) :
    Represents v (t.mergeMetric id m) (u.mergeMetric id (m.eval v)) := by
  have hlookup := h.lookup id
  cases hold : t.metrics.lookup id with
  | none =>
      rw [hold, Option.map_none] at hlookup
      rw [mergeMetric_of_none hold, mergeMetric_of_none hlookup, h.full]
      show Represents v _ (if (t.full && decide (m.forced = .unforced)) = true then _ else _)
      split
      · exact ⟨h.start, h.fails, h.size, congrArg (· + 1) h.dropped, h.keys, h.lookup⟩
      · refine ⟨h.start, h.fails, h.size, h.dropped, ?_, ?_⟩
        · rw [AList.keys_insert, AList.keys_insert, h.keys]
        · intro id'
          exact lookup_insert_eval h.lookup id id' m
  | some old =>
      rw [hold, Option.map_some] at hlookup
      rw [mergeMetric_of_some hold, mergeMetric_of_some hlookup]
      refine ⟨h.start, h.fails, h.size, h.dropped, ?_, ?_⟩
      · rw [AList.keys_insert, AList.keys_insert, h.keys]
      · intro id'
        exact lookup_insert_eval h.lookup id id' { old with data := aggregate old.data m.data }

theorem Represents.mergeKeys {t src : MetricTable (Recorded ι)} {u usrc : MetricTable D}
    (h : Represents v t u) (hsrc : Represents v src usrc) (rename : MetricID → MetricID)
    (ids : List MetricID) :
    Represents v (t.mergeKeys src rename ids) (u.mergeKeys usrc rename ids) := by
  induction ids generalizing t u with
  | nil => exact h
  | cons id ids ih =>
      rw [MetricTable.mergeKeys, MetricTable.mergeKeys, List.foldl_cons, List.foldl_cons]
      apply ih
      rw [hsrc.lookup id]
      cases src.metrics.lookup id with
      | none => exact h
      | some m => exact h.mergeMetric (rename id) m

theorem Represents.addAll {t : MetricTable (Recorded ι)} {u : MetricTable D}
    (h : Represents v t u) (rs : List (MetricID × Metric (Recorded ι))) :
    Represents v (t.addAll rs) (u.addAll (evalAll v rs)) := by
  induction rs generalizing t u with
  | nil => exact h
  | cons r rs ih => exact ih (h.mergeMetric r.1 r.2)

theorem Represents.mergeFailed {t src : MetricTable (Recorded ι)} {u usrc : MetricTable D}
    (h : Represents v t u) (hsrc : Represents v src usrc) (order : MapOrder) :
    Represents v (t.mergeFailed src order) (u.mergeFailed usrc order) := by
  rw [MetricTable.mergeFailed, MetricTable.mergeFailed, hsrc.fails]
  split
  · exact h
  · rw [MetricTable.merge, MetricTable.merge, hsrc.keys, hsrc.start, h.start]
    apply Represents.mergeKeys _ hsrc
    exact ⟨rfl, rfl, h.size, h.dropped, h.keys, h.lookup⟩

theorem Represents.applyRules {t : MetricTable (Recorded ι)} {u : MetricTable D}
    (h : Represents v t u) (rules : MetricRules) (order : MapOrder) :
    Represents v (t.applyRules rules order) (u.applyRules rules order) := by
  rw [MetricTable.applyRules, MetricTable.applyRules]
  split
  · exact h
  · rw [h.size, h.start, h.keys]
    exact (represents_new v _ _).mergeKeys h _ _

end MetricTable

theorem represents_harvestCycle (rules : MetricRules) {t : MetricTable (Recorded ι)}
    {u : MetricTable D} (h : t.Represents v u) (c : HarvestCycle (Recorded ι)) :
    (harvestCycle rules t c).Represents v (harvestCycle rules u (c.eval v)) := by
  have hlive := (MetricTable.represents_new v maxMetrics c.now).addAll c.early
  apply MetricTable.Represents.applyRules
  apply MetricTable.Represents.addAll
  rw [afterFailure, afterFailure, h.empty]
  split
  · exact hlive
  · exact hlive.mergeFailed h c.mergeOrder

/-- The daemon's table after any cycles holds at every metric the aggregate of
the recorded values that the table of recorded values holds there. -/
theorem represents_run (rules : MetricRules) {t : MetricTable (Recorded ι)} {u : MetricTable D}
    (h : t.Represents v u) (cs : List (HarvestCycle (Recorded ι))) :
    (runFrom (harvestCycle rules) t cs).Represents v
      (runFrom (harvestCycle rules) u (cs.map (HarvestCycle.eval v))) := by
  induction cs generalizing t u with
  | nil => exact h
  | cons c cs ih => exact ih (represents_harvestCycle rules h c)

/-- The same value in two cycles. -/
theorem represents_run_two :
    let cycle : HarvestCycle (Recorded Unit) :=
      { now := 0, early := [], mergeOrder := .stored, rulesOrder := .stored
        late := [(⟨"a", ""⟩, ⟨.forced, .value ()⟩)] }
    let v : Unit → MetricData ℤ := fun _ => ⟨1, 2, 3, 4, 5, 6⟩
    (runFrom (harvestCycle []) (newMetricTable 1 0) [cycle, cycle]).Represents v
      (runFrom (harvestCycle []) (newMetricTable 1 0) [cycle.eval v, cycle.eval v]) :=
  represents_run [] (MetricTable.represents_new _ 1 0) [_, _]

end Representation

/-! ### Aging -/

/-- The value `i` is among those recorded in the cycle. -/
def HarvestCycle.Records (c : HarvestCycle (Recorded ι)) (i : ι) : Prop :=
  ∃ r ∈ c.early ++ c.late, r.2.data.Contains i

/-- Undeliverable metrics age out. Whatever was recorded in the cycles `cs`,
after more than `failedMetricAttemptsLimit` further cycles (the first of them
is the failure of the delivery the value was first part of) a value that was
not recorded again is no longer contained in the table. -/
def AgesOut (ι : Type) (rules : MetricRules) : Prop :=
  ∀ (start : Int) (cs ds : List (HarvestCycle (Recorded ι))) (i : ι),
    (∀ d ∈ ds, ¬ d.Records i) → failedMetricAttemptsLimit < ds.length →
      ¬ (runFrom (harvestCycle rules) (newMetricTable maxMetrics start) (cs ++ ds)).Holds i

/-! ### Without rules the failures are counted -/

theorem HarvestCycle.not_early {c : HarvestCycle (Recorded ι)} {i : ι} (h : ¬ c.Records i) :
    ∀ r ∈ c.early, ¬ r.2.data.Contains i :=
  fun r hr hi => h ⟨r, List.mem_append_left c.late hr, hi⟩

theorem HarvestCycle.not_late {c : HarvestCycle (Recorded ι)} {i : ι} (h : ¬ c.Records i) :
    ∀ r ∈ c.late, ¬ r.2.data.Contains i :=
  fun r hr hi => h ⟨r, List.mem_append_right c.early hr, hi⟩

/-- A failed table is discarded, or it is merged back with one failure more
and within the limit. -/
theorem afterFailure_cases (pending : MetricTable (Recorded ι)) (c : HarvestCycle (Recorded ι)) :
    afterFailure pending c = (newMetricTable maxMetrics c.now).addAll c.early ∨
      ((afterFailure pending c).failedHarvests = pending.failedHarvests + 1 ∧
        pending.failedHarvests + 1 ≤ failedMetricAttemptsLimit) := by
  rw [afterFailure]
  split
  · exact .inl rfl
  · rw [MetricTable.mergeFailed]
    split
    · exact .inl rfl
    · next hfails =>
        refine .inr ⟨?_, Nat.not_lt.mp hfails⟩
        exact MetricTable.failedHarvests_mergeKeys _ pending id _

theorem holds_afterFailure {pending : MetricTable (Recorded ι)} {c : HarvestCycle (Recorded ι)}
    {i : ι} (hc : ¬ c.Records i) (h : (afterFailure pending c).Holds i) : pending.Holds i := by
  have hlive : ¬ ((newMetricTable maxMetrics c.now).addAll c.early).Holds i :=
    MetricTable.not_holds_addAll (MetricTable.not_holds_new _ _ i) (HarvestCycle.not_early hc)
  rw [afterFailure] at h
  split at h
  · exact absurd h hlive
  · exact (MetricTable.holds_mergeFailed h).resolve_left hlive

theorem holds_harvestCycle {rules : MetricRules} {pending : MetricTable (Recorded ι)}
    {c : HarvestCycle (Recorded ι)} {i : ι} (hc : ¬ c.Records i)
    (h : (harvestCycle rules pending c).Holds i) : (afterFailure pending c).Holds i := by
  have hadd := MetricTable.holds_applyRules h
  by_contra hnot
  exact MetricTable.not_holds_addAll hnot (HarvestCycle.not_late hc) hadd

theorem failedHarvests_harvestCycle (pending : MetricTable (Recorded ι))
    (c : HarvestCycle (Recorded ι)) :
    (harvestCycle [] pending c).failedHarvests ≤ failedMetricAttemptsLimit := by
  rw [harvestCycle, MetricTable.applyRules_nil, MetricTable.failedHarvests_addAll]
  rcases afterFailure_cases pending c with hdiscard | ⟨hfails, hle⟩
  · rw [hdiscard, MetricTable.failedHarvests_addAll]
    exact Nat.zero_le _
  · rw [hfails]
    exact hle

/-- One cycle without rules: a value that is still contained has one failure
more behind it. -/
theorem harvestCycle_ages {pending : MetricTable (Recorded ι)} {c : HarvestCycle (Recorded ι)}
    {i : ι} (hc : ¬ c.Records i) (h : (harvestCycle [] pending c).Holds i) :
    pending.Holds i ∧ (harvestCycle [] pending c).failedHarvests = pending.failedHarvests + 1 ∧
      pending.failedHarvests + 1 ≤ failedMetricAttemptsLimit := by
  have hafter := holds_harvestCycle hc h
  refine ⟨holds_afterFailure hc hafter, ?_⟩
  rw [harvestCycle, MetricTable.applyRules_nil, MetricTable.failedHarvests_addAll]
  rcases afterFailure_cases pending c with hdiscard | hmerged
  · rw [hdiscard] at hafter
    exact absurd hafter (MetricTable.not_holds_addAll (MetricTable.not_holds_new _ _ i)
      (HarvestCycle.not_early hc))
  · exact hmerged

/-- A run of cycles without rules: a value that is still contained has been
through as many failures as there were cycles. -/
theorem length_le_of_holds {pending : MetricTable (Recorded ι)}
    {ds : List (HarvestCycle (Recorded ι))} {i : ι} (hds : ∀ d ∈ ds, ¬ d.Records i)
    (hlimit : pending.failedHarvests ≤ failedMetricAttemptsLimit)
    (h : (runFrom (harvestCycle []) pending ds).Holds i) :
    pending.Holds i ∧ pending.failedHarvests + ds.length ≤ failedMetricAttemptsLimit := by
  induction ds generalizing pending with
  | nil => exact ⟨h, hlimit⟩
  | cons d ds ih =>
      have hd := hds d List.mem_cons_self
      obtain ⟨hnext, hle⟩ := ih (fun d' hd' => hds d' (List.mem_cons_of_mem d hd'))
        (failedHarvests_harvestCycle pending d) h
      obtain ⟨hpending, hfails, _⟩ := harvestCycle_ages hd hnext
      refine ⟨hpending, ?_⟩
      rw [hfails] at hle
      rw [List.length_cons]
      omega

theorem agesOut_nil : AgesOut ι [] := by
  intro start cs ds i hds hlen hholds
  rw [runFrom_append] at hholds
  have hlimit : Throughout (harvestCycle []) (fun t : MetricTable (Recorded ι) =>
      t.failedHarvests ≤ failedMetricAttemptsLimit) (newMetricTable maxMetrics start) cs :=
    throughout_of_along (fun pending c _ _ => failedHarvests_harvestCycle pending c)
      (Nat.zero_le _) (along_true _ cs)
  obtain ⟨_, hle⟩ := length_le_of_holds hds hlimit.last hholds
  omega

/-! ### With rules the count starts anew at every harvest -/

namespace MetricTable

/-- No metric of the table is dropped when it is merged into another. -/
def AllForced (mt : MetricTable D) : Prop :=
  ∀ id m, mt.metrics.lookup id = some m → m.forced = .forced

theorem allForced_new (size : Nat) (now : Int) :
    (newMetricTable size now : MetricTable D).AllForced := by
  intro id m hm
  cases hm

theorem AllForced.mergeMetric [Aggregate D] {mt : MetricTable D} (h : mt.AllForced)
    (id : MetricID) {m : Metric D} (hm : m.forced = .forced) : (mt.mergeMetric id m).AllForced := by
  intro id' m' hm'
  rcases mergeMetric_cases mt id m with ⟨_, _, heq⟩ | ⟨_, heq⟩ | ⟨old, hold, heq⟩
  · rw [heq] at hm'
    exact h id' m' hm'
  · rw [heq, lookup_insert_eq] at hm'
    split at hm'
    · cases hm'
      exact hm
    · exact h id' m' hm'
  · rw [heq, lookup_insert_eq] at hm'
    split at hm'
    · cases hm'
      exact h id old hold
    · exact h id' m' hm'

theorem AllForced.mergeKeys [Aggregate D] {mt src : MetricTable D} (h : mt.AllForced)
    (hsrc : src.AllForced) (rename : MetricID → MetricID) (ids : List MetricID) :
    (mt.mergeKeys src rename ids).AllForced := by
  apply mergeKeys_induction h
  intro mt id m hmt _ hm
  exact hmt.mergeMetric (rename id) (hsrc id m hm)

theorem Holds.mergeMetric {mt : MetricTable (Recorded ι)} {i : ι} (h : mt.Holds i)
    (id : MetricID) (m : Metric (Recorded ι)) : (mt.mergeMetric id m).Holds i := by
  obtain ⟨id', m', hm', hi⟩ := h
  rcases mergeMetric_cases mt id m with ⟨_, _, heq⟩ | ⟨hnone, heq⟩ | ⟨old, hold, heq⟩
  · refine ⟨id', m', ?_, hi⟩
    rw [heq]
    exact hm'
  · have hne : id' ≠ id := by
      rintro rfl
      rw [hnone] at hm'
      cases hm'
    refine ⟨id', m', ?_, hi⟩
    rw [heq, lookup_insert_eq, if_neg hne]
    exact hm'
  · rcases eq_or_ne id' id with rfl | hne
    · obtain rfl : m' = old := Option.some.inj (hm'.symm.trans hold)
      refine ⟨id', { m' with data := aggregate m'.data m.data }, ?_, Or.inl hi⟩
      rw [heq, lookup_insert_eq, if_pos rfl]
    · refine ⟨id', m', ?_, hi⟩
      rw [heq, lookup_insert_eq, if_neg hne]
      exact hm'

theorem holds_mergeMetric_of_forced (mt : MetricTable (Recorded ι)) (id : MetricID)
    {m : Metric (Recorded ι)} (hm : m.forced = .forced) {i : ι} (hi : m.data.Contains i) :
    (mt.mergeMetric id m).Holds i := by
  rcases mergeMetric_cases mt id m with ⟨_, hdrop, _⟩ | ⟨_, heq⟩ | ⟨old, _, heq⟩
  · rw [hm] at hdrop
    cases hdrop
  · refine ⟨id, m, ?_, hi⟩
    rw [heq, lookup_insert_eq, if_pos rfl]
  · refine ⟨id, { old with data := aggregate old.data m.data }, ?_, Or.inr hi⟩
    rw [heq, lookup_insert_eq, if_pos rfl]

theorem holds_mergeKeys_of_forced {src : MetricTable (Recorded ι)} (hsrc : src.AllForced)
    (rename : MetricID → MetricID) {ids : List MetricID} {id : MetricID} (hid : id ∈ ids)
    {m : Metric (Recorded ι)} (hm : src.metrics.lookup id = some m) {i : ι}
    (hi : m.data.Contains i) (mt : MetricTable (Recorded ι)) :
    (mt.mergeKeys src rename ids).Holds i := by
  -- The keys before `id` do not matter, `id` brings the value in, and the keys
  -- after it keep it.
  obtain ⟨before, after, rfl⟩ := List.append_of_mem hid
  rw [mergeKeys, List.foldl_append, List.foldl_cons, hm]
  have hin := holds_mergeMetric_of_forced (mt.mergeKeys src rename before) (rename id)
    (hsrc id m hm) hi
  apply mergeKeys_induction (P := fun t => t.Holds i) hin
  intro t id' m' ht _ _
  exact ht.mergeMetric (rename id') m'

/-- A table whose metrics are forced and that holds the value `i`. -/
structure Keeps (mt : MetricTable (Recorded ι)) (i : ι) : Prop where
  forced : mt.AllForced
  holds : mt.Holds i

theorem Keeps.mergeKeys {src : MetricTable (Recorded ι)} {i : ι} (h : src.Keeps i)
    {mt : MetricTable (Recorded ι)} (hmt : mt.AllForced) (rename : MetricID → MetricID)
    (order : MapOrder) : (mt.mergeKeys src rename (order.keys src.metrics.keys)).Keeps i := by
  obtain ⟨hforced, id, m, hm, hi⟩ := h
  have hid : id ∈ order.keys src.metrics.keys := by
    rw [(order.perm src.metrics.keys).mem_iff]
    apply AList.lookup_isSome.mp
    rw [hm]
    rfl
  exact ⟨hmt.mergeKeys hforced rename _, holds_mergeKeys_of_forced hforced rename hid hm hi mt⟩

theorem Keeps.applyRules {mt : MetricTable (Recorded ι)} {i : ι} (h : mt.Keeps i)
    (rules : MetricRules) (order : MapOrder) : (mt.applyRules rules order).Keeps i := by
  rw [MetricTable.applyRules]
  split
  · exact h
  · exact h.mergeKeys (allForced_new _ _) _ order

theorem Keeps.mergeFailed {src : MetricTable (Recorded ι)} {i : ι} (h : src.Keeps i)
    (hfails : src.failedHarvests = 0) {mt : MetricTable (Recorded ι)} (hmt : mt.AllForced)
    (order : MapOrder) : (mt.mergeFailed src order).Keeps i := by
  rw [MetricTable.mergeFailed, hfails, if_neg (by decide)]
  refine h.mergeKeys ?_ id order
  exact hmt

end MetricTable

/-- A cycle in which nothing is recorded. -/
def quietCycle (D : Type) : HarvestCycle D where
  now := 0
  early := []
  mergeOrder := .stored
  late := []
  rulesOrder := .stored

theorem quietCycles_records (n : Nat) (i : ι) :
    ∀ d ∈ List.replicate n (quietCycle (Recorded ι)), ¬ d.Records i := by
  intro d hd hrecords
  obtain rfl : d = quietCycle _ := List.eq_of_mem_replicate hd
  obtain ⟨r, hr, _⟩ := hrecords
  cases hr

/-- With rules a failed delivery leaves no trace on the table. -/
theorem harvestCycle_keeps {rules : MetricRules} (hrules : rules ≠ [])
    {pending : MetricTable (Recorded ι)} {i : ι} (h : pending.Keeps i)
    (hfails : pending.failedHarvests = 0) :
    (harvestCycle rules pending (quietCycle _)).Keeps i ∧
      (harvestCycle rules pending (quietCycle _)).failedHarvests = 0 := by
  refine ⟨?_, MetricTable.failedHarvests_applyRules _ hrules _⟩
  rw [harvestCycle, afterFailure, MetricTable.not_empty_of_holds h.holds]
  exact (h.mergeFailed hfails (MetricTable.allForced_new _ _) .stored).applyRules rules _

theorem runFrom_keeps {rules : MetricRules} (hrules : rules ≠ [])
    {pending : MetricTable (Recorded ι)} {i : ι} (h : pending.Keeps i)
    (hfails : pending.failedHarvests = 0) (n : Nat) :
    (runFrom (harvestCycle rules) pending (List.replicate n (quietCycle _))).Holds i := by
  induction n generalizing pending with
  | zero => exact h.holds
  | succ n ih =>
      obtain ⟨hnext, hfails'⟩ := harvestCycle_keeps hrules h hfails
      exact ih hnext hfails'

/-- A cycle that records the value `i` as a forced metric. -/
def recordingCycle (i : ι) : HarvestCycle (Recorded ι) :=
  { quietCycle (Recorded ι) with
    late := [(⟨"Instance/Reporting", ""⟩, ⟨.forced, .value i⟩)] }

/-- With rules, a value that was recorded once survives any number of failed
deliveries. -/
theorem holds_after_failures {rules : MetricRules} (hrules : rules ≠ []) (i : ι) (n : Nat) :
    (runFrom (harvestCycle rules) (newMetricTable maxMetrics 0)
      ([recordingCycle i] ++ List.replicate n (quietCycle _))).Holds i := by
  rw [runFrom_append]
  apply runFrom_keeps hrules
  · have hforced := (MetricTable.allForced_new (D := Recorded ι) maxMetrics 0).mergeMetric
      ⟨"Instance/Reporting", ""⟩ (m := ⟨.forced, .value i⟩) rfl
    have hholds := MetricTable.holds_mergeMetric_of_forced
      (newMetricTable maxMetrics 0) ⟨"Instance/Reporting", ""⟩
      (m := ⟨.forced, .value i⟩) (i := i) rfl rfl
    exact MetricTable.Keeps.applyRules ⟨hforced, hholds⟩ rules .stored
  · exact MetricTable.failedHarvests_applyRules _ hrules _

/-- Undeliverable metrics age out exactly when the application has no rename
rules. -/
theorem metrics_age_out_iff (ι : Type) [Inhabited ι] (rules : MetricRules) :
    AgesOut ι rules ↔ rules = [] := by
  constructor
  · intro hages
    by_contra hrules
    exact hages 0 [recordingCycle default] (List.replicate 6 (quietCycle _)) default
      (quietCycles_records 6 default) (by simp [failedMetricAttemptsLimit])
      (holds_after_failures hrules default 6)
  · rintro rfl
    exact agesOut_nil

/-- A rule that matches no name. -/
def idleRule : MetricRule where
  apply := fun s => (.unmatched, s)
  terminate := false

theorem idleRule_keeps_metrics : ¬ AgesOut Nat [idleRule] := by
  intro hages
  exact hages 0 [recordingCycle 0] (List.replicate 6 (quietCycle _)) 0
    (quietCycles_records 6 0) (by decide)
    (holds_after_failures (List.cons_ne_nil idleRule []) 0 6)

end AxiomDaemon.Daemon

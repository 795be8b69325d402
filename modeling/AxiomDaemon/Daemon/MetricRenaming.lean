import AxiomDaemon.Daemon.MetricMaps
import Mathlib.Data.Multiset.OrderedMonoid

/-!
Renaming the metrics of a table, `ApplyRules` of `metrics.go`. The metrics are
merged into a new table under their new names, in the order of the iteration.
The new table has the same limit and applies it to metrics that were within it
before: one that is not forced is dropped where forced ones have filled the new
table first.

To speak of a value that is lost, the same function is run on data that
remember the values they were aggregated from.
-/

namespace AxiomDaemon.Daemon

open AxiomDaemon.Lib AxiomDaemon.Axiom

/-- The values that a metric was aggregated from; there is one at least. -/
def Values (ι : Type) : Type := { values : Multiset ι // values ≠ 0 }

instance {ι : Type} : Aggregate (Values ι) where
  aggregate data src :=
    ⟨data.1 + src.1, fun h => data.2 (add_eq_zero.mp h).1⟩

instance {ι : Type} : LawfulAggregate (Values ι) where
  comm := fun a b => Subtype.ext (show a.1 + b.1 = b.1 + a.1 from add_comm _ _)
  assoc := fun a b c => Subtype.ext (show a.1 + b.1 + c.1 = a.1 + (b.1 + c.1) from add_assoc _ _ _)

namespace MetricMaps

variable {D : Type}

def renameKey (rename : Bytes → Bytes) (key : MetricKey) : MetricKey := (rename key.1, key.2)

/-- The metrics under their new names. -/
def renamed (rename : Bytes → Bytes) (entries : List (MetricKey × Metric D)) :
    List (MetricKey × Metric D) :=
  entries.map fun entry => (renameKey rename entry.1, entry.2)

section Applying

variable [Aggregate D] {Re : Type} (find : Engine Re) (names : Re → List Bytes)
  (letter : Bytes → ℕ)

/-- The name that the rules make of a name. -/
def ruleName (rules : List (RuleEngine.MetricRule Re)) (name : Bytes) : Bytes :=
  (RuleEngine.metricRulesApply find names letter rules name).2

/-- `ApplyRules`. A nil list of rules is an empty one. -/
def applyRules (mt : MetricMaps D) (rules : List (RuleEngine.MetricRule Re))
    (order : NestedOrder Bytes Bytes) : MetricMaps D :=
  if rules.length = 0 then mt
  else
    (new mt.maxTableSize mt.metricPeriodStart).mergeAll
      (renamed (ruleName find names letter rules) (NestedMap.visited order mt.metrics))

end Applying

/-- The data of each new name and scope are the aggregate of all metrics that
were renamed to it. -/
def Aggregates [Aggregate D] (rename : Bytes → Bytes) (mt result : MetricMaps D) : Prop :=
  ∀ key, result.dataAt key = total (ownData (renamed rename mt.stored) key)

/-- No metric of the name gets the new name and scope of `key`. -/
def Apart (rename : Bytes → Bytes) (mt : MetricMaps D) (key : MetricKey) (name : Bytes) : Prop :=
  name ≠ key.1 ∧
    ∀ entry ∈ mt.stored, entry.1.1 = name → renameKey rename entry.1 ≠ renameKey rename key

instance (rename : Bytes → Bytes) (mt : MetricMaps D) (key : MetricKey) :
    DecidablePred (Apart rename mt key) :=
  fun _ => inferInstanceAs (Decidable (_ ∧ ∀ entry ∈ _, _ → _))

/-- The new names and scopes that can all be in the new table before that of
`key` is: those of the metrics of the same old name, and of the old names none
of whose metrics is renamed to it. -/
def rivals (rename : Bytes → Bytes) (mt : MetricMaps D) (key : MetricKey) : List MetricKey :=
  ((mt.stored.filter fun entry =>
      Apart rename mt key entry.1.1 ∨ entry.1.1 = key.1 ∧ entry.1.2 ≠ key.2).map
    fun entry => renameKey rename entry.1).dedup

/-- Every metric that is not forced finds room in the new table. -/
def RoomForAll (rename : Bytes → Bytes) (mt : MetricMaps D) : Prop :=
  ∀ entry ∈ mt.stored, entry.2.forced = .unforced →
    ((rivals rename mt entry.1).length : ℤ) < mt.maxTableSize

/-! ### What was entered into a table -/

section Entered

variable [Aggregate D]

theorem total_isSome {ds : List D} : (total ds).isSome ↔ ds ≠ [] := by
  cases ds <;> simp [total]

omit [Aggregate D] in
theorem ownData_eq_nil {entries : List (MetricKey × Metric D)} {key : MetricKey} :
    ownData entries key = [] ↔ key ∉ entries.map Prod.fst := by
  rw [ownData, List.map_eq_nil_iff, List.filter_eq_nil_iff, List.mem_map]
  simp only [decide_eq_true_iff, not_exists, not_and]

theorem Contains.find_isSome {mt : MetricMaps D} {entries : List (MetricKey × Metric D)}
    (h : mt.Contains entries) (key : MetricKey) :
    (mt.find key).isSome ↔ key ∈ entries.map Prod.fst := by
  have hdata : (mt.find key).isSome = (mt.dataAt key).isSome := Option.isSome_map.symm
  rw [hdata, h.data, total_isSome, ne_eq, ownData_eq_nil, not_not]

theorem Contains.count_eq {mt : MetricMaps D} {entries : List (MetricKey × Metric D)}
    (h : mt.Contains entries) : mt.count = ((entries.map Prod.fst).dedup.length : ℤ) := by
  have hperm : (mt.stored.map Prod.fst).Perm (entries.map Prod.fst).dedup := by
    refine (List.perm_ext_iff_of_nodup (NestedMap.nodup_stored mt.metrics)
      (List.nodup_dedup _)).mpr fun key => ?_
    rw [List.mem_dedup, ← h.find_isSome, List.mem_map]
    constructor
    · rintro ⟨entry, hentry, rfl⟩
      rw [find, NestedMap.mem_stored.mp hentry]
      rfl
    · intro hsome
      obtain ⟨m, hm⟩ := Option.isSome_iff_exists.mp hsome
      exact ⟨(key, m), NestedMap.mem_stored.mpr hm, rfl⟩
  rw [h.count, ← hperm.length_eq, List.length_map]

theorem accepted_append (mt : MetricMaps D) (entries more : List (MetricKey × Metric D)) :
    mt.accepted (entries ++ more) = mt.accepted entries ++ (mt.mergeAll entries).accepted more := by
  induction entries generalizing mt with
  | nil => rfl
  | cons entry entries ih =>
      rw [List.cons_append, accepted, accepted, ih, List.append_assoc]
      rfl

/-- Nothing is dropped if each metric finds room after those before it. -/
theorem accepted_eq_self {mt : MetricMaps D} {entries : List (MetricKey × Metric D)}
    (h : ∀ before entry after, entries = before ++ entry :: after →
      mt.accepted before = before → ¬ (mt.mergeAll before).Drops entry.1 entry.2) :
    mt.accepted entries = entries := by
  have hbegins : ∀ before after, entries = before ++ after → mt.accepted before = before := by
    intro before
    induction before using List.reverseRecOn with
    | nil => exact fun _ _ => rfl
    | append_singleton before entry ih =>
        intro after heq
        rw [List.append_assoc] at heq
        have hbefore := ih _ heq
        have hkeep := h before entry after heq hbefore
        rw [accepted_append, hbefore, accepted, if_neg hkeep]
        rfl
  exact hbegins entries [] (List.append_nil _).symm

end Entered

/-! ### Where there is room for all, nothing is lost -/

section Room

variable {rename : Bytes → Bytes} {mt : MetricMaps D}

theorem mem_stored_iff {entry : MetricKey × Metric D} :
    entry ∈ mt.stored ↔ mt.find entry.1 = some entry.2 := NestedMap.mem_stored

theorem mem_renamed {entries : List (MetricKey × Metric D)} {key : MetricKey} :
    key ∈ (renamed rename entries).map Prod.fst ↔
      ∃ entry ∈ entries, renameKey rename entry.1 = key := by
  rw [renamed, List.map_map, List.mem_map]
  rfl

/-- What an iteration has visited before a metric are rivals, if the new name
and scope of the metric are not among theirs. -/
theorem targets_subset_rivals {order : NestedOrder Bytes Bytes}
    {before after : List (MetricKey × Metric D)} {entry : MetricKey × Metric D}
    (h : NestedMap.visited order mt.metrics = before ++ entry :: after)
    (habsent : renameKey rename entry.1 ∉ (renamed rename before).map Prod.fst) :
    (renamed rename before).map Prod.fst ⊆ rivals rename mt entry.1 := by
  intro key hkey
  obtain ⟨other, hother, rfl⟩ := mem_renamed.mp hkey
  have hstored : other ∈ mt.stored := by
    refine (NestedMap.visited_perm order mt.metrics).mem_iff.mp ?_
    rw [h]
    exact List.mem_append_left _ hother
  rw [rivals, List.mem_dedup, List.mem_map]
  refine ⟨other, List.mem_filter.mpr ⟨hstored, decide_eq_true ?_⟩, rfl⟩
  rcases eq_or_ne other.1.1 entry.1.1 with hname | hname
  · -- below one name every scope is visited once
    refine .inr ⟨hname, fun hscope => ?_⟩
    have hnodup := NestedMap.nodup_visited order mt.metrics
    rw [h, List.map_append, List.map_cons] at hnodup
    have hdisjoint := List.disjoint_of_nodup_append hnodup
    exact hdisjoint (List.mem_map_of_mem hother) (by simp [Prod.ext hname hscope])
  · refine .inl ⟨hname, fun third hthird hsame heq => habsent ?_⟩
    exact mem_renamed.mpr ⟨third, NestedMap.visited_split h hother hname
      (mem_stored_iff.mp hthird) hsame, heq⟩

theorem renamed_split {entries before after : List (MetricKey × Metric D)}
    {entry : MetricKey × Metric D} (h : renamed rename entries = before ++ entry :: after) :
    ∃ before' entry' after', entries = before' ++ entry' :: after' ∧
      before = renamed rename before' ∧ entry = (renameKey rename entry'.1, entry'.2) := by
  rw [renamed, List.map_eq_append_iff] at h
  obtain ⟨before', rest, rfl, rfl, hrest⟩ := h
  obtain ⟨entry', after', rfl, rfl, _⟩ := List.map_eq_cons_iff.mp hrest
  exact ⟨before', entry', after', rfl, rfl, rfl⟩

theorem accepted_of_room [Aggregate D] (h : RoomForAll rename mt)
    (order : NestedOrder Bytes Bytes) (now : ℤ) :
    (new mt.maxTableSize now).accepted (renamed rename (NestedMap.visited order mt.metrics)) =
      renamed rename (NestedMap.visited order mt.metrics) := by
  refine accepted_eq_self fun before entry after heq hbefore => ?_
  obtain ⟨before, entry, after, hvisited, rfl, rfl⟩ := renamed_split heq
  rintro ⟨hnone, hfull, hunforced⟩
  obtain ⟨hcontains, _, hsize⟩ := (new_contains (D := D) mt.maxTableSize now).mergeAll
    (renamed rename before)
  rw [List.nil_append, hbefore] at hcontains
  have habsent : renameKey rename entry.1 ∉ (renamed rename before).map Prod.fst := by
    rw [← hcontains.find_isSome, hnone]
    simp
  have hstored : entry ∈ mt.stored := by
    refine (NestedMap.visited_perm order mt.metrics).mem_iff.mp ?_
    rw [hvisited]
    simp
  have hrivals := h entry hstored hunforced
  have hsubset : ((renamed rename before).map Prod.fst).dedup ⊆ rivals rename mt entry.1 :=
    fun key hkey => targets_subset_rivals hvisited habsent (List.mem_dedup.mp hkey)
  have hle := ((List.nodup_dedup _).subperm hsubset).length_le
  have hcount := of_decide_eq_true hfull
  rw [hsize, hcontains.count_eq] at hcount
  have hlimit : (new mt.maxTableSize now : MetricMaps D).maxTableSize = mt.maxTableSize := rfl
  omega

theorem aggregates_of_room [Aggregate D] [LawfulAggregate D] (h : RoomForAll rename mt)
    (order : NestedOrder Bytes Bytes) (now : ℤ) :
    Aggregates rename mt ((new mt.maxTableSize now).mergeAll
      (renamed rename (NestedMap.visited order mt.metrics))) := by
  intro key
  obtain ⟨hcontains, _, _⟩ := (new_contains (D := D) mt.maxTableSize now).mergeAll
    (renamed rename (NestedMap.visited order mt.metrics))
  rw [List.nil_append, accepted_of_room h] at hcontains
  rw [hcontains.data]
  exact total_perm (ownData_perm ((NestedMap.visited_perm order mt.metrics).map _) key)

end Room

/-! ### Where there is none, something can be lost -/

section Loss

variable {rename : Bytes → Bytes} {mt : MetricMaps D}

theorem accepted_cons_of_all [Aggregate D] {table : MetricMaps D}
    {before after : List (MetricKey × Metric D)} {entry : MetricKey × Metric D}
    (h : table.accepted (before ++ entry :: after) = before ++ entry :: after) :
    table.accepted before = before ∧ ¬ (table.mergeAll before).Drops entry.1 entry.2 := by
  have hlength := congrArg List.length h
  have hbefore := (accepted_sublist table before).length_le
  have hafter := (accepted_sublist ((table.mergeAll before).mergeMetric none entry.1.1 entry.1.2
    entry.2) after).length_le
  rw [accepted_append, accepted] at hlength
  simp only [List.length_append, List.length_cons] at hlength
  refine ⟨(accepted_sublist table before).eq_of_length ?_, fun hdrops => ?_⟩
  · split at hlength
    · simp only [List.length_nil] at hlength
      omega
    · simp only [List.length_singleton] at hlength
      omega
  · rw [if_pos hdrops, List.length_nil] at hlength
    omega

/-- The order that fills the new table with the rivals of a metric first. -/
theorem exists_drop [Aggregate D] {entry : MetricKey × Metric D} (hentry : entry ∈ mt.stored)
    (hunforced : entry.2.forced = .unforced)
    (hrivals : mt.maxTableSize ≤ ((rivals rename mt entry.1).length : ℤ)) (now : ℤ) :
    ∃ order, (new mt.maxTableSize now).accepted
        (renamed rename (NestedMap.visited order mt.metrics)) ≠
      renamed rename (NestedMap.visited order mt.metrics) := by
  obtain ⟨before, after, hvisited, hbefore⟩ := NestedMap.exists_visited mt.metrics
    (mem_stored_iff.mp hentry) (Apart rename mt entry.1) fun h => h.1 rfl
  refine ⟨NestedMap.orderTo (Apart rename mt entry.1) entry.1, fun hall => ?_⟩
  have hsplit : renamed rename (NestedMap.visited (NestedMap.orderTo (Apart rename mt entry.1)
      entry.1) mt.metrics) = renamed rename before ++
        (renameKey rename entry.1, entry.2) :: renamed rename after := by
    rw [hvisited, renamed, List.map_append]
    rfl
  rw [hsplit] at hall
  obtain ⟨hfirst, hkept⟩ := accepted_cons_of_all hall
  obtain ⟨hcontains, _, hsize⟩ := (new_contains (D := D) mt.maxTableSize now).mergeAll
    (renamed rename before)
  rw [List.nil_append, hfirst] at hcontains
  have hfind : ∀ other ∈ before, mt.find other.1 = some other.2 := fun other hother => by
    have hmem : other ∈ NestedMap.visited (NestedMap.orderTo (Apart rename mt entry.1) entry.1)
        mt.metrics := by
      rw [hvisited]
      exact List.mem_append_left _ hother
    exact NestedMap.mem_visited.mp hmem
  refine hkept ⟨?_, ?_, hunforced⟩
  · -- none of the metrics before it is renamed to its name and scope
    rw [← Option.not_isSome_iff_eq_none, hcontains.find_isSome, mem_renamed]
    rintro ⟨other, hother, heq⟩
    rcases (hbefore other (hfind other hother)).mp hother with hapart | ⟨_, hscope⟩
    · exact hapart.2 other (mem_stored_iff.mpr (hfind other hother)) rfl heq
    · have hsecond : (renameKey rename other.1).2 = (renameKey rename entry.1).2 :=
        congrArg Prod.snd heq
      exact hscope hsecond
  · have hsubset : rivals rename mt entry.1 ⊆ ((renamed rename before).map Prod.fst).dedup := by
      intro key hkey
      rw [rivals, List.mem_dedup, List.mem_map] at hkey
      obtain ⟨other, hother, rfl⟩ := hkey
      obtain ⟨hstored, hearly⟩ := List.mem_filter.mp hother
      rw [List.mem_dedup, mem_renamed]
      exact ⟨other, (hbefore other (mem_stored_iff.mp hstored)).mpr (of_decide_eq_true hearly), rfl⟩
    have hnodup : (rivals rename mt entry.1).Nodup := List.nodup_dedup _
    have hle := (hnodup.subperm hsubset).length_le
    refine decide_eq_true ?_
    rw [hsize, hcontains.count_eq]
    have hlimit : (new mt.maxTableSize now : MetricMaps D).maxTableSize = mt.maxTableSize := rfl
    omega

/-- The number of values in a total. -/
def valueCount {ι : Type} : Option (Values ι) → ℕ
  | none => 0
  | some values => values.1.card

theorem valueCount_total {ι : Type} (ds : List (Values ι)) :
    valueCount (total ds) = (ds.map fun d => d.1.card).sum := by
  induction ds using List.reverseRecOn with
  | nil => rfl
  | append_singleton ds d ih =>
      rw [total_append_singleton, List.map_append, List.sum_append, ← ih]
      cases total ds with
      | none => simp [valueCount, accumulate]
      | some t => simp [valueCount, accumulate, aggregate]

theorem length_eq_of_total_eq {ι : Type} {ds es : List (Values ι)} (h : ds.Sublist es)
    (htotal : total ds = total es) : ds.length = es.length := by
  have hsum := congrArg valueCount htotal
  rw [valueCount_total, valueCount_total] at hsum
  have hle : ∀ {ds es : List (Values ι)}, ds.Sublist es →
      (ds.map fun d => d.1.card).sum + es.length ≤ (es.map fun d => d.1.card).sum + ds.length := by
    intro ds es h
    induction h with
    | slnil => exact le_refl _
    | cons e _ ih =>
        have hpos : 0 < e.1.card := Multiset.card_pos.mpr e.2
        rw [List.map_cons, List.sum_cons, List.length_cons]
        omega
    | cons_cons e _ ih =>
        rw [List.map_cons, List.map_cons, List.sum_cons, List.sum_cons, List.length_cons,
          List.length_cons]
        omega
  have hlength := hle h
  have hlength' := h.length_le
  omega

theorem length_eq_of_ownData {entries entries' : List (MetricKey × Metric D)}
    (h : entries.Sublist entries')
    (hown : ∀ key, (ownData entries key).length = (ownData entries' key).length) :
    entries.length = entries'.length := by
  have hfilter : ∀ {entries entries' : List (MetricKey × Metric D)}, entries.Sublist entries' →
      (∀ key, (entries.filter (·.1 = key)).length = (entries'.filter (·.1 = key)).length) →
      entries.length = entries'.length := by
    intro entries entries' h
    induction h with
    | slnil => exact fun _ => rfl
    | cons e hrest _ =>
        intro hall
        have hkey := hall e.1
        have hle := (hrest.filter (·.1 = e.1)).length_le
        rw [List.filter_cons_of_pos (by simp), List.length_cons] at hkey
        omega
    | cons_cons e _ ih =>
        intro hall
        rw [List.length_cons, List.length_cons, ih fun key => ?_]
        have hkey := hall key
        by_cases he : e.1 = key
        · simpa [List.filter_cons, he] using hkey
        · simpa [List.filter_cons, he] using hkey
  refine hfilter h fun key => ?_
  simpa [ownData] using hown key

theorem accepted_of_aggregates {ι : Type} {mt : MetricMaps (Values ι)}
    {order : NestedOrder Bytes Bytes} {now : ℤ}
    (h : Aggregates rename mt ((new mt.maxTableSize now).mergeAll
      (renamed rename (NestedMap.visited order mt.metrics)))) :
    (new mt.maxTableSize now).accepted (renamed rename (NestedMap.visited order mt.metrics)) =
      renamed rename (NestedMap.visited order mt.metrics) := by
  obtain ⟨hcontains, _, _⟩ := (new_contains (D := Values ι) mt.maxTableSize now).mergeAll
    (renamed rename (NestedMap.visited order mt.metrics))
  have hsublist := accepted_sublist (new mt.maxTableSize now)
    (renamed rename (NestedMap.visited order mt.metrics))
  refine hsublist.eq_of_length (length_eq_of_ownData hsublist fun key => ?_)
  refine length_eq_of_total_eq ((hsublist.filter _).map _) ?_
  have hdata := h key
  rw [hcontains.data, List.nil_append] at hdata
  refine hdata.trans (total_perm (ownData_perm ?_ key))
  exact ((NestedMap.visited_perm order mt.metrics).map _).symm

end Loss

section Applying

variable {Re : Type} (find : Engine Re) (names : Re → List Bytes) (letter : Bytes → ℕ)

theorem aggregates_self [Aggregate D] (mt : MetricMaps D) :
    Aggregates (ruleName find names letter []) mt mt := by
  intro key
  have hself : renamed (ruleName find names letter []) mt.stored = mt.stored :=
    (List.map_congr_left fun _ _ => rfl).trans (List.map_id _)
  rw [hself, dataAt]
  cases hfind : mt.find key with
  | none =>
      have hown : ownData mt.stored key = [] := by
        rw [ownData_eq_nil, List.mem_map]
        rintro ⟨entry, hentry, rfl⟩
        rw [mem_stored_iff.mp hentry] at hfind
        cases hfind
      rw [hown]
      rfl
  | some m =>
      obtain ⟨before, after, hstored⟩ := List.append_of_mem
        (NestedMap.mem_stored (m := mt.metrics).mpr hfind)
      have hnodup := NestedMap.nodup_stored mt.metrics
      rw [hstored, List.map_append, List.map_cons, List.nodup_middle, List.nodup_cons,
        List.mem_append, not_or] at hnodup
      have hown : ownData mt.stored key = [m.data] := by
        rw [stored, hstored, ownData_append, ownData_eq_nil.mpr hnodup.1.1, ← List.singleton_append,
          ownData_append, ownData_eq_nil.mpr hnodup.1.2]
        simp [ownData]
      rw [hown]
      rfl

/-- With room for all the data are complete, of whatever kind they are. -/
theorem applyRules_aggregates [Aggregate D] [LawfulAggregate D] {mt : MetricMaps D}
    {rules : List (RuleEngine.MetricRule Re)}
    (h : rules = [] ∨ RoomForAll (ruleName find names letter rules) mt)
    (order : NestedOrder Bytes Bytes) :
    Aggregates (ruleName find names letter rules) mt
      (mt.applyRules find names letter rules order) := by
  cases rules with
  | nil => exact aggregates_self find names letter mt
  | cons rule rules =>
      exact aggregates_of_room (h.resolve_left (List.cons_ne_nil _ _)) order mt.metricPeriodStart

/-- Applying rules loses no value, in any order of the iteration, exactly if
there are no rules or every metric that is not forced finds room. The numbers
that the values are aggregated to are complete then as well. -/
theorem applyRules_aggregates_iff {ι K : Type} [CommRing K] [LinearOrder K]
    (rules : List (RuleEngine.MetricRule Re)) :
    (∀ mt : MetricMaps (Values ι),
      (∀ order, Aggregates (ruleName find names letter rules) mt
          (mt.applyRules find names letter rules order)) ↔
        rules = [] ∨ RoomForAll (ruleName find names letter rules) mt) ∧
      ∀ mt : MetricMaps (MetricData K),
        rules = [] ∨ RoomForAll (ruleName find names letter rules) mt →
          ∀ order, Aggregates (ruleName find names letter rules) mt
            (mt.applyRules find names letter rules order) := by
  refine ⟨fun mt => ⟨fun hall => ?_, fun h => applyRules_aggregates find names letter h⟩,
    fun mt h => applyRules_aggregates find names letter h⟩
  cases rules with
  | nil => exact .inl rfl
  | cons rule rules =>
      refine .inr fun entry hentry hunforced => ?_
      by_contra hrivals
      obtain ⟨order, hlost⟩ := exists_drop hentry hunforced (not_lt.mp hrivals)
        mt.metricPeriodStart
      exact hlost (accepted_of_aggregates (hall order))

end Applying

/-! ### A table that loses a metric -/

/-- A rule whose expression matches nothing. -/
def idleRule : RuleEngine.MetricRule Unit :=
  { ignore := false, eachSegment := false, replaceAll := false, terminate := false, order := 0,
    transformedReplacement := [], re := () }

/-- A table of one metric, and one more that is forced. -/
def overfull : MetricMaps (MetricData ℤ) :=
  runFrom execCall (new 1 0)
    [.addCount (ascii "a") [] 7 .unforced, .addCount (ascii "b") [] 1 .forced]

theorem overfull_loses :
    ¬ ∀ order, Aggregates (ruleName (fun _ _ _ => none) (fun _ => []) (fun _ => 0) [idleRule])
      overfull (overfull.applyRules (fun _ _ _ => none) (fun _ => []) (fun _ => 0) [idleRule]
        order) := by
  intro hall
  have hdata := hall .stored (ascii "a", [])
  revert hdata
  decide

end MetricMaps

end AxiomDaemon.Daemon

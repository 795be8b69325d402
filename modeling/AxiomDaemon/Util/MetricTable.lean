import AxiomDaemon.Util.StringPool
import Mathlib.Data.UInt

/-!
The metric table of `util_metrics.c` as the source lays it out: the metrics
are a hash tree that is threaded through a growing array, and their names are
in a string pool of the table's own. A table that is full takes metrics that
are forced; for every other one it counts a supportability metric.

Times and counts are unsigned 64-bit numbers, which wrap around; the sizes and
indices of the table itself are numbers, and `IntsHold` says that `int` holds them.
A table or a name that is `NULL` is left out, the functions do nothing for them.
-/

namespace AxiomDaemon.Util

open AxiomDaemon.Lib AxiomDaemon.Lib.CText AxiomDaemon.Axiom

/-- `NRM_DEFAULT_MAX_SIZE`. -/
def nrmDefaultMaxSize : ℕ := 2048

/-- `NR_TIME_MAX`. -/
def nrTimeMax : UInt64 := 0xffffffffffffffff

/-- `MET_IS_APDEX`. -/
def metIsApdex : UInt32 := 1

/-- `MET_FORCED`. -/
def metForced : UInt32 := 2

/-- `mdata`. The satisfying, tolerating and failing counts of an apdex metric
are in the first three places. -/
structure MetricData where
  count : UInt64
  total : UInt64
  exclusive : UInt64
  min : UInt64
  max : UInt64
  sumSquares : UInt64
  deriving DecidableEq

def MetricData.zero : MetricData :=
  { count := 0, total := 0, exclusive := 0, min := 0, max := 0, sumSquares := 0 }

/-- `nrmetric_t`; the index -1 is no child. -/
structure NrmintMetric where
  hash : UInt32
  left : ℤ
  right : ℤ
  flags : UInt32
  nameIndex : ℕ
  mdata : MetricData

/-- What `nr_memset` leaves in a metric. -/
def NrmintMetric.zero : NrmintMetric :=
  { hash := 0, left := 0, right := 0, flags := 0, nameIndex := 0, mdata := .zero }

/-- `nrmtable_t`. -/
structure NrmintTable where
  number : ℕ
  allocated : ℕ
  maxSize : ℕ
  metrics : List NrmintMetric
  strpool : NrStrpool

/-- `nrm_table_create`. -/
def nrmTableCreate (maxSize : ℤ) : NrmintTable :=
  let maxSize := if maxSize ≤ 0 then nrmDefaultMaxSize else maxSize.toNat
  { number := 0
    allocated := maxSize
    maxSize := maxSize
    metrics := List.replicate maxSize .zero
    strpool := nrStringPoolCreate }

namespace NrmintTable

/-- `table->metrics[i]`. -/
def metric (table : NrmintTable) (i : ℕ) : NrmintMetric := table.metrics.getD i .zero

/-- An assignment to fields of `table->metrics[i]`. -/
def update (table : NrmintTable) (i : ℕ) (f : NrmintMetric → NrmintMetric) : NrmintTable :=
  { table with metrics := table.metrics.modify i f }

end NrmintTable

/-- `nrm_is_forced`. -/
def nrmIsForced (metric : NrmintMetric) : Bool := metForced &&& metric.flags ≠ 0

/-- `nrm_get_name`. -/
def nrmGetName (table : NrmintTable) (i : ℕ) : Option Bytes :=
  nrStringGet table.strpool (table.metric i).nameIndex

/-! ### Finding -/

/-- The loop of `nrm_find_internal`. -/
def nrmFindLoop (table : NrmintTable) (name : Bytes) (hash : UInt32) : (fuel : ℕ) → ℤ → Option ℕ
  | 0, _ => none
  | fuel + 1, i =>
      if i = -1 then none
      else
        let metric := table.metric i.toNat
        if hash = metric.hash ∧ nrmGetName table i.toNat = some name then some i.toNat
        else if metric.hash < hash then nrmFindLoop table name hash fuel metric.left
        else nrmFindLoop table name hash fuel metric.right

/-- `nrm_find_internal`: links lead forward, so every metric is visited once at
most. -/
def nrmFindInternal (table : NrmintTable) (name : Bytes) (hash : UInt32) : Option ℕ :=
  if table.number = 0 then none else nrmFindLoop table name hash table.number 0

/-- `nrm_find`. -/
def nrmFind (table : NrmintTable) (name : CString) : Option ℕ :=
  nrmFindInternal table name (nrMkhash name)

/-! ### Adding -/

/-- The loop of `nrm_create`: the metric that has no child where the new one
belongs. -/
def nrmCreateLoop (table : NrmintTable) (hash : UInt32) : (fuel i : ℕ) → ℕ
  | 0, i => i
  | fuel + 1, i =>
      let metric := table.metric i
      let next := if metric.hash < hash then metric.left else metric.right
      if next = -1 then i else nrmCreateLoop table hash fuel next.toNat

def NrmintMetric.link (metric : NrmintMetric) (hash : UInt32) (newMetricIndex : ℕ) :
    NrmintMetric :=
  if metric.hash < hash then { metric with left := newMetricIndex }
  else { metric with right := newMetricIndex }

/-- The array is enlarged when it is full. -/
def NrmintTable.grow (table : NrmintTable) : NrmintTable :=
  if table.number ≥ table.allocated then
    let allocated := table.allocated + nrmDefaultMaxSize
    { table with allocated := allocated, metrics := blockResize table.metrics allocated .zero }
  else table

/-- What `nrm_create` fills in. -/
def NrmintMetric.fresh (hash : UInt32) (nameIndex : ℕ) : NrmintMetric :=
  { NrmintMetric.zero with
    hash, left := -1, right := -1, nameIndex, mdata := { MetricData.zero with min := nrTimeMax } }

/-- `nrm_create`. -/
def nrmCreate (table : NrmintTable) (name : CString) (hash : UInt32) : NrmintTable × ℕ :=
  let table := table.grow
  let newMetricIndex := table.number
  let (strpool, nameIndex) := nrStringAdd table.strpool name
  let table :=
    { table with
      number := table.number + 1
      metrics := table.metrics.set newMetricIndex (.fresh hash nameIndex)
      strpool := strpool }
  if newMetricIndex = 0 then (table, newMetricIndex)
  else
    (table.update (nrmCreateLoop table hash newMetricIndex 0) (·.link hash newMetricIndex),
      newMetricIndex)

/-- `nrm_is_full`. -/
def nrmIsFull (table : NrmintTable) : Prop := table.number ≥ table.maxSize

instance (table : NrmintTable) : Decidable (nrmIsFull table) :=
  inferInstanceAs (Decidable (_ ≥ _))

/-- `nrm_find_or_create`, but for what it does with a metric that is dropped. -/
def findOrCreate (dropped : NrmintTable → NrmintTable) (force : Bool) (table : NrmintTable)
    (name : CString) : NrmintTable × Option ℕ :=
  let hash := nrMkhash name
  let forceFlag (table : NrmintTable) (i : ℕ) : NrmintTable :=
    if force then table.update i fun metric => { metric with flags := metric.flags ||| metForced }
    else table
  match nrmFindInternal table name hash with
  | some i => (forceFlag table i, some i)
  | none =>
      if nrmIsFull table ∧ force = false then (dropped table, none)
      else
        let (table, i) := nrmCreate table name hash
        (forceFlag table i, some i)

/-- The assignments of `nrm_add_internal`. -/
def MetricData.add (mdata data : MetricData) : MetricData where
  count := mdata.count + data.count
  total := mdata.total + data.total
  exclusive := mdata.exclusive + data.exclusive
  min := if data.min < mdata.min then data.min else mdata.min
  max := if data.max > mdata.max then data.max else mdata.max
  sumSquares := mdata.sumSquares + data.sumSquares

def NrmintMetric.addData (data : MetricData) (metric : NrmintMetric) : NrmintMetric :=
  { metric with mdata := metric.mdata.add data }

/-- What the caller of `nrm_find_or_create` does with the metric. -/
def withMetric (found : NrmintTable × Option ℕ) (f : NrmintMetric → NrmintMetric) : NrmintTable :=
  match found with
  | (table, some i) => table.update i f
  | (table, none) => table

/-- What `nrm_add` and `nrm_force_add` pass on. -/
def durationData (duration : UInt64) : MetricData :=
  { count := 1, total := duration, exclusive := duration, min := duration, max := duration,
    sumSquares := duration * duration }

/-- `nrm_force_add`. A metric that is forced is not dropped. -/
def nrmForceAdd (table : NrmintTable) (name : CString) (duration : UInt64) : NrmintTable :=
  withMetric (findOrCreate id true table name) (.addData (durationData duration))

/-- `"Supportability/MetricsDropped"`. -/
def metricsDropped : CString :=
  ⟨"Supportability/MetricsDropped".toList.map fun c => c.toNat.toUInt8, by decide⟩

/-- `nrm_find_or_create`. -/
def nrmFindOrCreate (force : Bool) (table : NrmintTable) (name : CString) :
    NrmintTable × Option ℕ :=
  findOrCreate (fun table => nrmForceAdd table metricsDropped 0) force table name

/-- `nrm_add_internal`. -/
def nrmAddInternal (force : Bool) (table : NrmintTable) (name : CString) (data : MetricData) :
    NrmintTable :=
  withMetric (nrmFindOrCreate force table name) (.addData data)

/-- The assignments of `nrm_add_apdex_internal`. -/
def NrmintMetric.addApdex (satisfying tolerating failing minApdex maxApdex : UInt64)
    (metric : NrmintMetric) : NrmintMetric :=
  { metric with
    flags := metric.flags ||| metIsApdex
    mdata :=
      { metric.mdata with
        count := metric.mdata.count + satisfying
        total := metric.mdata.total + tolerating
        exclusive := metric.mdata.exclusive + failing
        min := if minApdex < metric.mdata.min then minApdex else metric.mdata.min
        max := if maxApdex > metric.mdata.max then maxApdex else metric.mdata.max } }

/-- `nrm_add_apdex_internal`. -/
def nrmAddApdexInternal (force : Bool) (table : NrmintTable) (name : CString)
    (satisfying tolerating failing minApdex maxApdex : UInt64) : NrmintTable :=
  withMetric (nrmFindOrCreate force table name)
    (.addApdex satisfying tolerating failing minApdex maxApdex)

/-- `nrm_duplicate_metric`. -/
def nrmDuplicateMetric (table : NrmintTable) (currentName newName : CString) : NrmintTable :=
  match nrmFind table currentName with
  | none => table
  | some i =>
      nrmAddInternal (nrmIsForced (table.metric i)) table newName (table.metric i).mdata

/-- The check of a metric in `nrm_table_validate`. -/
def validMetric (table : NrmintTable) (i : ℕ) : Bool :=
  let metric := table.metric i
  let used : ℤ := table.number
  ¬ metric.left < -1 ∧ ¬ metric.right < -1 ∧ ¬ metric.left ≥ used ∧ ¬ metric.right ≥ used ∧
    ¬ (-1 ≠ metric.left ∧ metric.left ≤ i) ∧ ¬ (-1 ≠ metric.right ∧ metric.right ≤ i) ∧
    (nrmGetName table i).isSome

/-- `nrm_table_validate`; the numbers it compares with 0 are not negative here. -/
def nrmTableValidate (table : NrmintTable) : Bool :=
  table.number ≤ table.allocated ∧ (List.range table.number).all (validMetric table)

/-! ### The metrics a table holds -/

/-- What a table says of one metric. -/
structure NamedMetric where
  name : CString
  flags : UInt32
  mdata : MetricData

def MetricData.fresh : MetricData := { MetricData.zero with min := nrTimeMax }

def NamedMetric.fresh (name : CString) : NamedMetric := { name, flags := 0, mdata := .fresh }

/-- A change that leaves the name and the links of a metric. -/
def NrmintMetric.change (g : UInt32 → UInt32) (d : MetricData → MetricData)
    (metric : NrmintMetric) : NrmintMetric :=
  { metric with flags := g metric.flags, mdata := d metric.mdata }

def NamedMetric.change (g : UInt32 → UInt32) (d : MetricData → MetricData)
    (metric : NamedMetric) : NamedMetric :=
  { metric with flags := g metric.flags, mdata := d metric.mdata }

/-- The position of a child by its index. -/
def childOf (i : ℤ) : Option ℕ := if i = -1 then none else some i.toNat

def NrmintMetric.node (metric : NrmintMetric) : HashTree.Node UInt32 :=
  ⟨metric.hash, childOf metric.left, childOf metric.right⟩

/-- The tree of the metrics in use. -/
def NrmintTable.nodes (table : NrmintTable) : List (HashTree.Node UInt32) :=
  (table.metrics.take table.number).map NrmintMetric.node

/-- The metric at position `i` is the named one. -/
structure NrmintMetric.Stands (metric : NrmintMetric) (i : ℕ) (named : NamedMetric) : Prop where
  left : -1 ≤ metric.left
  right : -1 ≤ metric.right
  nameIndex : metric.nameIndex = i + 1
  flags : metric.flags = named.flags
  mdata : metric.mdata = named.mdata

/-- The table holds the metrics, in this order. The names are in its pool in
the same order. -/
structure NrmintTable.Holds (table : NrmintTable) (metrics : List NamedMetric) : Prop where
  number : table.number = metrics.length
  allocated : table.number ≤ table.allocated
  block : table.metrics.length = table.allocated
  strpool : table.strpool.Holds (fun name => nrMkhash name) (metrics.map NamedMetric.name)
  indexes : HashTree.Indexes (fun name : CString => nrMkhash name) table.nodes
    (metrics.map NamedMetric.name)
  stands : ∀ i named, metrics[i]? = some named → (table.metric i).Stands i named

theorem nrmTableCreate_holds (maxSize : ℤ) : (nrmTableCreate maxSize).Holds [] where
  number := rfl
  allocated := Nat.zero_le _
  block := List.length_replicate
  strpool := nrStringPoolCreate_holds
  indexes := HashTree.indexes_nil _
  stands := fun _ _ h => by simp at h

namespace NrmintTable.Holds

variable {table : NrmintTable} {metrics : List NamedMetric}

theorem lt_number (h : table.Holds metrics) {i : ℕ} {named : NamedMetric}
    (hi : metrics[i]? = some named) : i < table.number := by
  rw [h.number]
  exact (List.getElem?_eq_some_iff.mp hi).1

theorem exists_named (h : table.Holds metrics) {i : ℕ} (hi : i < table.number) :
    ∃ named, metrics[i]? = some named :=
  ⟨_, List.getElem?_eq_getElem (h.number ▸ hi)⟩

theorem metric_eq (h : table.Holds metrics) {i : ℕ} (hi : i < table.number) :
    table.metrics[i]? = some (table.metric i) := by
  have hlt : i < table.metrics.length := by
    rw [h.block]
    exact hi.trans_le h.allocated
  rw [metric, List.getD_eq_getElem?_getD, List.getElem?_eq_getElem hlt]
  rfl

theorem nodes_getElem? (h : table.Holds metrics) {i : ℕ} (hi : i < table.number) :
    table.nodes[i]? = some (table.metric i).node := by
  rw [nodes, List.getElem?_map, List.getElem?_take_of_lt hi, h.metric_eq hi]
  rfl

theorem hash_eq (h : table.Holds metrics) {i : ℕ} {named : NamedMetric}
    (hi : metrics[i]? = some named) : (table.metric i).hash = nrMkhash named.name := by
  have hmap := congrArg (·[i]?) h.indexes.hashes
  simp only [List.getElem?_map, h.nodes_getElem? (h.lt_number hi), hi, Option.map_some] at hmap
  exact Option.some.inj hmap

theorem name_eq (h : table.Holds metrics) {i : ℕ} {named : NamedMetric}
    (hi : metrics[i]? = some named) : nrmGetName table i = some named.name.1 := by
  rw [nrmGetName, (h.stands i named hi).nameIndex, h.strpool.nrStringGet_eq, List.getElem?_map, hi]
  rfl

theorem follow_eq (h : table.Holds metrics) (hash : UInt32) {i : ℕ} (hi : i < table.number) :
    HashTree.follow table.nodes hash i =
      childOf (if (table.metric i).hash < hash then (table.metric i).left
        else (table.metric i).right) := by
  rw [HashTree.follow, h.nodes_getElem? hi, Option.bind_some, HashTree.Node.next,
    apply_ite childOf]
  rfl

theorem matches_iff (h : table.Holds metrics) (name : CString) {i : ℕ} (hi : i < table.number) :
    nrMkhash name = (table.metric i).hash ∧ nrmGetName table i = some name.1 ↔
      (metrics.map NamedMetric.name)[i]? = some name := by
  obtain ⟨named, hnamed⟩ := h.exists_named hi
  rw [h.name_eq hnamed, h.hash_eq hnamed, List.getElem?_map, hnamed]
  constructor
  · rintro ⟨_, hname⟩
    exact congrArg some (Subtype.ext (Option.some.inj hname))
  · intro hname
    rw [← Option.some.inj hname]
    exact ⟨rfl, rfl⟩

theorem child_cases (h : table.Holds metrics) (hash : UInt32) {i : ℕ} (hi : i < table.number) :
    let next := if (table.metric i).hash < hash then (table.metric i).left
      else (table.metric i).right
    next = -1 ∧ HashTree.follow table.nodes hash i = none ∨
      ∃ j : ℕ, next = j ∧ HashTree.follow table.nodes hash i = some j ∧ j < table.number := by
  intro next
  obtain ⟨named, hnamed⟩ := h.exists_named hi
  have hstands := h.stands i named hnamed
  have hnext : -1 ≤ next := by
    show -1 ≤ if _ then _ else _
    split
    · exact hstands.left
    · exact hstands.right
  have hfollow := h.follow_eq hash hi
  by_cases hnone : next = -1
  · refine .inl ⟨hnone, hfollow.trans ?_⟩
    exact if_pos hnone
  · have hsome : HashTree.follow table.nodes hash i = some next.toNat := hfollow.trans (if_neg hnone)
    obtain ⟨_, hj⟩ := h.indexes.threaded.forward hash i _ hsome
    rw [h.indexes.length_eq, List.length_map, ← h.number] at hj
    exact .inr ⟨next.toNat, by omega, hsome, hj⟩

theorem nrmFindLoop_eq (h : table.Holds metrics) (name : CString) (fuel : ℕ) {i : ℕ}
    (hi : i < table.number) :
    nrmFindLoop table name (nrMkhash name) fuel i =
      HashTree.search table.nodes
        (fun i => decide ((metrics.map NamedMetric.name)[i]? = some name)) (nrMkhash name)
        fuel i := by
  induction fuel generalizing i with
  | zero => rfl
  | succ fuel ih =>
      rw [nrmFindLoop, HashTree.search, if_neg (by omega)]
      simp only [Int.toNat_natCast, h.matches_iff name hi, decide_eq_true_iff]
      split
      · rfl
      · rw [← apply_ite (nrmFindLoop table name (nrMkhash name) fuel)]
        rcases h.child_cases (nrMkhash name) hi with ⟨hnext, hfollow⟩ | ⟨j, hnext, hfollow, hj⟩
        · rw [hnext, hfollow]
          cases fuel <;> rfl
        · rw [hnext, hfollow]
          exact ih hj

theorem nrmFind_eq (h : table.Holds metrics) (name : CString) :
    nrmFind table name =
      if name ∈ metrics.map NamedMetric.name then
        some ((metrics.map NamedMetric.name).idxOf name)
      else none := by
  rw [nrmFind, nrmFindInternal]
  split
  · next hzero =>
      obtain rfl : metrics = [] := List.length_eq_zero_iff.mp (h.number ▸ hzero)
      rfl
  · next hpos =>
      have hfuel : (metrics.map NamedMetric.name).length ≤ table.number := by
        rw [List.length_map, h.number]
      have hfound : ∀ i : ℕ, decide ((metrics.map NamedMetric.name)[i]? = some name) = true ↔
          (metrics.map NamedMetric.name)[i]? = some name := fun i => decide_eq_true_iff
      refine (h.nrmFindLoop_eq name _ (Nat.pos_of_ne_zero hpos)).trans ?_
      split
      · next hmem =>
          refine (h.indexes.search_eq hfound hfuel _).mpr ?_
          rw [List.getElem?_eq_getElem (List.idxOf_lt_length_iff.mpr hmem), List.getElem_idxOf]
      · next hmem => exact (h.indexes.search_eq_none hfound hfuel).mpr hmem

/-! ### Changing a metric -/

end NrmintTable.Holds

theorem metric_update (table : NrmintTable) (i j : ℕ) {f : NrmintMetric → NrmintMetric}
    (hj : j < table.metrics.length) :
    (table.update i f).metric j = if i = j then f (table.metric j) else table.metric j := by
  rw [NrmintTable.metric, NrmintTable.metric, NrmintTable.update, List.getD_eq_getElem?_getD,
    List.getD_eq_getElem?_getD, List.getElem?_modify, List.getElem?_eq_getElem hj]
  show Option.getD (some (if i = j then _ else _)) _ = _
  split <;> rfl

theorem map_name_modify (metrics : List NamedMetric) (i : ℕ) (g : UInt32 → UInt32)
    (d : MetricData → MetricData) :
    (metrics.modify i (·.change g d)).map NamedMetric.name = metrics.map NamedMetric.name := by
  refine List.ext_getElem? fun j => ?_
  rw [List.getElem?_map, List.getElem?_modify, List.getElem?_map]
  cases metrics[j]? with
  | none => rfl
  | some named =>
      show some (NamedMetric.name (if _ then _ else _)) = some named.name
      split <;> rfl

theorem NrmintTable.nodes_update (table : NrmintTable) (i : ℕ) (g : UInt32 → UInt32)
    (d : MetricData → MetricData) : (table.update i (·.change g d)).nodes = table.nodes := by
  refine List.ext_getElem? fun j => ?_
  show ((((table.metrics.modify i _)).take table.number).map _)[j]? = _
  rw [nodes, List.take_modify, List.getElem?_map, List.getElem?_modify, List.getElem?_map]
  cases (table.metrics.take table.number)[j]? with
  | none => rfl
  | some metric =>
      show some (NrmintMetric.node (if _ then _ else _)) = some metric.node
      split <;> rfl

namespace NrmintTable.Holds

variable {table : NrmintTable} {metrics : List NamedMetric}

theorem update (h : table.Holds metrics) (i : ℕ) (g : UInt32 → UInt32)
    (d : MetricData → MetricData) :
    (table.update i (·.change g d)).Holds (metrics.modify i (·.change g d)) where
  number := by
    rw [List.length_modify]
    exact h.number
  allocated := h.allocated
  block := by
    show (table.metrics.modify i _).length = _
    rw [List.length_modify]
    exact h.block
  strpool := by
    rw [map_name_modify]
    exact h.strpool
  indexes := by
    rw [map_name_modify, nodes_update]
    exact h.indexes
  stands := by
    intro j named hj
    have hlt : j < table.number := by
      rw [h.number, ← List.length_modify (·.change g d) metrics i]
      exact (List.getElem?_eq_some_iff.mp hj).1
    obtain ⟨old, hold⟩ := h.exists_named hlt
    have hstands := h.stands j old hold
    rw [List.getElem?_modify, hold] at hj
    rw [metric_update table i j (by rw [h.block]; exact hlt.trans_le h.allocated)]
    obtain rfl : (if i = j then old.change g d else old) = named := Option.some.inj hj
    split
    · exact ⟨hstands.left, hstands.right, hstands.nameIndex, congrArg g hstands.flags,
        congrArg d hstands.mdata⟩
    · exact hstands

/-! ### Creating a metric -/

theorem grow (h : table.Holds metrics) : table.grow.Holds metrics := by
  rw [NrmintTable.grow]
  split
  · have htake : ∀ k, k ≤ table.number →
        (blockResize table.metrics (table.allocated + nrmDefaultMaxSize) .zero).take k =
          table.metrics.take k := fun k hk => by
      have hallocated := h.allocated
      exact take_blockResize (by omega) (by rw [h.block]; omega)
    refine
      { number := h.number
        allocated := h.allocated.trans (Nat.le_add_right _ _)
        block := length_blockResize ..
        strpool := h.strpool
        indexes := ?_
        stands := fun i named hi => ?_ }
    · show HashTree.Indexes _ ((List.take _ (blockResize _ _ _)).map _) _
      rw [htake _ (le_refl _)]
      exact h.indexes
    · have hlt := h.lt_number hi
      have hget : (blockResize table.metrics (table.allocated + nrmDefaultMaxSize) .zero)[i]? =
          table.metrics[i]? := by
        rw [← List.getElem?_take_of_lt hlt, htake _ (le_refl _), List.getElem?_take_of_lt hlt]
      rw [metric, List.getD_eq_getElem?_getD, hget, h.metric_eq hlt]
      exact h.stands i named hi
  · exact h

theorem nrmCreateLoop_eq (h : table.Holds metrics) {table' : NrmintTable}
    (hmetric : ∀ i < table.number, table'.metric i = table.metric i) (hash : UInt32) (fuel : ℕ)
    {i : ℕ} (hi : i < table.number) :
    nrmCreateLoop table' hash fuel i = HashTree.descend table.nodes hash fuel i := by
  induction fuel generalizing i with
  | zero => rfl
  | succ fuel ih =>
      rw [nrmCreateLoop, HashTree.descend, hmetric i hi]
      rcases h.child_cases hash hi with ⟨hnext, hfollow⟩ | ⟨j, hnext, hfollow, hj⟩
      · simp only [hnext, hfollow, if_true]
      · simp only [hnext, hfollow, Int.toNat_natCast, if_neg (show (j : ℤ) ≠ -1 by omega)]
        exact ih hj

end NrmintTable.Holds

theorem NrmintMetric.node_link (metric : NrmintMetric) (hash : UInt32) (i : ℕ) :
    (metric.link hash i).node = metric.node.link hash i := by
  have hchild : childOf (i : ℤ) = some i := by
    rw [childOf, if_neg (by omega), Int.toNat_natCast]
  rw [link, HashTree.Node.link]
  show _ = if metric.hash < hash then _ else _
  split <;> simp [node, hchild]

theorem NrmintMetric.Stands.link {metric : NrmintMetric} {i : ℕ} {named : NamedMetric}
    (h : metric.Stands i named) (hash : UInt32) (j : ℕ) : (metric.link hash j).Stands i named := by
  rw [NrmintMetric.link]
  split
  · exact { h with left := show (-1 : ℤ) ≤ j by omega }
  · exact { h with right := show (-1 : ℤ) ≤ j by omega }

/-- The metrics after one was added behind them and hung up below its parent. -/
def addedMetrics (table : NrmintTable) (parent : ℕ) (metric : NrmintMetric) : List NrmintMetric :=
  let metrics := table.metrics.set table.number metric
  if table.number = 0 then metrics
  else metrics.modify parent (·.link metric.hash table.number)

theorem length_addedMetrics (table : NrmintTable) (parent : ℕ) (metric : NrmintMetric) :
    (addedMetrics table parent metric).length = table.metrics.length := by
  rw [addedMetrics]
  split <;> simp

theorem addedMetrics_getElem? {table : NrmintTable} {parent : ℕ}
    (hroom : table.number < table.metrics.length) (hparent : parent < max table.number 1)
    (metric : NrmintMetric) {i : ℕ} (hi : i ≤ table.number) :
    (addedMetrics table parent metric)[i]? =
      if i = table.number then some metric
      else if i = parent then table.metrics[i]?.map (·.link metric.hash table.number)
      else table.metrics[i]? := by
  rw [addedMetrics]
  split
  · next hzero =>
      obtain rfl : i = table.number := by omega
      rw [if_pos rfl, List.getElem?_set_self hroom]
  · next hpos =>
      rw [List.getElem?_modify]
      rcases eq_or_ne i table.number with rfl | hne
      · rw [if_pos rfl, List.getElem?_set_self hroom]
        show some (if _ then _ else _) = _
        rw [if_neg (by omega)]
      · rw [if_neg hne, List.getElem?_set_ne hne.symm]
        rcases eq_or_ne i parent with rfl | hother
        · simp only [if_true]
          rfl
        · simp only [if_neg hother, if_neg hother.symm, id_map']

section Creating

variable {table : NrmintTable} {metrics : List NamedMetric} {name : CString}

/-- The tree after a metric was added: the first one is the root, every other
hangs where the search for its hash ended. -/
theorem NrmintTable.Holds.indexes_added (h : table.Holds metrics)
    (hroom : table.number < table.allocated) (hnot : name ∉ metrics.map NamedMetric.name)
    {parent : ℕ} (hparent : 0 < table.number →
      parent = HashTree.descend table.nodes (nrMkhash name) table.number 0) (nameIndex : ℕ) :
    HashTree.Indexes (fun name : CString => nrMkhash name)
      (((addedMetrics table parent (.fresh (nrMkhash name) nameIndex)).take
        (table.number + 1)).map NrmintMetric.node) (metrics.map NamedMetric.name ++ [name]) := by
  have hlt : table.number < table.metrics.length := h.block.symm ▸ hroom
  have htake : (table.metrics.take table.number).length = table.number := by
    rw [List.length_take]
    exact Nat.min_eq_left hlt.le
  rw [addedMetrics]
  split
  · next hzero =>
      obtain rfl : metrics = [] := List.length_eq_zero_iff.mp (h.number ▸ hzero)
      rw [take_succ_set hlt, hzero]
      exact HashTree.indexes_singleton (fun name : CString => nrMkhash name) name
  · next hpos =>
      have happend := HashTree.Indexes.append NrmintMetric.node_link h.indexes hnot
        (show 0 < (table.metrics.take table.number).length by omega)
        (show (table.metrics.take table.number).length ≤ table.number by omega)
        (show NrmintMetric.node (.fresh (nrMkhash name) nameIndex) =
          ⟨nrMkhash name, none, none⟩ from rfl)
      rw [htake, ← take_succ_set hlt, ← List.take_modify] at happend
      rw [hparent (Nat.pos_of_ne_zero hpos)]
      exact happend

theorem NrmintTable.Holds.added (h : table.Holds metrics) (hroom : table.number < table.allocated)
    (hnot : name ∉ metrics.map NamedMetric.name) {parent : ℕ}
    (hparent : 0 < table.number →
      parent = HashTree.descend table.nodes (nrMkhash name) table.number 0)
    (hlt : parent < max table.number 1) :
    NrmintTable.Holds
      { table with
        number := table.number + 1
        metrics := addedMetrics table parent (.fresh (nrMkhash name) (table.number + 1))
        strpool := (nrStringAdd table.strpool name).1 } (metrics ++ [.fresh name]) := by
  have hblock : table.number < table.metrics.length := h.block.symm ▸ hroom
  have hnames : (metrics ++ [NamedMetric.fresh name]).map NamedMetric.name =
      metrics.map NamedMetric.name ++ [name] := List.map_append
  refine
    { number := ?_
      allocated := hroom
      block := (length_addedMetrics ..).trans h.block
      strpool := ?_
      indexes := ?_
      stands := fun i named hi => ?_ }
  · rw [List.length_append, ← h.number]
    rfl
  · have hpool := (h.strpool.nrStringAddInternal name).1
    rw [withString, if_neg hnot] at hpool
    rw [hnames]
    exact hpool
  · rw [hnames]
    exact h.indexes_added hroom hnot hparent _
  · rw [metric, List.getD_eq_getElem?_getD]
    rcases Nat.lt_or_ge i metrics.length with hold | hnew
    · rw [List.getElem?_append_left hold] at hi
      have hstands := h.stands i named hi
      have hilt : i < table.number := h.lt_number hi
      rw [addedMetrics_getElem? hblock hlt _ hilt.le, if_neg hilt.ne, h.metric_eq hilt]
      split
      · exact hstands.link _ _
      · exact hstands
    · rw [List.getElem?_append_right hnew, List.getElem?_singleton] at hi
      split at hi
      · next hzero =>
          obtain rfl := Option.some.inj hi
          obtain rfl : i = table.number := by rw [h.number]; omega
          rw [addedMetrics_getElem? hblock hlt _ (le_refl _), if_pos rfl]
          exact ⟨le_refl _, le_refl _, rfl, rfl, rfl⟩
      · cases hi

theorem NrmintTable.Holds.grow_room (h : table.Holds metrics) :
    table.grow.number < table.grow.allocated := by
  have hallocated := h.allocated
  rw [NrmintTable.grow]
  split
  · show table.number < table.allocated + nrmDefaultMaxSize
    exact hallocated.trans_lt (Nat.lt_add_of_pos_right (by decide))
  · omega

theorem NrmintTable.Holds.nrmCreate (h : table.Holds metrics)
    (hnot : name ∉ metrics.map NamedMetric.name) :
    (Util.nrmCreate table name (nrMkhash name)).1.Holds (metrics ++ [.fresh name]) ∧
      (Util.nrmCreate table name (nrMkhash name)).2 = metrics.length := by
  have hgrow := h.grow
  have hroom := h.grow_room
  have hblock : table.grow.number < table.grow.metrics.length := hgrow.block.symm ▸ hroom
  have hindex : (nrStringAdd table.grow.strpool name).2 = table.grow.number + 1 := by
    have hspec := (hgrow.strpool.nrStringAddInternal name).2
    rw [withString, if_neg hnot, List.idxOf_append_of_notMem hnot] at hspec
    rw [nrStringAdd, hspec, hgrow.number]
    simp
  -- the loop runs over the array with the new metric in it, but does not reach it
  set table' : NrmintTable :=
    { table.grow with
      number := table.grow.number + 1
      metrics := table.grow.metrics.set table.grow.number
        (.fresh (nrMkhash name) (table.grow.number + 1))
      strpool := (nrStringAdd table.grow.strpool name).1 } with htable'
  have hmetric : ∀ i < table.grow.number, table'.metric i = table.grow.metric i := fun i hi => by
    rw [metric, metric, htable', List.getD_eq_getElem?_getD, List.getD_eq_getElem?_getD,
      List.getElem?_set_ne hi.ne']
  set parent := nrmCreateLoop table' (nrMkhash name) table.grow.number 0
  have hparent : 0 < table.grow.number →
      parent = HashTree.descend table.grow.nodes (nrMkhash name) table.grow.number 0 :=
    fun hpos => hgrow.nrmCreateLoop_eq hmetric _ _ hpos
  have hlt : parent < max table.grow.number 1 := by
    rcases Nat.eq_zero_or_pos table.grow.number with hzero | hpos
    · have hloop : parent = 0 := by
        show nrmCreateLoop table' _ table.grow.number 0 = 0
        rw [hzero]
        rfl
      omega
    · have hlen : table.grow.nodes.length = table.grow.number := by
        rw [hgrow.indexes.length_eq, List.length_map, hgrow.number]
      obtain ⟨_, _, hdescend⟩ := HashTree.descend_spec hgrow.indexes.threaded (nrMkhash name)
        (i := 0) (by omega) (show table.grow.nodes.length - 0 ≤ table.grow.number by omega)
      rw [hparent hpos]
      omega
  have heq : Util.nrmCreate table name (nrMkhash name) =
      ({ table.grow with
          number := table.grow.number + 1
          metrics := addedMetrics table.grow parent
            (.fresh (nrMkhash name) (table.grow.number + 1))
          strpool := (nrStringAdd table.grow.strpool name).1 }, table.grow.number) := by
    rw [Util.nrmCreate, addedMetrics]
    simp only [hindex]
    split <;> rfl
  rw [heq]
  exact ⟨hgrow.added hroom hnot hparent hlt, hgrow.number⟩

end Creating

/-! ### Adding to the metric of a name -/

/-- The metrics after that of a name was changed; it is created if there is
none. -/
def enter (metrics : List NamedMetric) (name : CString) (g : UInt32 → UInt32)
    (d : MetricData → MetricData) : List NamedMetric :=
  if name ∈ metrics.map NamedMetric.name then
    metrics.modify ((metrics.map NamedMetric.name).idxOf name) (·.change g d)
  else metrics ++ [(NamedMetric.fresh name).change g d]

/-- The data of the metric of a name. -/
def dataOf (metrics : List NamedMetric) (name : CString) : Option MetricData :=
  metrics[(metrics.map NamedMetric.name).idxOf name]?.map NamedMetric.mdata

/-- The same, as the table finds it. -/
def nrmData (table : NrmintTable) (name : CString) : Option MetricData :=
  (nrmFind table name).map fun i => (table.metric i).mdata

/-- There is neither the metric nor room for it. -/
def Drops (table : NrmintTable) (force : Bool) (name : CString) : Prop :=
  nrmFind table name = none ∧ nrmIsFull table ∧ force = false

instance (table : NrmintTable) (force : Bool) (name : CString) :
    Decidable (Drops table force name) :=
  inferInstanceAs (Decidable (_ ∧ _ ∧ _))

theorem map_name_enter (metrics : List NamedMetric) (name : CString) (g : UInt32 → UInt32)
    (d : MetricData → MetricData) :
    (enter metrics name g d).map NamedMetric.name =
      withString (metrics.map NamedMetric.name) name := by
  rw [enter, withString]
  split
  · exact map_name_modify ..
  · exact List.map_append

theorem dataOf_eq_none {metrics : List NamedMetric} {name : CString}
    (h : name ∉ metrics.map NamedMetric.name) : dataOf metrics name = none := by
  rw [dataOf, List.idxOf_eq_length h, List.getElem?_eq_none (List.length_map _).ge]
  rfl

theorem dataOf_enter (metrics : List NamedMetric) (name other : CString) (g : UInt32 → UInt32)
    (d : MetricData → MetricData) :
    dataOf (enter metrics name g d) other =
      if other = name then some (d ((dataOf metrics name).getD .fresh))
      else dataOf metrics other := by
  by_cases hmem : name ∈ metrics.map NamedMetric.name
  · have hlt := List.idxOf_lt_length_iff.mpr hmem
    rw [List.length_map] at hlt
    rw [dataOf, enter, if_pos hmem, map_name_modify, List.getElem?_modify]
    by_cases heq : other = name
    · rw [if_pos heq, heq, dataOf, List.getElem?_eq_getElem hlt]
      show some (NamedMetric.mdata (if _ then _ else _)) = _
      rw [if_pos rfl]
      rfl
    · have hidx : (metrics.map NamedMetric.name).idxOf name ≠
          (metrics.map NamedMetric.name).idxOf other :=
        fun hsame => heq ((List.idxOf_inj hmem).mp hsame).symm
      simp only [if_neg heq, if_neg hidx, id_map']
      rfl
  · rw [enter, if_neg hmem]
    split
    · next heq =>
        rw [heq, dataOf_eq_none hmem, dataOf, List.map_append, List.idxOf_append_of_notMem hmem,
          List.length_map, List.getElem?_append_right (Nat.le_add_right _ _)]
        simp [NamedMetric.change, NamedMetric.fresh]
    · next hne =>
        rw [dataOf, dataOf, List.map_append, List.idxOf_append]
        split
        · next hold =>
            have hlt := List.idxOf_lt_length_iff.mpr hold
            rw [List.length_map] at hlt
            rw [List.getElem?_append_left hlt]
        · next hnew =>
            rw [List.idxOf_eq_length hnew, List.getElem?_eq_none, List.getElem?_eq_none]
            · simp
            · have hsingle : [NamedMetric.name ((NamedMetric.fresh name).change g d)].idxOf other =
                  1 := List.idxOf_eq_length (by simpa [NamedMetric.change, NamedMetric.fresh])
              simp [hsingle]

namespace NrmintTable.Holds

variable {table : NrmintTable} {metrics : List NamedMetric}

theorem nrmData_eq (h : table.Holds metrics) (name : CString) :
    nrmData table name = dataOf metrics name := by
  rw [nrmData, h.nrmFind_eq]
  split
  · next hmem =>
      have hlt := List.idxOf_lt_length_iff.mpr hmem
      rw [List.length_map] at hlt
      have hget := List.getElem?_eq_getElem hlt
      rw [dataOf, hget]
      exact congrArg some (h.stands _ _ hget).mdata
  · next hmem => exact (dataOf_eq_none hmem).symm

theorem withMetric (h : table.Holds metrics) (dropped : NrmintTable → NrmintTable) (force : Bool)
    (name : CString) (g : UInt32 → UInt32) (d : MetricData → MetricData) :
    if Drops table force name then
      Util.withMetric (findOrCreate dropped force table name) (·.change g d) = dropped table
    else
      (Util.withMetric (findOrCreate dropped force table name) (·.change g d)).Holds
        (enter metrics name (fun flags => g (if force then flags ||| metForced else flags)) d) := by
  have hfind : nrmFindInternal table name (nrMkhash name) = nrmFind table name := rfl
  have hflag : ∀ {table' : NrmintTable} {metrics' : List NamedMetric}, table'.Holds metrics' →
      ∀ i, ((if force then table'.update i fun metric =>
        { metric with flags := metric.flags ||| metForced } else table').update i
          (·.change g d)).Holds (metrics'.modify i (·.change
            (fun flags => g (if force then flags ||| metForced else flags)) d)) := by
    intro table' metrics' h' i
    split
    · have hforced := (h'.update i (· ||| metForced) id).update i g d
      rw [List.modify_modify_eq] at hforced
      exact hforced
    · exact h'.update i g d
  rw [findOrCreate, hfind, h.nrmFind_eq]
  by_cases hmem : name ∈ metrics.map NamedMetric.name
  · have hfound : ¬ Drops table force name := by
      rintro ⟨hnone, _⟩
      rw [h.nrmFind_eq, if_pos hmem] at hnone
      cases hnone
    rw [if_pos hmem, if_neg hfound, enter, if_pos hmem]
    exact hflag h _
  · have hdrops : Drops table force name ↔ nrmIsFull table ∧ force = false := by
      rw [Drops, h.nrmFind_eq, if_neg hmem]
      simp
    simp only [if_neg hmem, enter, hdrops]
    split
    · rfl
    · obtain ⟨hcreate, hindex⟩ := h.nrmCreate hmem
      have hlast : (metrics ++ [NamedMetric.fresh name]).modify metrics.length (·.change
          (fun flags => g (if force then flags ||| metForced else flags)) d) =
            metrics ++ [(NamedMetric.fresh name).change
              (fun flags => g (if force then flags ||| metForced else flags)) d] := by
        rw [List.modify_eq_take_cons_drop (by simp)]
        simp
      rw [← hlast, ← hindex]
      exact hflag hcreate _

end NrmintTable.Holds

/-! ### Runs -/

/-- What an apdex metric is given, in the places of `mdata`. -/
def apdexData (satisfying tolerating failing minApdex maxApdex : UInt64) : MetricData :=
  { count := satisfying, total := tolerating, exclusive := failing, min := minApdex,
    max := maxApdex, sumSquares := 0 }

inductive MetricCall
  | add (force : Bool) (name : CString) (data : MetricData)
  | addApdex (force : Bool) (name : CString)
      (satisfying tolerating failing minApdex maxApdex : UInt64)
  | duplicate (currentName newName : CString)

def execMetricCall (table : NrmintTable) : MetricCall → NrmintTable
  | .add force name data => nrmAddInternal force table name data
  | .addApdex force name satisfying tolerating failing minApdex maxApdex =>
      nrmAddApdexInternal force table name satisfying tolerating failing minApdex maxApdex
  | .duplicate currentName newName => nrmDuplicateMetric table currentName newName

/-- What a call adds, to which metric, and whether it is forced. A duplication
of a metric that is not there adds nothing. -/
def MetricCall.addition (table : NrmintTable) : MetricCall → Option (Bool × CString × MetricData)
  | .add force name data => some (force, name, data)
  | .addApdex force name satisfying tolerating failing minApdex maxApdex =>
      some (force, name, apdexData satisfying tolerating failing minApdex maxApdex)
  | .duplicate currentName newName =>
      (nrmFind table currentName).map fun i =>
        (nrmIsForced (table.metric i), newName, (table.metric i).mdata)

/-- The metric that an addition ends up in, and its data there. -/
def entryFor (table : NrmintTable) (force : Bool) (name : CString) (data : MetricData) :
    CString × MetricData :=
  if Drops table force name then (metricsDropped, durationData 0) else (name, data)

/-- What a run enters into the table. -/
def entered (table : NrmintTable) : List MetricCall → List (CString × MetricData)
  | [] => []
  | call :: calls =>
      let entry := (call.addition table).map fun (force, name, data) =>
        entryFor table force name data
      entry.toList ++ entered (execMetricCall table call) calls

/-- The data that were entered under a name. -/
def ownData (entries : List (CString × MetricData)) (name : CString) : List MetricData :=
  (entries.filter (·.1 = name)).map Prod.snd

/-- Sums, the least minimum and the greatest maximum. -/
def foldData (data : List MetricData) : MetricData where
  count := (data.map MetricData.count).sum
  total := (data.map MetricData.total).sum
  exclusive := (data.map MetricData.exclusive).sum
  min := (data.map MetricData.min).foldl min nrTimeMax
  max := (data.map MetricData.max).foldl max 0
  sumSquares := (data.map MetricData.sumSquares).sum

theorem min_eq_ite (a b : UInt64) : min a b = if b < a then b else a := by
  show (if a ≤ b then a else b) = _
  split_ifs with hle hlt hlt
  · exact absurd hle (UInt64.not_le.mpr hlt)
  · rfl
  · rfl
  · exact absurd (UInt64.not_lt.mp hlt) hle

theorem max_eq_ite (a b : UInt64) : max a b = if b > a then b else a := by
  show (if a ≤ b then b else a) = _
  split_ifs with hle hlt hlt
  · rfl
  · exact UInt64.le_antisymm (UInt64.not_lt.mp hlt) hle
  · exact absurd (UInt64.le_of_lt hlt) hle
  · rfl

theorem foldData_append (data : List MetricData) (more : MetricData) :
    foldData (data ++ [more]) = (foldData data).add more := by
  simp only [foldData, MetricData.add, List.map_append, List.sum_append, List.foldl_append,
    List.map_cons, List.map_nil, List.sum_cons, List.sum_nil, List.foldl_cons, List.foldl_nil,
    min_eq_ite, max_eq_ite, add_zero]
  rfl

theorem foldData_nil : foldData [] = .fresh := rfl

theorem ownData_append (entries more : List (CString × MetricData)) (name : CString) :
    ownData (entries ++ more) name = ownData entries name ++ ownData more name := by
  rw [ownData, List.filter_append, List.map_append]
  rfl

/-! ### What an addition does -/

/-- In a table that holds `metrics`, after the entries were entered. -/
structure Tracks (table : NrmintTable) (metrics : List NamedMetric)
    (entries : List (CString × MetricData)) : Prop where
  holds : table.Holds metrics
  data : ∀ name, dataOf metrics name =
    if name ∈ entries.map Prod.fst then some (foldData (ownData entries name)) else none

theorem ownData_eq_nil {entries : List (CString × MetricData)} {name : CString}
    (h : name ∉ entries.map Prod.fst) : ownData entries name = [] := by
  rw [ownData, List.map_eq_nil_iff, List.filter_eq_nil_iff]
  rintro entry hentry hname
  exact h (List.mem_map.mpr ⟨entry, hentry, of_decide_eq_true hname⟩)

theorem Tracks.enter {table table' : NrmintTable} {metrics : List NamedMetric}
    {entries : List (CString × MetricData)} (h : Tracks table metrics entries) {name : CString}
    {data : MetricData} {g : UInt32 → UInt32}
    (hholds : table'.Holds (enter metrics name g (·.add data))) :
    Tracks table' (Util.enter metrics name g (·.add data)) (entries ++ [(name, data)]) where
  holds := hholds
  data := by
    intro other
    rw [dataOf_enter, ownData_append, List.map_append]
    split
    · next heq =>
        have hold : (dataOf metrics name).getD .fresh = foldData (ownData entries name) := by
          rw [h.data]
          split
          · rfl
          · next hnot => rw [ownData_eq_nil hnot, foldData_nil]; rfl
        have hown : ownData [(name, data)] name = [data] := by simp [ownData]
        rw [heq, if_pos (by simp), hold, hown, foldData_append]
    · next hne =>
        have hown : ownData [(name, data)] other = [] := by simp [ownData, Ne.symm hne]
        have hmem : other ∈ entries.map Prod.fst ++ [(name, data)].map Prod.fst ↔
            other ∈ entries.map Prod.fst := by
          rw [List.mem_append, List.map_singleton, List.mem_singleton]
          exact or_iff_left hne
        rw [h.data, hown, List.append_nil]
        simp only [hmem]

section Adding

variable {table : NrmintTable} {metrics : List NamedMetric}

theorem NrmintTable.Holds.nrmForceAdd (h : table.Holds metrics) (name : CString)
    (duration : UInt64) :
    ∃ g, (Util.nrmForceAdd table name duration).Holds
      (enter metrics name g (·.add (durationData duration))) := by
  have hadd := h.withMetric id true name id (·.add (durationData duration))
  rw [if_neg (by rintro ⟨_, _, hforce⟩; cases hforce)] at hadd
  exact ⟨_, hadd⟩

theorem NrmintTable.Holds.addition (h : table.Holds metrics) (force : Bool) (name : CString)
    (data : MetricData) (g : UInt32 → UInt32) :
    ∃ g', (Util.withMetric (nrmFindOrCreate force table name) (·.change g (·.add data))).Holds
      (enter metrics (entryFor table force name data).1 g'
        (·.add (entryFor table force name data).2)) := by
  have hadd := h.withMetric (fun table => Util.nrmForceAdd table metricsDropped 0) force name g
    (·.add data)
  rw [entryFor]
  split_ifs with hdrops
  · rw [if_pos hdrops] at hadd
    rw [nrmFindOrCreate, hadd]
    exact h.nrmForceAdd metricsDropped 0
  · rw [if_neg hdrops] at hadd
    exact ⟨_, hadd⟩

theorem addApdex_eq (satisfying tolerating failing minApdex maxApdex : UInt64) :
    NrmintMetric.addApdex satisfying tolerating failing minApdex maxApdex =
      NrmintMetric.change (· ||| metIsApdex)
        (·.add (apdexData satisfying tolerating failing minApdex maxApdex)) := by
  funext metric
  simp only [NrmintMetric.addApdex, NrmintMetric.change, MetricData.add, apdexData, add_zero]
  rfl

theorem NrmintTable.Holds.execMetricCall (h : table.Holds metrics) (call : MetricCall) :
    match call.addition table with
    | none => Util.execMetricCall table call = table
    | some (force, name, data) =>
        ∃ g, (Util.execMetricCall table call).Holds
          (enter metrics (entryFor table force name data).1 g
            (·.add (entryFor table force name data).2)) := by
  cases call with
  | add force name data => exact h.addition force name data id
  | addApdex force name satisfying tolerating failing minApdex maxApdex =>
      have hadd := h.addition force name (apdexData satisfying tolerating failing minApdex maxApdex)
        (· ||| metIsApdex)
      rw [← addApdex_eq] at hadd
      exact hadd
  | duplicate currentName newName =>
      rw [MetricCall.addition, Util.execMetricCall, nrmDuplicateMetric]
      cases nrmFind table currentName with
      | none => rfl
      | some i => exact h.addition _ newName _ id

theorem Tracks.step {entries : List (CString × MetricData)}
    (h : Tracks table metrics entries) (call : MetricCall) :
    ∃ metrics', Tracks (Util.execMetricCall table call) metrics'
      (entries ++ ((call.addition table).map fun (force, name, data) =>
        entryFor table force name data).toList) := by
  have hexec := h.holds.execMetricCall call
  cases haddition : call.addition table with
  | none =>
      simp only [haddition] at hexec
      rw [hexec]
      exact ⟨metrics, by simpa using h⟩
  | some addition =>
      obtain ⟨force, name, data⟩ := addition
      simp only [haddition] at hexec
      obtain ⟨g, hholds⟩ := hexec
      exact ⟨_, h.enter hholds⟩

theorem Tracks.runFrom {entries : List (CString × MetricData)} (h : Tracks table metrics entries)
    (calls : List MetricCall) :
    ∃ metrics', Tracks (runFrom Util.execMetricCall table calls) metrics'
      (entries ++ entered table calls) := by
  induction calls generalizing table metrics entries with
  | nil => exact ⟨metrics, by rwa [entered, List.append_nil]⟩
  | cons call calls ih =>
      rw [entered, ← List.append_assoc]
      obtain ⟨_, hexec⟩ := h.step call
      exact ih hexec

end Adding

theorem nrmTableCreate_tracks (maxSize : ℤ) : Tracks (nrmTableCreate maxSize) [] [] where
  holds := nrmTableCreate_holds maxSize
  data := fun _ => rfl

/-- What changes of metrics and the creation of one preserve, a call preserves. -/
theorem execMetricCall_preserves {P : NrmintTable → Prop}
    (hupdate : ∀ table i f, P table → P (table.update i f))
    (hcreate : ∀ table name, P table → P (nrmCreate table name (nrMkhash name)).1)
    {table : NrmintTable} (h : P table) (call : MetricCall) : P (execMetricCall table call) := by
  have hfound : ∀ (dropped : NrmintTable → NrmintTable) (force : Bool) {table : NrmintTable}
      (name : CString) (f : NrmintMetric → NrmintMetric), P table → P (dropped table) →
      P (withMetric (findOrCreate dropped force table name) f) := by
    intro dropped force table name f h hdropped
    rw [findOrCreate]
    split
    · cases force <;> exact hupdate _ _ _ (by first | exact h | exact hupdate _ _ _ h)
    · split
      · exact hdropped
      · have h' := hcreate table name h
        cases force <;> exact hupdate _ _ _ (by first | exact h' | exact hupdate _ _ _ h')
  have hadd : ∀ (force : Bool) {table : NrmintTable} (name : CString)
      (f : NrmintMetric → NrmintMetric), P table →
      P (withMetric (nrmFindOrCreate force table name) f) := fun force _ name f h =>
    hfound _ force name f h (hfound id true metricsDropped _ h h)
  cases call with
  | add force name data => exact hadd force name _ h
  | addApdex force name satisfying tolerating failing minApdex maxApdex => exact hadd force name _ h
  | duplicate currentName newName =>
      rw [execMetricCall, nrmDuplicateMetric]
      split
      · exact h
      · exact hadd _ newName _ h

theorem nrmCreate_storage (table : NrmintTable) (name : CString) (hash : UInt32) :
    (nrmCreate table name hash).1.maxSize = table.maxSize ∧
      (nrmCreate table name hash).1.number = table.number + 1 ∧
      (nrmCreate table name hash).1.allocated = table.grow.allocated ∧
      (nrmCreate table name hash).1.strpool = (nrStringAdd table.strpool name).1 := by
  have hgrow : table.grow.maxSize = table.maxSize ∧ table.grow.number = table.number ∧
      table.grow.strpool = table.strpool := by
    rw [NrmintTable.grow]
    split <;> exact ⟨rfl, rfl, rfl⟩
  simp only [nrmCreate]
  split <;> exact ⟨hgrow.1, congrArg (· + 1) hgrow.2.1, rfl,
    congrArg (fun pool => (nrStringAdd pool name).1) hgrow.2.2⟩

theorem maxSize_execMetricCall (table : NrmintTable) (call : MetricCall) :
    (execMetricCall table call).maxSize = table.maxSize :=
  execMetricCall_preserves (P := fun table' => table'.maxSize = table.maxSize)
    (fun _ _ _ h => h) (fun _ _ h => (nrmCreate_storage ..).1.trans h) rfl call

theorem maxSize_runFrom (table : NrmintTable) (calls : List MetricCall) :
    (runFrom execMetricCall table calls).maxSize = table.maxSize := by
  induction calls generalizing table with
  | nil => rfl
  | cons call calls ih => exact (ih _).trans (maxSize_execMetricCall table call)

/-! ### Widths -/

/-- The names that a call is given. -/
def MetricCall.names : MetricCall → List CString
  | .add _ name _ | .addApdex _ name _ _ _ _ _ => [name]
  | .duplicate currentName newName => [currentName, newName]

/-- An `int` can count the bytes of the names, with their zeros. -/
def MetricCall.Fits (call : MetricCall) : Prop := ∀ name ∈ call.names, name.1.length < 2 ^ 31 - 1

/-- An `int` holds the size of the array also when it is enlarged, and for the names that a call may
look up and add to the pool `nr_mkhash` and `nr_string_add` do with their `int`s what they do
without. -/
def NrmintTable.IntsHold (table : NrmintTable) (call : MetricCall) : Prop :=
  table.grow.allocated < 2 ^ 31 ∧ ∀ name ∈ metricsDropped :: call.names,
    nrMkhashLen (terminated name.1) 0 = .ok (nrMkhash name.1, (name.1.length : ℤ)) ∧
      Sized.nrStringAdd table.strpool name = .ok (nrStringAdd table.strpool name)

/-- The arrays of the table and of its pool have room for no more than one step beyond what they
need. -/
structure NrmintTable.Tight (table : NrmintTable) : Prop where
  allocated : table.allocated ≤ max table.maxSize (table.number + nrmDefaultMaxSize)
  size : table.strpool.size ≤ table.strpool.numEntries + nrStrpoolIncreaseSize

theorem NrmintTable.Tight.grow {table : NrmintTable} (h : table.Tight) :
    table.grow.allocated ≤ max table.maxSize (table.number + nrmDefaultMaxSize) := by
  rw [NrmintTable.grow]
  split
  · next hfull => exact (Nat.add_le_add_right hfull _).trans (le_max_right _ _)
  · exact h.allocated

theorem NrmintTable.Tight.execMetricCall {table : NrmintTable} (h : table.Tight)
    (call : MetricCall) : (Util.execMetricCall table call).Tight := by
  refine execMetricCall_preserves (fun table i f h => ⟨h.allocated, h.size⟩) ?_ h call
  intro table name h
  obtain ⟨hmax, hnumber, hallocated, hpool⟩ := nrmCreate_storage table name (nrMkhash name)
  obtain ⟨hsize, hentries⟩ := size_nrStringAddInternal table.strpool name (nrMkhash name) name.1.length
  refine ⟨?_, ?_⟩
  · rw [hmax, hnumber, hallocated]
    exact h.grow.trans (max_le_max_left _ (by omega))
  · rw [hpool, nrStringAdd, hsize]
    exact (size_grow_le h.size).trans (Nat.add_le_add_right hentries _)

theorem nrmTableCreate_tight (maxSize : ℤ) : (nrmTableCreate maxSize).Tight where
  allocated := le_max_left _ _
  size := Nat.le_add_left _ _

theorem maxSize_nrmTableCreate_lt {maxSize : ℤ} (h : maxSize < 2 ^ 31) :
    (nrmTableCreate maxSize).maxSize < 2 ^ 31 := by
  have hmax : (nrmTableCreate maxSize).maxSize =
      if maxSize ≤ 0 then nrmDefaultMaxSize else maxSize.toNat := rfl
  rw [hmax]
  split
  · decide
  · omega

section Widths

variable {table : NrmintTable} {metrics : List NamedMetric} {entries : List (CString × MetricData)}
  {names : List CString}

theorem Tracks.intsHold (h : Tracks table metrics entries) (htight : table.Tight)
    (hmax : table.maxSize < 2 ^ 31) (hentries : ∀ name ∈ entries.map Prod.fst, name ∈ names)
    (hfits : names.dedup.length + nrStrpoolIncreaseSize < 2 ^ 31) {call : MetricCall}
    (hcall : call.Fits) : table.IntsHold call := by
  have hsubset : ∀ name ∈ metrics.map NamedMetric.name, name ∈ names.dedup := by
    intro name hname
    refine List.mem_dedup.mpr (hentries name ?_)
    have hdata := h.data name
    by_contra hnot
    rw [if_neg hnot, dataOf, Option.map_eq_none_iff, List.getElem?_eq_none_iff] at hdata
    exact absurd (List.idxOf_lt_length_iff.mpr hname) (by rw [List.length_map]; omega)
  have hnumber := (List.subperm_of_subset h.holds.indexes.nodup hsubset).length_le
  have hpool := h.holds.strpool.numEntries
  have htable := h.holds.number
  rw [List.length_map] at hnumber hpool
  have hgrow := htight.grow
  simp only [nrStrpoolIncreaseSize, nrmDefaultMaxSize] at hfits hgrow
  refine ⟨by omega, fun name hname => ?_⟩
  have hlen : name.1.length < 2 ^ 31 - 1 := by
    rcases List.mem_cons.mp hname with rfl | hname
    · decide
    · exact hcall name hname
  exact ⟨nrMkhashLen_string name.2 (by omega),
    Sized.nrStringAdd_eq hlen htight.size (by rw [nrStrpoolIncreaseSize]; omega)⟩

/-- Every name that is entered is one of a call, or that of the dropped metrics. -/
theorem mem_entered {name : CString} {calls : List MetricCall}
    (h : name ∈ (entered table calls).map Prod.fst) :
    name ∈ metricsDropped :: calls.flatMap MetricCall.names := by
  induction calls generalizing table with
  | nil => cases h
  | cons call calls ih =>
      rw [entered, List.map_append, List.mem_append] at h
      rw [List.flatMap_cons, List.mem_cons, List.mem_append]
      rcases h with hhead | htail
      · obtain ⟨entry, hentry, rfl⟩ := List.mem_map.mp hhead
        obtain ⟨⟨force, name, data⟩, hadd, rfl⟩ := Option.map_eq_some_iff.mp
          (Option.mem_toList.mp hentry)
        have hname : name ∈ call.names := by
          cases call with
          | add => cases hadd; exact List.mem_singleton_self _
          | addApdex => cases hadd; exact List.mem_singleton_self _
          | duplicate =>
              obtain ⟨_, -, heq⟩ := Option.map_eq_some_iff.mp hadd
              cases heq
              exact List.mem_cons_of_mem _ (List.mem_singleton_self _)
        show (entryFor table force name data).1 = _ ∨ (entryFor table force name data).1 ∈ _ ∨ _
        rw [entryFor]
        split
        · exact .inl rfl
        · exact .inr (.inl hname)
      · rcases List.mem_cons.mp (ih htail) with heq | hmem
        · exact .inl heq
        · exact .inr (.inr hmem)

/-- The `int`s hold along a run of short names, of which there are not too many. -/
theorem Tracks.intsHold_along (h : Tracks table metrics entries) (htight : table.Tight)
    (hmax : table.maxSize < 2 ^ 31) {calls : List MetricCall}
    (hentries : ∀ name ∈ (entries ++ entered table calls).map Prod.fst, name ∈ names)
    (hfits : names.dedup.length + nrStrpoolIncreaseSize < 2 ^ 31)
    (hcalls : ∀ call ∈ calls, call.Fits) :
    Along execMetricCall NrmintTable.IntsHold table calls := by
  induction calls generalizing table metrics entries with
  | nil => trivial
  | cons call calls ih =>
      obtain ⟨hcall, hcalls⟩ := List.forall_mem_cons.mp hcalls
      rw [entered, ← List.append_assoc] at hentries
      obtain ⟨_, hexec⟩ := h.step call
      refine ⟨h.intsHold htight hmax (fun name hname => hentries name ?_) hfits hcall,
        ih hexec (htight.execMetricCall call) ?_ hentries hcalls⟩
      · rw [List.append_assoc, List.map_append]
        exact List.mem_append_left _ hname
      · rw [maxSize_execMetricCall]
        exact hmax

end Widths

section Holding

variable {table : NrmintTable} {metrics : List NamedMetric}

theorem NrmintTable.Holds.nrmTableValidate (h : table.Holds metrics) :
    Util.nrmTableValidate table = true := by
  rw [Util.nrmTableValidate, decide_eq_true_iff]
  refine ⟨h.allocated, List.all_eq_true.mpr fun i hi => ?_⟩
  have hlt := List.mem_range.mp hi
  obtain ⟨named, hnamed⟩ := h.exists_named hlt
  have hstands := h.stands i named hnamed
  have hchild : ∀ child : ℤ, -1 ≤ child →
      (∀ j, childOf child = some j → i < j ∧ j < table.nodes.length) →
      ¬ child < -1 ∧ ¬ child ≥ table.number ∧ ¬ (-1 ≠ child ∧ child ≤ i) := fun child hge hlinks => by
    rw [h.indexes.length_eq, List.length_map, ← h.number] at hlinks
    by_cases hnone : child = -1
    · omega
    · have hlink := hlinks child.toNat (if_neg hnone)
      omega
  have hlinks := h.indexes.threaded.links i _ (h.nodes_getElem? hlt)
  obtain ⟨hleft, hleft', hleft''⟩ := hchild _ hstands.left fun j hj => hlinks j (.inl hj)
  obtain ⟨hright, hright', hright''⟩ := hchild _ hstands.right fun j hj => hlinks j (.inr hj)
  rw [validMetric, decide_eq_true_iff]
  exact ⟨hleft, hright, hleft', hright', hleft'', hright'', by rw [h.name_eq hnamed]; rfl⟩

theorem NrmintTable.Holds.nrmGetName_inj (h : table.Holds metrics) {i j : ℕ}
    (hi : i < table.number) (hj : j < table.number)
    (heq : nrmGetName table i = nrmGetName table j) : i = j := by
  obtain ⟨named, hnamed⟩ := h.exists_named hi
  obtain ⟨named', hnamed'⟩ := h.exists_named hj
  rw [h.name_eq hnamed, h.name_eq hnamed'] at heq
  have hname : named.name = named'.name := Subtype.ext (Option.some.inj heq)
  refine (List.getElem?_inj (l := metrics.map NamedMetric.name) ?_ h.indexes.nodup).mp ?_
  · rw [List.length_map, ← h.number]
    exact hi
  · rw [List.getElem?_map, List.getElem?_map, hnamed, hnamed', Option.map_some, Option.map_some,
      hname]

theorem NrmintTable.Holds.nrmFind_eq_some (h : table.Holds metrics) (name : CString) (i : ℕ) :
    nrmFind table name = some i ↔ i < table.number ∧ nrmGetName table i = some name.1 := by
  rw [h.nrmFind_eq]
  constructor
  · intro hfind
    split at hfind
    · next hmem =>
        obtain rfl := Option.some.inj hfind
        have hlt := List.idxOf_lt_length_iff.mpr hmem
        have hget := List.getElem_idxOf hlt
        rw [List.length_map] at hlt
        refine ⟨h.number ▸ hlt, ?_⟩
        rw [h.name_eq (List.getElem?_eq_getElem hlt)]
        rw [List.getElem_map] at hget
        rw [hget]
    · cases hfind
  · rintro ⟨hi, hname⟩
    obtain ⟨named, hnamed⟩ := h.exists_named hi
    rw [h.name_eq hnamed] at hname
    have hget : (metrics.map NamedMetric.name)[i]? = some name := by
      rw [List.getElem?_map, hnamed]
      exact congrArg some (Subtype.ext (Option.some.inj hname))
    have hmem := List.mem_of_getElem? hget
    rw [if_pos hmem]
    refine congrArg some ((List.getElem?_inj (List.idxOf_lt_length_iff.mpr hmem)
      h.indexes.nodup).mp ?_)
    rw [hget, List.getElem?_eq_getElem (List.idxOf_lt_length_iff.mpr hmem), List.getElem_idxOf]

theorem nrmFind_isSome (table : NrmintTable) (name : CString) :
    (nrmFind table name).isSome ↔ (nrmData table name).isSome := by
  rw [nrmData, Option.isSome_map]

/-- An addition changes the data of the metric it ends up in, and no other. -/
theorem NrmintTable.Holds.nrmData_execMetricCall (h : table.Holds metrics) {call : MetricCall}
    {force : Bool} {name : CString} {data : MetricData}
    (hcall : call.addition table = some (force, name, data)) (other : CString) :
    nrmData (Util.execMetricCall table call) other =
      if other = (entryFor table force name data).1 then
        some (((nrmData table other).getD .fresh).add (entryFor table force name data).2)
      else nrmData table other := by
  have hexec := h.execMetricCall call
  simp only [hcall] at hexec
  obtain ⟨g, hholds⟩ := hexec
  rw [hholds.nrmData_eq, dataOf_enter, h.nrmData_eq]
  split
  · next heq => rw [heq]
  · rfl

/-- The data are entered under the name where the metric is there or there is room for it, and are
otherwise one dropped metric. A full table gets no metric of the name. -/
def EntersUnforced (name : CString) (data : MetricData) (table table' : NrmintTable) : Prop :=
  (table.number ≥ table.maxSize → name ≠ metricsDropped →
    ((nrmFind table' name).isSome ↔ (nrmFind table name).isSome)) ∧
  if (nrmFind table name).isSome ∨ table.number < table.maxSize then
    ∀ other, nrmData table' other =
      if other = name then some (((nrmData table name).getD .fresh).add data)
      else nrmData table other
  else
    ∀ other, nrmData table' other =
      if other = metricsDropped then
        some (((nrmData table metricsDropped).getD .fresh).add (durationData 0))
      else nrmData table other

theorem NrmintTable.Holds.unforced (h : table.Holds metrics) {call : MetricCall} {name : CString}
    {data : MetricData} (hcall : call.addition table = some (false, name, data)) :
    EntersUnforced name data table (Util.execMetricCall table call) := by
  have hexec := h.nrmData_execMetricCall hcall
  have hentry : entryFor table false name data =
      if (nrmFind table name).isSome ∨ table.number < table.maxSize then (name, data)
      else (metricsDropped, durationData 0) := by
    rw [entryFor]
    split_ifs with hdrops hroom hroom
    · obtain ⟨hnone, hfull, _⟩ := hdrops
      rw [hnone] at hroom
      exact absurd hfull (by simpa [nrmIsFull] using hroom)
    · rfl
    · rfl
    · rw [not_or, Option.not_isSome_iff_eq_none, not_lt] at hroom
      exact absurd ⟨hroom.1, hroom.2, rfl⟩ hdrops
  rw [hentry] at hexec
  refine ⟨fun hfull hname => ?_, ?_⟩
  · rw [nrmFind_isSome, nrmFind_isSome, hexec]
    by_cases hroom : (nrmFind table name).isSome ∨ table.number < table.maxSize
    · have hsome := hroom.resolve_right (not_lt.mpr hfull)
      rw [nrmFind_isSome] at hsome
      simp [if_pos hroom, hsome]
    · simp [if_neg hroom, hname]
  · split_ifs with hroom
    · intro other
      rw [hexec, if_pos hroom]
      split
      · next heq => rw [heq]
      · rfl
    · intro other
      rw [hexec, if_neg hroom]
      split
      · next heq => rw [heq]
      · rfl

end Holding

/-- A table of metrics conserves the data of all calls. Its metrics have
distinct names, which are found where they are, and the data of each are the
sums and extremes of all that was entered under its name. An addition without
force is entered under its own name if the metric is there or there is room,
and is otherwise one dropped metric; where there is no room it creates no
metric of its own name, unless that is the name of the dropped metrics. The
limit, the names and their number are ones that `int` can count, and then every
`int` of the run holds what it counts. -/
theorem metricTable_conserves (maxSize : ℤ) (calls : List MetricCall) (hmax : maxSize < 2 ^ 31)
    (hlen : ∀ call ∈ calls, call.Fits)
    (hfits : (metricsDropped :: calls.flatMap MetricCall.names).dedup.length +
      nrStrpoolIncreaseSize < 2 ^ 31) :
    let table := runFrom execMetricCall (nrmTableCreate maxSize) calls
    let entries := entered (nrmTableCreate maxSize) calls
    Along execMetricCall NrmintTable.IntsHold (nrmTableCreate maxSize) calls ∧
      nrmTableValidate table = true ∧
      table.maxSize = (if maxSize ≤ 0 then nrmDefaultMaxSize else maxSize.toNat) ∧
      (∀ i < table.number, ∃ name : CString, nrmGetName table i = some name.1) ∧
      (∀ i < table.number, ∀ j < table.number, nrmGetName table i = nrmGetName table j → i = j) ∧
      (∀ name : CString, name.1.length < 2 ^ 31 - 1 → ∀ i, nrmFind table name = some i ↔
        i < table.number ∧ nrmGetName table i = some name.1) ∧
      (∀ name : CString, name.1.length < 2 ^ 31 - 1 →
        ((nrmFind table name).isSome ↔ name ∈ entries.map Prod.fst)) ∧
      (∀ name : CString, name.1.length < 2 ^ 31 - 1 → ∀ i, nrmFind table name = some i →
        (table.metric i).mdata = foldData (ownData entries name)) ∧
      ∀ before call after, calls = before ++ call :: after →
        ∀ (name : CString) (data : MetricData),
        let table := runFrom execMetricCall (nrmTableCreate maxSize) before
        call.addition table = some (false, name, data) →
          EntersUnforced name data table (execMetricCall table call) := by
  intro table entries
  obtain ⟨metrics, htracks⟩ := (nrmTableCreate_tracks maxSize).runFrom calls
  rw [List.nil_append] at htracks
  have h : table.Holds metrics := htracks.holds
  have hdata : ∀ name, nrmData table name =
      if name ∈ entries.map Prod.fst then some (foldData (ownData entries name)) else none :=
    fun name => (h.nrmData_eq name).trans (htracks.data name)
  refine ⟨?_, h.nrmTableValidate, maxSize_runFrom _ calls, fun i hi => ?_,
    fun i hi j hj => h.nrmGetName_inj hi hj, fun name _ => h.nrmFind_eq_some name,
    fun name _ => ?_, fun name _ i hfind => ?_, ?_⟩
  · exact (nrmTableCreate_tracks maxSize).intsHold_along (nrmTableCreate_tight maxSize)
      (maxSize_nrmTableCreate_lt hmax) (fun name => mem_entered) hfits hlen
  · obtain ⟨named, hnamed⟩ := h.exists_named hi
    exact ⟨named.name, h.name_eq hnamed⟩
  · rw [nrmFind_isSome, hdata]
    split <;> simp_all
  · have hname := hdata name
    rw [nrmData, hfind] at hname
    split at hname
    · exact Option.some.inj hname
    · cases hname
  · rintro before call after - name data table hcall
    obtain ⟨_, hbefore⟩ := (nrmTableCreate_tracks maxSize).runFrom before
    exact hbefore.holds.unforced hcall

/-- A name of one letter. -/
def plainName : CString := ⟨[97], by decide⟩

theorem entryFor_plainName : entryFor (nrmTableCreate 1) false plainName (durationData 5) =
    (plainName, durationData 5) := by
  refine if_neg ?_
  rintro ⟨_, hfull, _⟩
  exact absurd hfull (by decide)

theorem metricTable_conserves_plain :
    let table := execMetricCall (nrmTableCreate 1) (.add false plainName (durationData 5))
    nrmTableValidate table = true ∧ (nrmFind table plainName).isSome := by
  have hfits : ∀ call ∈ [MetricCall.add false plainName (durationData 5)], call.Fits := by
    intro call hcall name hname
    cases List.mem_singleton.mp hcall
    cases List.mem_singleton.mp hname
    decide
  obtain ⟨-, hvalid, -, -, -, -, hfind, -⟩ := metricTable_conserves 1
    [.add false plainName (durationData 5)] (by decide) hfits (by decide)
  refine ⟨hvalid, (hfind plainName (by decide)).mpr ?_⟩
  show plainName ∈ ([entryFor (nrmTableCreate 1) false plainName (durationData 5)]).map Prod.fst
  rw [entryFor_plainName]
  exact List.mem_singleton_self _

/-- The dropped metrics themselves can be added without force, and then are a
metric more in a table that is full. -/
theorem metricsDropped_created :
    let table := execMetricCall (nrmTableCreate 1) (.add false plainName (durationData 5))
    let table' := execMetricCall table (.add false metricsDropped (durationData 7))
    table.number ≥ table.maxSize ∧ nrmFind table metricsDropped = none ∧
      (nrmFind table' metricsDropped).isSome := by
  intro table table'
  have hcreate := nrmTableCreate_holds 1
  obtain ⟨g, h⟩ := hcreate.execMetricCall (.add false plainName (durationData 5))
  rw [entryFor_plainName] at h
  have hnames : (enter [] plainName g (·.add (durationData 5))).map NamedMetric.name =
      [plainName] := map_name_enter ..
  refine ⟨?_, ?_, ?_⟩
  · have hmax : table.maxSize = 1 := maxSize_execMetricCall ..
    rw [hmax, h.number, ← List.length_map NamedMetric.name, hnames]
    rfl
  · rw [h.nrmFind_eq, hnames, if_neg (by decide)]
  · have hentry : (entryFor table false metricsDropped (durationData 7)).1 = metricsDropped := by
      rw [entryFor]
      split <;> rfl
    rw [nrmFind_isSome, h.nrmData_execMetricCall rfl, hentry, if_pos rfl]
    rfl

end AxiomDaemon.Util

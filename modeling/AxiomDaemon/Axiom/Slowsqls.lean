import AxiomDaemon.Lib.TopTable

/-!
The slow SQL statements of a transaction, `nr_slowsqls.c`. A table holds one
entry for each statement, up to a bound, and a statement that is not there
takes the place of the fastest one in a full table unless it is faster
itself.

Times are unsigned 64-bit numbers of microseconds and counts 32-bit numbers,
both of which wrap around. The copies of the texts that the source makes are
the texts themselves here.
-/

namespace AxiomDaemon.Axiom

open AxiomDaemon.Lib

/-- `nr_slowsql_t`. -/
structure NrSlowsql where
  metricName : String
  sqlId : UInt32
  count : Int32
  total : UInt64
  minTime : UInt64
  maxTime : UInt64
  paramsJson : String
  sql : String
  deriving DecidableEq

/-- `nr_slowsqls_t`. -/
structure NrSlowsqls where
  slowsqls : List NrSlowsql
  maxSlowsqls : ℕ
  deriving DecidableEq

def nrSlowsqlsCreate (maxSlowsqls : ℤ) : Option NrSlowsqls :=
  if maxSlowsqls ≤ 0 then none else some { slowsqls := [], maxSlowsqls := maxSlowsqls.toNat }

/-- `nr_slowsql_merge`: the texts are those of the slowest instance. -/
def nrSlowsqlMerge (dest src : NrSlowsql) : NrSlowsql :=
  let dest := { dest with
    count := dest.count + src.count
    total := dest.total + src.total
    minTime := if src.minTime < dest.minTime then src.minTime else dest.minTime }
  if src.maxTime > dest.maxTime then
    { dest with
      maxTime := src.maxTime
      metricName := src.metricName
      sql := src.sql
      paramsJson := src.paramsJson }
  else dest

/-- The loop for the smallest maximum: its position and the time itself. -/
def smallestMax (first : NrSlowsql) (rest : List NrSlowsql) : ℕ × UInt64 :=
  scanLeast NrSlowsql.maxTime (fun a b => decide (a < b)) rest 1 0 first.maxTime

/-- `nr_slowsqls_add_internal`. -/
def nrSlowsqlsAddInternal (slowsqls : NrSlowsqls) (slow : NrSlowsql) : NrSlowsqls :=
  match mergeFirst (fun s => decide (slow.sqlId = s.sqlId)) (fun s => nrSlowsqlMerge s slow)
    slowsqls.slowsqls with
  | some merged => { slowsqls with slowsqls := merged }
  | none =>
      if slowsqls.slowsqls.length < slowsqls.maxSlowsqls then
        { slowsqls with slowsqls := slowsqls.slowsqls ++ [slow] }
      else
        match slowsqls.slowsqls with
        -- a table has room for at least one entry, so a full one is not empty
        | [] => slowsqls
        | first :: rest =>
            let (smallestMaxIdx, smallestMaxTime) := smallestMax first rest
            if slow.maxTime < smallestMaxTime then slowsqls
            else { slowsqls with slowsqls := (first :: rest).set smallestMaxIdx slow }

/-- What `nr_slowsqls_add` is told of one call. -/
structure SlowsqlsParams where
  sqlId : UInt32
  sql : String
  duration : UInt64
  metricName : String
  paramsJson : String
  deriving DecidableEq

/-- The statement that `nr_slowsqls_add` adds. -/
def SlowsqlsParams.slow (params : SlowsqlsParams) : NrSlowsql where
  metricName := params.metricName
  sqlId := params.sqlId
  count := 1
  total := params.duration
  minTime := params.duration
  maxTime := params.duration
  paramsJson := params.paramsJson
  sql := params.sql

def nrSlowsqlsAdd (slowsqls : NrSlowsqls) (params : SlowsqlsParams) : NrSlowsqls :=
  nrSlowsqlsAddInternal slowsqls params.slow

/-! ### What an addition does to the table -/

@[simp] theorem sqlId_nrSlowsqlMerge (dest src : NrSlowsql) :
    (nrSlowsqlMerge dest src).sqlId = dest.sqlId := by
  rw [nrSlowsqlMerge, apply_ite NrSlowsql.sqlId]
  exact ite_self _

theorem maxTime_nrSlowsqlMerge (dest src : NrSlowsql) :
    (nrSlowsqlMerge dest src).maxTime.toNat = max dest.maxTime.toNat src.maxTime.toNat := by
  have hmerge : (nrSlowsqlMerge dest src).maxTime =
      if src.maxTime > dest.maxTime then src.maxTime else dest.maxTime := by
    rw [nrSlowsqlMerge, apply_ite NrSlowsql.maxTime]
  rw [hmerge]
  split_ifs with hmax
  · exact (max_eq_right (UInt64.lt_iff_toNat_lt.mp hmax).le).symm
  · exact (max_eq_left (not_lt.mp (mt UInt64.lt_iff_toNat_lt.mpr hmax))).symm

theorem maxSlowsqls_addInternal (slowsqls : NrSlowsqls) (slow : NrSlowsql) :
    (nrSlowsqlsAddInternal slowsqls slow).maxSlowsqls = slowsqls.maxSlowsqls := by
  rw [nrSlowsqlsAddInternal]
  split
  · rfl
  · split_ifs
    · rfl
    · split
      · rfl
      · dsimp only
        split_ifs <;> rfl

/-- `nr_slowsqls_add_internal` is an addition to a table of greatest entries; of
two statements with equal times the later one stays. -/
theorem adds_addInternal {slowsqls : NrSlowsqls} (hpos : 0 < slowsqls.maxSlowsqls)
    (hlen : slowsqls.slowsqls.length ≤ slowsqls.maxSlowsqls) (slow : NrSlowsql) :
    Adds NrSlowsql.sqlId (fun s => s.maxTime.toNat) nrSlowsqlMerge slowsqls.maxSlowsqls
      slowsqls.slowsqls slow (nrSlowsqlsAddInternal slowsqls slow).slowsqls := by
  rw [nrSlowsqlsAddInternal]
  split
  · next merged hmerged =>
    obtain ⟨e, rest, hsame, hperm, hperm'⟩ := mergeFirst_eq_some hmerged
    exact .merged hperm (of_decide_eq_true hsame).symm hperm'
  · next hnone =>
    have hnew : slow.sqlId ∉ slowsqls.slowsqls.map NrSlowsql.sqlId := by
      rintro hmem
      obtain ⟨s, hs, hid⟩ := List.mem_map.mp hmem
      exact of_decide_eq_false (mergeFirst_eq_none.mp hnone s hs) hid.symm
    split_ifs with hroom
    · exact .kept hnew hroom (List.perm_append_singleton _ _)
    split
    · next hempty =>
      rw [hempty] at hroom
      exact absurd hpos hroom
    · next first rest hcons =>
      have hfull : slowsqls.slowsqls.length = slowsqls.maxSlowsqls := by omega
      have hless : ∀ a b : UInt64, decide (a < b) = true ↔ a.toNat < b.toNat := fun a b => by
        rw [decide_eq_true_eq, UInt64.lt_iff_toNat_lt]
      obtain ⟨e, he, htime, hleast⟩ := scanLeast_cons NrSlowsql.maxTime hless first rest
      obtain ⟨others, hperm, hset⟩ := perm_set_of_getElem? he
      rw [smallestMax]
      dsimp only
      rw [htime]
      split_ifs with hfaster
      · refine .refused hnew hfull (fun s hs => ?_) rfl
        rw [hcons] at hs
        exact (UInt64.lt_iff_toNat_lt.mp hfaster).le.trans (hleast s hs)
      · refine .replaced hnew hfull (hcons ▸ hperm) (fun s hs => hleast s (hcons ▸ hs)) ?_
          (hset slow)
        exact not_lt.mp (mt UInt64.lt_iff_toNat_lt.mpr hfaster)

end AxiomDaemon.Axiom

import Mathlib.Algebra.Order.Ring.Int
import AxiomDaemon.Lib.Transition
import AxiomDaemon.Axiom.Slowsqls
import AxiomDaemon.Daemon.Collections

/-!
Slow SQL statements on their way from the agent to the daemon. Every
transaction has a table of its own; when it ends the entries of that table
are observed by the daemon, whose table is no larger. Although statements are
forgotten on both levels and may come back, what the daemon holds are the
slowest statements of all that were ever added, with their true maximum times
and the texts of a slowest call.

The sums of an entry are those of the calls only as long as they fit into
their words.
-/

namespace AxiomDaemon.Daemon

open AxiomDaemon.Lib AxiomDaemon.Axiom

/-! ### Observing as an addition -/

theorem id_merge (slow other : SlowSQL Int32) : (slow.merge other).id = slow.id := by
  rw [SlowSQL.merge, apply_ite SlowSQL.id]
  exact ite_self _

theorem maxMicros_merge (slow other : SlowSQL Int32) : (slow.merge other).maxMicros.toNat =
    max slow.maxMicros.toNat other.maxMicros.toNat := by
  have hmerge : (slow.merge other).maxMicros =
      if other.maxMicros > slow.maxMicros then other.maxMicros else slow.maxMicros := by
    rw [SlowSQL.merge, apply_ite SlowSQL.maxMicros]
  rw [hmerge]
  split_ifs with hmax
  · exact (max_eq_right (UInt64.lt_iff_toNat_lt.mp hmax).le).symm
  · exact (max_eq_left (not_lt.mp (mt UInt64.lt_iff_toNat_lt.mpr hmax))).symm

theorem mergeExisting_eq (slow : SlowSQL Int32) (l : List (SlowSQL Int32)) :
    SlowSQLs.mergeExisting slow l =
      mergeFirst (fun s => decide (s.id = slow.id)) (fun s => s.merge slow) l := by
  induction l with
  | nil => rfl
  | cons s rest ih => simp only [SlowSQLs.mergeExisting, mergeFirst, ih, decide_eq_true_eq]

theorem fastestLoop_eq (l : List (SlowSQL Int32)) (idx minIdx : ℕ) (minOfMax : UInt64) :
    SlowSQLs.fastestLoop l idx minIdx minOfMax =
      (scanLeast SlowSQL.maxMicros (fun a b => decide (a < b)) l idx minIdx minOfMax).1 := by
  induction l generalizing idx minIdx minOfMax with
  | nil => rfl
  | cons s rest ih =>
      simp only [SlowSQLs.fastestLoop, scanLeast, decide_eq_true_eq, ih]
      split_ifs <;> rfl

theorem cap_observe (slows : SlowSQLs Int32) (slow : SlowSQL Int32) :
    (slows.observe slow).cap = slows.cap := by
  rw [SlowSQLs.observe]
  split
  · rfl
  · split_ifs
    · split
      · rfl
      · rw [SlowSQLs.replaceAt]
        split
        · rfl
        · split_ifs <;> rfl
    · rfl

/-- `Observe` is an addition to a table of greatest entries; of two statements
with equal times the earlier one stays. -/
theorem adds_observe {slows : SlowSQLs Int32} (hlen : slows.slowSQLs.length ≤ slows.cap)
    (slow : SlowSQL Int32) :
    Adds SlowSQL.id (fun s => s.maxMicros.toNat) SlowSQL.merge slows.cap slows.slowSQLs slow
      (slows.observe slow).slowSQLs := by
  rw [SlowSQLs.observe, mergeExisting_eq]
  split
  · next merged hmerged =>
    obtain ⟨e, rest, hsame, hperm, hperm'⟩ := mergeFirst_eq_some hmerged
    exact .merged hperm (of_decide_eq_true hsame) hperm'
  · next hnone =>
    have hnew : slow.id ∉ slows.slowSQLs.map SlowSQL.id := by
      rintro hmem
      obtain ⟨s, hs, hid⟩ := List.mem_map.mp hmem
      exact of_decide_eq_false (mergeFirst_eq_none.mp hnone s hs) hid
    split_ifs with hfull
    swap
    · exact .kept hnew (by omega) (List.perm_append_singleton _ _)
    rw [SlowSQLs.fastest]
    cases hcons : slows.slowSQLs with
    | nil =>
        rw [hcons] at hnew hfull
        exact .refused hnew hfull (fun s hs => absurd hs List.not_mem_nil) hcons
    | cons first rest =>
        have hless : ∀ a b : UInt64, decide (a < b) = true ↔ a.toNat < b.toNat := fun a b => by
          rw [decide_eq_true_eq, UInt64.lt_iff_toNat_lt]
        obtain ⟨e, he, -, hleast⟩ := scanLeast_cons SlowSQL.maxMicros hless first rest
        obtain ⟨others, hperm, hset⟩ := perm_set_of_getElem? he
        rw [hcons] at hnew hfull
        simp only [SlowSQLs.replaceAt, fastestLoop_eq, hcons, he]
        split_ifs with hslower
        · exact .replaced hnew hfull hperm hleast (UInt64.lt_iff_toNat_lt.mp hslower).le (hset slow)
        · refine .refused hnew hfull (fun s hs => ?_) hcons
          exact (not_lt.mp (mt UInt64.lt_iff_toNat_lt.mpr hslower)).trans (hleast s hs)

/-! ### The sums of an entry -/

/-- The total lies between the times of as many fastest and slowest calls. -/
structure AmountsOk (count : Int32) (total min max : UInt64) : Prop where
  count_nonneg : 0 ≤ count.toInt
  lower : count.toInt * min.toNat ≤ total.toNat
  upper : (total.toNat : ℤ) ≤ count.toInt * max.toNat

/-- Two sums fit into their words. -/
def SumsFit (count count' : Int32) (total total' : UInt64) : Prop :=
  count.toInt + count'.toInt < 2 ^ 31 ∧ total.toNat + total'.toNat < 2 ^ 64

theorem amountsOk_one (duration : UInt64) : AmountsOk 1 duration duration duration := by
  have hone : (1 : Int32).toInt = 1 := by decide
  constructor <;> simp [hone]

theorem AmountsOk.merge {count count' : Int32} {total total' min min' max max' : UInt64}
    (h : AmountsOk count total min max) (h' : AmountsOk count' total' min' max')
    (hfit : SumsFit count count' total total') :
    AmountsOk (count + count') (total + total') (if min' < min then min' else min)
      (if max' > max then max' else max) := by
  have hc := h.count_nonneg
  have hc' := h'.count_nonneg
  have hcount : (count + count').toInt = count.toInt + count'.toInt := by
    rw [Int32.toInt_add]
    refine Int.bmod_eq_of_le ?_ ?_
    · omega
    · have := hfit.1
      omega
  have htotal : (total + total').toNat = total.toNat + total'.toNat := by
    rw [UInt64.toNat_add, Nat.mod_eq_of_lt hfit.2]
  have hmin : (if min' < min then min' else min).toNat ≤ min.toNat ∧
      (if min' < min then min' else min).toNat ≤ min'.toNat := by
    split_ifs with hlt
    · exact ⟨(UInt64.lt_iff_toNat_lt.mp hlt).le, le_rfl⟩
    · exact ⟨le_rfl, not_lt.mp (mt UInt64.lt_iff_toNat_lt.mpr hlt)⟩
  have hmax : max.toNat ≤ (if max' > max then max' else max).toNat ∧
      max'.toNat ≤ (if max' > max then max' else max).toNat := by
    split_ifs with hlt
    · exact ⟨(UInt64.lt_iff_toNat_lt.mp hlt).le, le_rfl⟩
    · exact ⟨le_rfl, not_lt.mp (mt UInt64.lt_iff_toNat_lt.mpr hlt)⟩
  refine ⟨by omega, ?_, ?_⟩
  · rw [hcount, htotal, Int.natCast_add, Int.add_mul]
    exact add_le_add
      ((mul_le_mul_of_nonneg_left (by exact_mod_cast hmin.1) hc).trans h.lower)
      ((mul_le_mul_of_nonneg_left (by exact_mod_cast hmin.2) hc').trans h'.lower)
  · rw [hcount, htotal, Int.natCast_add, Int.add_mul]
    exact add_le_add
      (h.upper.trans (mul_le_mul_of_nonneg_left (by exact_mod_cast hmax.1) hc))
      (h'.upper.trans (mul_le_mul_of_nonneg_left (by exact_mod_cast hmax.2) hc'))

def NrSlowsqlAmountsOk (s : NrSlowsql) : Prop := AmountsOk s.count s.total s.minTime s.maxTime

def SlowSQLAmountsOk (s : SlowSQL Int32) : Prop :=
  AmountsOk s.count s.totalMicros s.minMicros s.maxMicros

theorem nrSlowsqlAmountsOk_merge {dest src : NrSlowsql} (h : NrSlowsqlAmountsOk dest)
    (h' : NrSlowsqlAmountsOk src) (hfit : SumsFit dest.count src.count dest.total src.total) :
    NrSlowsqlAmountsOk (nrSlowsqlMerge dest src) := by
  have hsum := AmountsOk.merge h h' hfit
  rw [NrSlowsqlAmountsOk, nrSlowsqlMerge]
  by_cases hmax : src.maxTime > dest.maxTime
  · rw [if_pos hmax] at hsum
    rw [if_pos hmax]
    exact hsum
  · rw [if_neg hmax] at hsum
    rw [if_neg hmax]
    exact hsum

theorem slowSQLAmountsOk_merge {slow other : SlowSQL Int32} (h : SlowSQLAmountsOk slow)
    (h' : SlowSQLAmountsOk other)
    (hfit : SumsFit slow.count other.count slow.totalMicros other.totalMicros) :
    SlowSQLAmountsOk (slow.merge other) := by
  have hsum := AmountsOk.merge h h' hfit
  rw [SlowSQLAmountsOk, SlowSQL.merge]
  by_cases hmax : other.maxMicros > slow.maxMicros
  · rw [if_pos hmax] at hsum
    rw [if_pos hmax]
    exact hsum
  · rw [if_neg hmax] at hsum
    rw [if_neg hmax]
    exact hsum

/-! ### From the agent to the daemon -/

/-- What the daemon makes of an entry of a transaction's table. -/
def receivedSlowSQL (txnName txnURL : String) (slow : NrSlowsql) : SlowSQL Int32 where
  id := slow.sqlId
  count := slow.count
  totalMicros := slow.total
  minMicros := slow.minTime
  maxMicros := slow.maxTime
  metricName := slow.metricName
  query := slow.sql
  txnName := txnName
  txnURL := txnURL
  params := slow.paramsJson

/-- The statements of a transaction in the order in which the daemon reads them:
the agent writes its table from the end. -/
def receivedSlowSQLs (txnName txnURL : String) (slowsqls : NrSlowsqls) : List (SlowSQL Int32) :=
  slowsqls.slowsqls.reverse.map (receivedSlowSQL txnName txnURL)

/-- A call that the daemon has heard of, through whatever entry. -/
structure DeliveredCall where
  params : SlowsqlsParams
  txnName : String
  txnURL : String

/-- The tables of the transactions under way and that of the daemon, each with the
calls that were added to it. -/
structure SlowSqlState where
  tables : ℕ → NrSlowsqls
  pending : ℕ → List SlowsqlsParams
  daemon : SlowSQLs Int32
  delivered : List DeliveredCall

inductive SlowSqlEvent
  | add (txn : ℕ) (params : SlowsqlsParams)
  | finish (txn : ℕ) (txnName txnURL : String)

/-- A transaction that ends leaves its place to a new one. -/
def slowSqlStep (table0 : NrSlowsqls) (s : SlowSqlState) : SlowSqlEvent → SlowSqlState
  | .add txn params =>
      { s with
        tables := Function.update s.tables txn (nrSlowsqlsAdd (s.tables txn) params)
        pending := Function.update s.pending txn (s.pending txn ++ [params]) }
  | .finish txn txnName txnURL =>
      { tables := Function.update s.tables txn table0
        pending := Function.update s.pending txn []
        daemon := (receivedSlowSQLs txnName txnURL (s.tables txn)).foldl SlowSQLs.observe s.daemon
        delivered := s.delivered ++ (s.pending txn).map (DeliveredCall.mk · txnName txnURL) }

def slowSqlStart (table0 : NrSlowsqls) (cap : ℕ) : SlowSqlState where
  tables := fun _ => table0
  pending := fun _ => []
  daemon := newSlowSQLs cap
  delivered := []

/-- The entry has the maximum and the texts of one of the calls. -/
def FromCall (calls : List SlowsqlsParams) (e : NrSlowsql) : Prop :=
  ∃ params ∈ calls, params.sqlId = e.sqlId ∧ params.duration = e.maxTime ∧ params.sql = e.sql ∧
    params.metricName = e.metricName ∧ params.paramsJson = e.paramsJson

def FromDeliveredCall (calls : List DeliveredCall) (e : SlowSQL Int32) : Prop :=
  ∃ call ∈ calls, call.params.sqlId = e.id ∧ call.params.duration = e.maxMicros ∧
    call.params.sql = e.query ∧ call.params.metricName = e.metricName ∧
    call.params.paramsJson = e.params ∧ call.txnName = e.txnName ∧ call.txnURL = e.txnURL

/-- The table of a transaction keeps the slowest statements of those added, as many
as its bound. -/
structure TableKeepsSlowest (k : ℕ) (calls : List SlowsqlsParams) (slowsqls : NrSlowsqls) :
    Prop where
  bound : slowsqls.maxSlowsqls = k
  top : TopOf NrSlowsql.sqlId (fun e => e.maxTime.toNat) k
    (entriesOf SlowsqlsParams.sqlId (fun params => params.duration.toNat) calls) slowsqls.slowsqls
  texts : ∀ e ∈ slowsqls.slowsqls, FromCall calls e

structure DaemonKeepsSlowest (k : ℕ) (calls : List DeliveredCall) (slows : SlowSQLs Int32) :
    Prop where
  bound : slows.cap = k
  top : TopOf SlowSQL.id (fun e => e.maxMicros.toNat) k
    (entriesOf (fun call => call.params.sqlId) (fun call => call.params.duration.toNat) calls)
    slows.slowSQLs
  texts : ∀ e ∈ slows.slowSQLs, FromDeliveredCall calls e

structure KeepsSlowest (ka kd : ℕ) (s : SlowSqlState) : Prop where
  tables : ∀ txn, TableKeepsSlowest ka (s.pending txn) (s.tables txn)
  daemon : DaemonKeepsSlowest kd s.delivered s.daemon

theorem entriesOf_append {ε κ ν : Type*} (key : ε → κ) (size : ε → ν) (l l' : List ε) :
    entriesOf key size (l ++ l') = entriesOf key size l ∪ entriesOf key size l' := by
  ext p
  constructor
  · rintro ⟨e, he, rfl⟩
    rcases List.mem_append.mp he with hl | hl'
    · exact Or.inl ⟨e, hl, rfl⟩
    · exact Or.inr ⟨e, hl', rfl⟩
  · rintro (⟨e, he, rfl⟩ | ⟨e, he, rfl⟩)
    · exact ⟨e, List.mem_append_left _ he, rfl⟩
    · exact ⟨e, List.mem_append_right _ he, rfl⟩

theorem entriesOf_singleton {ε κ ν : Type*} (key : ε → κ) (size : ε → ν) (e : ε) :
    entriesOf key size [e] = {(key e, size e)} := by
  ext p
  constructor
  · rintro ⟨e', he', rfl⟩
    rw [List.mem_singleton.mp he']
    rfl
  · rintro rfl
    exact ⟨e, List.mem_singleton_self e, rfl⟩

theorem tableKeepsSlowest_empty {ka : ℤ} {table0 : NrSlowsqls}
    (hcreate : nrSlowsqlsCreate ka = some table0) :
    TableKeepsSlowest ka.toNat [] table0 := by
  rw [nrSlowsqlsCreate] at hcreate
  split_ifs at hcreate
  cases hcreate
  refine ⟨rfl, ?_, fun e he => absurd he List.not_mem_nil⟩
  have hnone : entriesOf SlowsqlsParams.sqlId (fun params => params.duration.toNat) [] = ∅ := by
    ext p
    simp [entriesOf]
  rw [hnone]
  exact TopOf.empty _

theorem FromCall.mono {calls calls' : List SlowsqlsParams} {e : NrSlowsql} (h : FromCall calls e)
    (hsub : calls ⊆ calls') : FromCall calls' e := by
  obtain ⟨params, hmem, heq⟩ := h
  exact ⟨params, hsub hmem, heq⟩

theorem FromCall.merge {calls : List SlowsqlsParams} {e : NrSlowsql} (h : FromCall calls e)
    {params : SlowsqlsParams} (hmem : params ∈ calls) (hid : e.sqlId = params.sqlId) :
    FromCall calls (nrSlowsqlMerge e params.slow) := by
  rw [nrSlowsqlMerge]
  by_cases hmax : params.slow.maxTime > e.maxTime
  · rw [if_pos hmax]
    exact ⟨params, hmem, hid.symm, rfl, rfl, rfl, rfl⟩
  · rw [if_neg hmax]
    exact h

theorem tableKeepsSlowest_add {k : ℕ} (hk : 0 < k) {calls : List SlowsqlsParams}
    {slowsqls : NrSlowsqls} (h : TableKeepsSlowest k calls slowsqls) (params : SlowsqlsParams) :
    TableKeepsSlowest k (calls ++ [params]) (nrSlowsqlsAdd slowsqls params) := by
  have hadds := adds_addInternal (by rw [h.bound]; exact hk)
    (by rw [h.bound]; exact h.top.length_le) params.slow
  rw [h.bound] at hadds
  refine ⟨(maxSlowsqls_addInternal _ _).trans h.bound, ?_, fun e he => ?_⟩
  · have htop := h.top.adds sqlId_nrSlowsqlMerge maxTime_nrSlowsqlMerge hadds
    rw [entriesOf_append, entriesOf_singleton, Set.union_singleton]
    exact htop
  · have hself : params ∈ calls ++ [params] := List.mem_append_right _ (List.mem_singleton_self _)
    have hold : ∀ e' ∈ slowsqls.slowsqls, FromCall (calls ++ [params]) e' := fun e' he' =>
      (h.texts e' he').mono (List.subset_append_left _ _)
    rcases hadds.mem he with hin | rfl | ⟨e', he', hid, rfl⟩
    · exact hold e hin
    · exact ⟨params, hself, rfl, rfl, rfl, rfl, rfl⟩
    · exact (hold e' he').merge hself hid

theorem FromDeliveredCall.mono {calls calls' : List DeliveredCall} {e : SlowSQL Int32}
    (h : FromDeliveredCall calls e) (hsub : calls ⊆ calls') : FromDeliveredCall calls' e := by
  obtain ⟨call, hmem, heq⟩ := h
  exact ⟨call, hsub hmem, heq⟩

theorem FromDeliveredCall.merge {calls : List DeliveredCall} {e slow : SlowSQL Int32}
    (h : FromDeliveredCall calls e) (h' : FromDeliveredCall calls slow) (hid : e.id = slow.id) :
    FromDeliveredCall calls (e.merge slow) := by
  rw [SlowSQL.merge]
  by_cases hmax : slow.maxMicros > e.maxMicros
  · rw [if_pos hmax]
    obtain ⟨call, hmem, hcall, heq⟩ := h'
    exact ⟨call, hmem, hcall.trans hid.symm, heq⟩
  · rw [if_neg hmax]
    exact h

theorem topOf_observe {k : ℕ} {H : Set (UInt32 × ℕ)} {slows : SlowSQLs Int32}
    (hcap : slows.cap = k)
    (h : TopOf SlowSQL.id (fun e => e.maxMicros.toNat) k H slows.slowSQLs)
    (received : List (SlowSQL Int32)) :
    (received.foldl SlowSQLs.observe slows).cap = k ∧
      TopOf SlowSQL.id (fun e => e.maxMicros.toNat) k
        (H ∪ entriesOf SlowSQL.id (fun e => e.maxMicros.toNat) received)
        (received.foldl SlowSQLs.observe slows).slowSQLs := by
  induction received generalizing H slows with
  | nil =>
      refine ⟨hcap, ?_⟩
      have hnone : entriesOf SlowSQL.id (fun e : SlowSQL Int32 => e.maxMicros.toNat) [] = ∅ := by
        ext p
        simp [entriesOf]
      rw [hnone, Set.union_empty]
      exact h
  | cons slow received ih =>
      have hadds := adds_observe (by rw [hcap]; exact h.length_le) slow
      rw [hcap] at hadds
      have hstep := ih ((cap_observe slows slow).trans hcap)
        (h.adds id_merge maxMicros_merge hadds)
      rw [← List.singleton_append, entriesOf_append, entriesOf_singleton, ← Set.union_assoc,
        Set.union_singleton]
      exact hstep

/-- What holds of the entries that are there and of those that are received, and
is kept where two are merged, holds of the entries afterwards. -/
theorem forall_observe {k : ℕ} {P : SlowSQL Int32 → Prop}
    {mergeable : SlowSQLs Int32 → SlowSQL Int32 → Prop} {H : Set (UInt32 × ℕ)}
    {slows : SlowSQLs Int32} {received : List (SlowSQL Int32)}
    (hmerge : ∀ slows slow, mergeable slows slow → P slow → ∀ e ∈ slows.slowSQLs, P e →
      e.id = slow.id → P (e.merge slow))
    (hcap : slows.cap = k) (htop : TopOf SlowSQL.id (fun e => e.maxMicros.toNat) k H slows.slowSQLs)
    (hreceived : ∀ e ∈ received, P e) (halong : Along SlowSQLs.observe mergeable slows received)
    (h : ∀ e ∈ slows.slowSQLs, P e) :
    ∀ e ∈ (received.foldl SlowSQLs.observe slows).slowSQLs, P e := by
  induction received generalizing H slows with
  | nil => exact h
  | cons slow received ih =>
      have hadds := adds_observe (by rw [hcap]; exact htop.length_le) slow
      rw [hcap] at hadds
      have hslow : P slow := hreceived slow List.mem_cons_self
      refine ih ((cap_observe slows slow).trans hcap) (htop.adds id_merge maxMicros_merge hadds)
        (fun e he => hreceived e (List.mem_cons_of_mem _ he)) halong.2 fun e he => ?_
      rcases hadds.mem he with hin | rfl | ⟨e', he', hid, rfl⟩
      · exact h e hin
      · exact hslow
      · exact hmerge slows slow halong.1 hslow e' he' (h e' he') hid

theorem fromDeliveredCall_observe {k : ℕ} {calls : List DeliveredCall} {H : Set (UInt32 × ℕ)}
    {slows : SlowSQLs Int32} (hcap : slows.cap = k)
    (htop : TopOf SlowSQL.id (fun e => e.maxMicros.toNat) k H slows.slowSQLs)
    {received : List (SlowSQL Int32)} (hreceived : ∀ e ∈ received, FromDeliveredCall calls e)
    (h : ∀ e ∈ slows.slowSQLs, FromDeliveredCall calls e) :
    ∀ e ∈ (received.foldl SlowSQLs.observe slows).slowSQLs, FromDeliveredCall calls e :=
  forall_observe (fun _ _ _ hslow _ _ he hid => he.merge hslow hid) hcap htop hreceived
    (along_true slows received) h

theorem entriesOf_received (txnName txnURL : String) (slowsqls : NrSlowsqls) :
    entriesOf SlowSQL.id (fun e => e.maxMicros.toNat) (receivedSlowSQLs txnName txnURL slowsqls) =
      entriesOf NrSlowsql.sqlId (fun e => e.maxTime.toNat) slowsqls.slowsqls := by
  ext p
  constructor
  · rintro ⟨e, he, rfl⟩
    obtain ⟨s, hs, rfl⟩ := List.mem_map.mp he
    exact ⟨s, List.mem_reverse.mp hs, rfl⟩
  · rintro ⟨s, hs, rfl⟩
    exact ⟨receivedSlowSQL txnName txnURL s, List.mem_map_of_mem (List.mem_reverse.mpr hs), rfl⟩

theorem entriesOf_map_delivered (txnName txnURL : String) (calls : List SlowsqlsParams) :
    entriesOf (fun call => call.params.sqlId) (fun call => call.params.duration.toNat)
        (calls.map (DeliveredCall.mk · txnName txnURL)) =
      entriesOf SlowsqlsParams.sqlId (fun params => params.duration.toNat) calls := by
  ext p
  simp [entriesOf]

theorem daemonKeepsSlowest_finish {ka kd : ℕ} (hk : kd ≤ ka) {calls : List SlowsqlsParams}
    {slowsqls : NrSlowsqls} {delivered : List DeliveredCall} {slows : SlowSQLs Int32}
    (htable : TableKeepsSlowest ka calls slowsqls) (h : DaemonKeepsSlowest kd delivered slows)
    (txnName txnURL : String) :
    DaemonKeepsSlowest kd (delivered ++ calls.map (DeliveredCall.mk · txnName txnURL))
      ((receivedSlowSQLs txnName txnURL slowsqls).foldl SlowSQLs.observe slows) := by
  obtain ⟨hcap, htop⟩ := topOf_observe h.bound h.top (receivedSlowSQLs txnName txnURL slowsqls)
  refine ⟨hcap, ?_, ?_⟩
  · rw [entriesOf_received] at htop
    rw [entriesOf_append, entriesOf_map_delivered]
    exact htable.top.compose hk htop
  · refine fromDeliveredCall_observe h.bound h.top (fun e he => ?_) fun e he =>
      (h.texts e he).mono (List.subset_append_left _ _)
    obtain ⟨s, hs, rfl⟩ := List.mem_map.mp he
    obtain ⟨params, hmem, hid, hmax, hsql, hmetric, hparams⟩ :=
      htable.texts s (List.mem_reverse.mp hs)
    exact ⟨⟨params, txnName, txnURL⟩, List.mem_append_right _ (List.mem_map_of_mem hmem), hid, hmax,
      hsql, hmetric, hparams, rfl, rfl⟩

theorem keepsSlowest_step {ka : ℤ} {kd : ℕ} {table0 : NrSlowsqls}
    (hcreate : nrSlowsqlsCreate ka = some table0) (hk : kd ≤ ka.toNat) {s : SlowSqlState}
    (h : KeepsSlowest ka.toNat kd s) (event : SlowSqlEvent) :
    KeepsSlowest ka.toNat kd (slowSqlStep table0 s event) := by
  have hpos : 0 < ka.toNat := by
    rw [nrSlowsqlsCreate] at hcreate
    split_ifs at hcreate
    omega
  cases event with
  | add txn params =>
      refine ⟨fun txn' => ?_, h.daemon⟩
      by_cases heq : txn' = txn
      · subst heq
        simp only [slowSqlStep, Function.update_self]
        exact tableKeepsSlowest_add hpos (h.tables txn') params
      · simp only [slowSqlStep, Function.update_of_ne heq]
        exact h.tables txn'
  | finish txn txnName txnURL =>
      refine ⟨fun txn' => ?_, daemonKeepsSlowest_finish hk (h.tables txn) h.daemon _ _⟩
      by_cases heq : txn' = txn
      · subst heq
        simp only [slowSqlStep, Function.update_self]
        exact tableKeepsSlowest_empty hcreate
      · simp only [slowSqlStep, Function.update_of_ne heq]
        exact h.tables txn'

/-! ### Runs -/

/-- No sum of the event leaves its word. -/
def SumsFitInEvent (s : SlowSqlState) : SlowSqlEvent → Prop
  | .add txn params => ∀ e ∈ (s.tables txn).slowsqls, e.sqlId = params.sqlId →
      SumsFit e.count 1 e.total params.duration
  | .finish txn txnName txnURL =>
      Along SlowSQLs.observe
        (fun slows slow => ∀ e ∈ slows.slowSQLs, e.id = slow.id →
          SumsFit e.count slow.count e.totalMicros slow.totalMicros)
        s.daemon (receivedSlowSQLs txnName txnURL (s.tables txn))

/-- In every entry on either level the count times the least and greatest times
are bounds of the total. -/
structure AmountsBounded (s : SlowSqlState) : Prop where
  tables : ∀ txn, ∀ e ∈ (s.tables txn).slowsqls, NrSlowsqlAmountsOk e
  daemon : ∀ e ∈ s.daemon.slowSQLs, SlowSQLAmountsOk e

theorem slowSQLAmountsOk_observe {k : ℕ} {H : Set (UInt32 × ℕ)} {slows : SlowSQLs Int32}
    (hcap : slows.cap = k)
    (htop : TopOf SlowSQL.id (fun e => e.maxMicros.toNat) k H slows.slowSQLs)
    {received : List (SlowSQL Int32)} (hreceived : ∀ e ∈ received, SlowSQLAmountsOk e)
    (hfit : Along SlowSQLs.observe
      (fun slows slow => ∀ e ∈ slows.slowSQLs, e.id = slow.id →
        SumsFit e.count slow.count e.totalMicros slow.totalMicros) slows received)
    (h : ∀ e ∈ slows.slowSQLs, SlowSQLAmountsOk e) :
    ∀ e ∈ (received.foldl SlowSQLs.observe slows).slowSQLs, SlowSQLAmountsOk e :=
  forall_observe (fun _ _ hfits hslow e hmem he hid => slowSQLAmountsOk_merge he hslow
    (hfits e hmem hid)) hcap htop hreceived hfit h

theorem amountsBounded_step {ka : ℤ} {kd : ℕ} {table0 : NrSlowsqls}
    (hcreate : nrSlowsqlsCreate ka = some table0) {s : SlowSqlState}
    (hkeeps : KeepsSlowest ka.toNat kd s) (h : AmountsBounded s) {event : SlowSqlEvent}
    (hfit : SumsFitInEvent s event) : AmountsBounded (slowSqlStep table0 s event) := by
  have hpos : 0 < ka.toNat ∧ table0.slowsqls = [] := by
    rw [nrSlowsqlsCreate] at hcreate
    split_ifs at hcreate
    cases hcreate
    exact ⟨by omega, rfl⟩
  cases event with
  | add txn params =>
      refine ⟨fun txn' e he => ?_, h.daemon⟩
      by_cases heq : txn' = txn
      · subst heq
        simp only [slowSqlStep, Function.update_self] at he
        have htable := hkeeps.tables txn'
        have hadds := adds_addInternal (by rw [htable.bound]; exact hpos.1)
          (by rw [htable.bound]; exact htable.top.length_le) params.slow
        rcases hadds.mem he with hin | rfl | ⟨e', he', hid, rfl⟩
        · exact h.tables txn' e hin
        · exact amountsOk_one params.duration
        · exact nrSlowsqlAmountsOk_merge (h.tables txn' e' he') (amountsOk_one params.duration)
            (hfit e' he' hid)
      · simp only [slowSqlStep, Function.update_of_ne heq] at he
        exact h.tables txn' e he
  | finish txn txnName txnURL =>
      refine ⟨fun txn' e he => ?_, ?_⟩
      · by_cases heq : txn' = txn
        · subst heq
          simp only [slowSqlStep, Function.update_self, hpos.2] at he
          exact absurd he List.not_mem_nil
        · simp only [slowSqlStep, Function.update_of_ne heq] at he
          exact h.tables txn' e he
      · refine slowSQLAmountsOk_observe hkeeps.daemon.bound hkeeps.daemon.top (fun e he => ?_) hfit
          h.daemon
        obtain ⟨s', hs', rfl⟩ := List.mem_map.mp he
        exact h.tables txn s' (List.mem_reverse.mp hs')

theorem keepsSlowest_start {ka : ℤ} {table0 : NrSlowsqls}
    (hcreate : nrSlowsqlsCreate ka = some table0) (kd : ℕ) :
    KeepsSlowest ka.toNat kd (slowSqlStart table0 kd) := by
  refine ⟨fun _ => tableKeepsSlowest_empty hcreate, rfl, ?_, fun e he => absurd he List.not_mem_nil⟩
  have hnone : entriesOf (fun call : DeliveredCall => call.params.sqlId)
      (fun call => call.params.duration.toNat) [] = ∅ := by
    ext p
    simp [entriesOf]
  show TopOf _ _ kd (entriesOf _ _ []) []
  rw [hnone]
  exact TopOf.empty _

/-- In every run both levels keep the slowest statements of all calls, with the
maximum and the texts of a slowest one; the totals are between their bounds as
long as no sum leaves its word. -/
theorem slowSqls_keep_slowest {ka : ℤ} {kd : ℕ} {table0 : NrSlowsqls}
    (hcreate : nrSlowsqlsCreate ka = some table0) (hk : kd ≤ ka) (events : List SlowSqlEvent) :
    Throughout (slowSqlStep table0) (KeepsSlowest ka.toNat kd) (slowSqlStart table0 kd) events ∧
      (Along (slowSqlStep table0) SumsFitInEvent (slowSqlStart table0 kd) events →
        Throughout (slowSqlStep table0) AmountsBounded (slowSqlStart table0 kd) events) := by
  have hk' : kd ≤ ka.toNat := by omega
  have hstart := keepsSlowest_start hcreate kd
  refine ⟨throughout_of_along (fun s i hs _ => keepsSlowest_step hcreate hk' hs i) hstart
    (along_true _ events), fun hfit => ?_⟩
  have hempty : AmountsBounded (slowSqlStart table0 kd) := by
    refine ⟨fun txn e he => ?_, fun e he => absurd he List.not_mem_nil⟩
    rw [nrSlowsqlsCreate] at hcreate
    split_ifs at hcreate
    cases hcreate
    exact absurd he List.not_mem_nil
  have hboth : Throughout (slowSqlStep table0)
      (fun s => KeepsSlowest ka.toNat kd s ∧ AmountsBounded s) (slowSqlStart table0 kd) events :=
    throughout_of_along (fun s i hs hfit' => ⟨keepsSlowest_step hcreate hk' hs.1 i,
      amountsBounded_step hcreate hs.1 hs.2 hfit'⟩) ⟨hstart, hempty⟩ hfit
  exact hboth.imp fun s hs => hs.2

instance (count count' : Int32) (total total' : UInt64) :
    Decidable (SumsFit count count' total total') :=
  inferInstanceAs (Decidable (_ ∧ _))

instance (s : SlowSqlState) : (event : SlowSqlEvent) → Decidable (SumsFitInEvent s event)
  | .add _ _ => inferInstanceAs (Decidable (∀ e ∈ _, _))
  | .finish _ _ _ => inferInstanceAs (Decidable (Along _ _ _ _))

/-- A call of a statement that lasts the given time. -/
def callOf (sqlId : UInt32) (duration : UInt64) : SlowsqlsParams where
  sqlId := sqlId
  sql := "SELECT * FROM t"
  duration := duration
  metricName := "Datastore/statement/MySQL/t/select"
  paramsJson := "\x7b\x7d"

/-- Three statements for two places, one of them again after it was forgotten. -/
def threeStatements : List SlowSqlEvent :=
  [.add 0 (callOf 1 5), .add 0 (callOf 2 7), .add 0 (callOf 3 6), .add 0 (callOf 1 9),
    .finish 0 "WebTransaction/a" "/a"]

theorem slowSqls_keep_slowest_three :
    Throughout (slowSqlStep { slowsqls := [], maxSlowsqls := 2 }) (KeepsSlowest 2 1)
        (slowSqlStart { slowsqls := [], maxSlowsqls := 2 } 1) threeStatements ∧
      Throughout (slowSqlStep { slowsqls := [], maxSlowsqls := 2 }) AmountsBounded
        (slowSqlStart { slowsqls := [], maxSlowsqls := 2 } 1) threeStatements := by
  have hrun := @slowSqls_keep_slowest 2 1 _ rfl (by decide) threeStatements
  exact ⟨hrun.1, hrun.2 (by decide)⟩

/-- Two calls of one statement whose times do not fit into one word. -/
theorem slowSqls_total_wraps :
    nrSlowsqlsCreate 10 = some { slowsqls := [], maxSlowsqls := 10 } ∧
      ¬ Throughout (slowSqlStep { slowsqls := [], maxSlowsqls := 10 }) AmountsBounded
        (slowSqlStart { slowsqls := [], maxSlowsqls := 10 } 10)
        [.add 0 (callOf 1 0x8000000000000000), .add 0 (callOf 1 0x8000000000000000)] := by
  refine ⟨rfl, fun h => ?_⟩
  have hlower := (h.last.tables 0 _ List.mem_cons_self).lower
  revert hlower
  decide

end AxiomDaemon.Daemon

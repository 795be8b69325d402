import AxiomDaemon.Lib.CMemory

/-!
The metric table of a transaction, `util_metrics.c`. The metrics are found
through a binary tree that is ordered by the hashes of their names, greater
hashes to the left; metrics whose hashes are equal lie in a chain to the
right. The links between the elements of the array are a tree here. A table
that is full takes metrics that are forced, and drops others.
-/

namespace AxiomDaemon.Axiom

open AxiomDaemon.Lib AxiomDaemon.Lib.CText

/-! ### Hashes of names -/

def rotateLeft (k r : UInt32) : UInt32 := (k <<< r) ||| (k >>> (32 - r))

def scramble (k : UInt32) : UInt32 := rotateLeft (k * 0xcc9e2d51) 15 * 0x1b873593

/-- The blocks of four bytes, the least significant one first. -/
def hashBlocks : UInt32 → Bytes → UInt32 × Bytes
  | hash, a :: b :: c :: d :: str =>
      let k := a.toUInt32 ||| (b.toUInt32 <<< 8) ||| (c.toUInt32 <<< 16) ||| (d.toUInt32 <<< 24)
      hashBlocks (rotateLeft (hash ^^^ scramble k) 13 * 5 + 0xe6546b64) str
  | hash, str => (hash, str)

/-- The bytes that are left over. -/
def hashTail (hash : UInt32) : Bytes → UInt32
  | [a] => hash ^^^ scramble a.toUInt32
  | [a, b] => hash ^^^ scramble ((b.toUInt32 <<< 8) ^^^ a.toUInt32)
  | [a, b, c] => hash ^^^ scramble ((c.toUInt32 <<< 16) ^^^ (b.toUInt32 <<< 8) ^^^ a.toUInt32)
  | _ => hash

/-- The hash of the bytes that are taken. -/
def mkhashOf (str : Bytes) (strLen : UInt32) : UInt32 :=
  let (hash, tail) := hashBlocks 0x290848ab str
  let hash := hashTail hash tail ^^^ strLen
  let hash := (hash ^^^ (hash >>> 16)) * 0x85ebca6b
  let hash := (hash ^^^ (hash >>> 13)) * 0xc2b2ae35
  hash ^^^ (hash >>> 16)

/-- `nr_mkhash`. -/
def nrMkhash (str : Bytes) : UInt32 :=
  if str = [] then 0 else mkhashOf str (UInt32.ofNat str.length)

/-- The length that `nr_mkhash` takes: the one that it is given, or that of the string. -/
def mkhashLength (str : Bytes) (len : ℤ) : Checked ℤ :=
  if len = 0 then CMemory.nrStrlenAt str else .ok len

/-- `nr_mkhash` with the length that it is given and leaves, which are `int`s. -/
def nrMkhashLen (str : Bytes) (len : ℤ) : Checked (UInt32 × ℤ) := do
  if (← load str) = 0 then .ok (0, 0)
  else do
    let strLen ← mkhashLength str len
    -- below 0 there are no blocks, and the bytes that are left over are in front of the string
    if strLen < 0 then
      if strLen % 4 = 0 then .ok (mkhashOf [] (UInt32.ofInt strLen), strLen) else .error .read
    else if str.length < strLen then .error .read
    else .ok (mkhashOf (str.take strLen.toNat) (UInt32.ofInt strLen), strLen)

theorem nrMkhashLen_of_nonneg {b : UInt8} {bs : Bytes} {len : ℤ} {n : ℕ} (hb : b ≠ 0)
    (hlen : mkhashLength (b :: bs) len = .ok (n : ℤ)) (hn : n ≤ bs.length + 1)
    (hlt : n < 2 ^ 31) :
    nrMkhashLen (b :: bs) len = .ok (mkhashOf ((b :: bs).take n) (UInt32.ofNat n), n) := by
  have hof : UInt32.ofInt n = UInt32.ofNat n := by
    rw [UInt32.ofInt, Int.emod_eq_of_lt (by omega) (by omega), Int.toNat_natCast]
  have hle : ¬ ((b :: bs).length : ℤ) < n := by
    rw [List.length_cons]
    omega
  rw [nrMkhashLen, load_cons, ok_bind, if_neg hb, hlen, ok_bind, if_neg (by omega), if_neg hle,
    Int.toNat_natCast, hof]

theorem nrMkhashLen_of_neg {b : UInt8} {bs : Bytes} {len strLen : ℤ} (hb : b ≠ 0)
    (hlen : mkhashLength (b :: bs) len = .ok strLen) (hneg : strLen < 0) :
    nrMkhashLen (b :: bs) len =
      if strLen % 4 = 0 then .ok (mkhashOf [] (UInt32.ofInt strLen), strLen)
      else .error .read := by
  rw [nrMkhashLen, load_cons, ok_bind, if_neg hb, hlen, ok_bind, if_pos hneg]

theorem nrMkhashLen_string {str : Bytes} (hzero : 0 ∉ str) (hlen : str.length < 2 ^ 31) :
    nrMkhashLen (terminated str) 0 = .ok (nrMkhash str, str.length) := by
  cases str with
  | nil => rfl
  | cons b bs =>
      have hb : b ≠ 0 := fun h => hzero (List.mem_cons.mpr (.inl h.symm))
      have hlength : mkhashLength (terminated (b :: bs)) 0 = .ok ((b :: bs).length : ℤ) := by
        rw [mkhashLength, if_pos rfl, CMemory.nrStrlenAt_terminated hzero,
          CMemory.nrStrlen_of_lt hlen]
      rw [terminated_cons] at hlength ⊢
      rw [nrMkhashLen_of_nonneg hb hlength (by simp [terminated]) hlen, nrMkhash, if_neg nofun,
        ← terminated_cons, terminated, List.take_left]

/-! ### Tables -/

/-- `nrmetric_t`. The data of an apdex metric are in the first three places. -/
structure NrMetric where
  name : Bytes
  hash : UInt32
  forced : Bool
  isApdex : Bool
  count : UInt64
  total : UInt64
  exclusive : UInt64
  min : UInt64
  max : UInt64
  sumSquares : UInt64
  deriving DecidableEq

/-- What `nrm_create` fills in. -/
def NrMetric.fresh (name : Bytes) : NrMetric :=
  { name, hash := nrMkhash name, forced := false, isApdex := false, count := 0, total := 0,
    exclusive := 0, min := 0xffffffffffffffff, max := 0, sumSquares := 0 }

inductive MetricTree
  | leaf
  | node (metric : NrMetric) (left right : MetricTree)
  deriving DecidableEq

structure NrmTable where
  number : ℕ
  maxSize : ℕ
  metrics : MetricTree
  deriving DecidableEq

/-- `nrm_table_create`, for a positive limit. -/
def nrmTableCreate (maxSize : ℕ) : NrmTable := { number := 0, maxSize, metrics := .leaf }

/-- `nrm_find_internal`. -/
def MetricTree.find (name : Bytes) (hash : UInt32) : MetricTree → Option NrMetric
  | .leaf => none
  | .node metric left right =>
      if hash = metric.hash ∧ name = metric.name then some metric
      else if metric.hash < hash then left.find name hash
      else right.find name hash

/-- `nrm_find`. -/
def nrmFind (table : NrmTable) (name : Bytes) : Option NrMetric :=
  table.metrics.find name (nrMkhash name)

/-- The tree after the metric of the name was changed; it is created before if
there is none. -/
def MetricTree.alter (name : Bytes) (hash : UInt32) (f : NrMetric → NrMetric) :
    MetricTree → MetricTree
  | .leaf => .node (f (.fresh name)) .leaf .leaf
  | .node metric left right =>
      if hash = metric.hash ∧ name = metric.name then .node (f metric) left right
      else if metric.hash < hash then .node metric (left.alter name hash f) right
      else .node metric left (right.alter name hash f)

/-- `nrm_find_or_create` and what its caller does with the metric, for a metric
that is forced. -/
def nrmForceAlter (table : NrmTable) (name : Bytes) (f : NrMetric → NrMetric) : NrmTable :=
  { table with
    number := if (nrmFind table name).isSome then table.number else table.number + 1
    metrics := table.metrics.alter name (nrMkhash name) fun metric =>
      f { metric with forced := true } }

/-- What `nrm_add_internal` adds to a metric. -/
def NrMetric.addData (count total exclusive min max sumSquares : UInt64) (metric : NrMetric) :
    NrMetric :=
  { metric with
    count := metric.count + count
    total := metric.total + total
    exclusive := metric.exclusive + exclusive
    min := if min < metric.min then min else metric.min
    max := if metric.max < max then max else metric.max
    sumSquares := metric.sumSquares + sumSquares }

/-- `nrm_force_add`. -/
def nrmForceAdd (table : NrmTable) (name : Bytes) (duration : UInt64) : NrmTable :=
  nrmForceAlter table name
    (NrMetric.addData 1 duration duration duration duration (duration * duration))

/-- The arguments of `nrm_add_internal`, for a metric that is forced. -/
structure MetricAdd where
  name : Bytes
  count : UInt64
  total : UInt64
  exclusive : UInt64
  min : UInt64
  max : UInt64
  sumSquares : UInt64
  deriving DecidableEq

/-- What `nrm_force_add_ex` hands on. -/
def forceAddEx (name : Bytes) (duration exclusive : UInt64) : MetricAdd :=
  { name, count := 1, total := duration, exclusive, min := duration, max := duration,
    sumSquares := duration * duration }

/-- `nrm_add_internal`. -/
def NrmTable.add (table : NrmTable) (added : MetricAdd) : NrmTable :=
  nrmForceAlter table added.name
    (NrMetric.addData added.count added.total added.exclusive added.min added.max added.sumSquares)

/-! ### Finding what was added -/

/-- A change of the data leaves a metric where it is found. -/
def KeepsName (f : NrMetric → NrMetric) : Prop :=
  ∀ metric, (f metric).name = metric.name ∧ (f metric).hash = metric.hash

theorem MetricTree.find_alter_self {f : NrMetric → NrMetric} (hf : KeepsName f) (name : Bytes)
    (tree : MetricTree) :
    ((tree.alter name (nrMkhash name) f).find name (nrMkhash name)).isSome := by
  induction tree with
  | leaf =>
      rw [alter, find, if_pos ⟨(hf (.fresh name)).2.symm, (hf (.fresh name)).1.symm⟩]
      rfl
  | node metric left right ihl ihr =>
      rw [alter]
      split_ifs with hmatch hless
      · rw [find, if_pos ⟨hmatch.1.trans (hf metric).2.symm, hmatch.2.trans (hf metric).1.symm⟩]
        rfl
      · rw [find, if_neg hmatch, if_pos hless]
        exact ihl
      · rw [find, if_neg hmatch, if_neg hless]
        exact ihr

theorem MetricTree.find_alter_isSome {f : NrMetric → NrMetric} (hf : KeepsName f)
    {name name' : Bytes} {hash hash' : UInt32} {tree : MetricTree}
    (h : (tree.find name hash).isSome) : ((tree.alter name' hash' f).find name hash).isSome := by
  induction tree with
  | leaf => exact absurd h (by simp [find])
  | node metric left right ihl ihr =>
      rw [find] at h
      rw [alter]
      obtain ⟨hname, hhash⟩ := hf metric
      split_ifs with hmatch' hless'
      · rw [find, hname, hhash]
        split_ifs at h ⊢
        · rfl
        · exact h
        · exact h
      · rw [find]
        split_ifs at h ⊢
        · rfl
        · exact ihl h
        · exact h
      · rw [find]
        split_ifs at h ⊢
        · rfl
        · exact h
        · exact ihr h

theorem nrmForceAdd_keepsName (duration : UInt64) :
    KeepsName fun metric => NrMetric.addData 1 duration duration duration duration
      (duration * duration) { metric with forced := true } :=
  fun _ => ⟨rfl, rfl⟩

theorem nrmFind_nrmForceAdd_self (table : NrmTable) (name : Bytes) (duration : UInt64) :
    (nrmFind (nrmForceAdd table name duration) name).isSome :=
  MetricTree.find_alter_self (nrmForceAdd_keepsName duration) name table.metrics

theorem nrmFind_nrmForceAdd {table : NrmTable} {name : Bytes} (h : (nrmFind table name).isSome)
    (name' : Bytes) (duration : UInt64) :
    (nrmFind (nrmForceAdd table name' duration) name).isSome :=
  MetricTree.find_alter_isSome (nrmForceAdd_keepsName duration) h

end AxiomDaemon.Axiom

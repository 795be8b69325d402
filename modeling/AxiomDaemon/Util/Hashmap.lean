import AxiomDaemon.Axiom.Metrics
import AxiomDaemon.Lib.LinkedList
import AxiomDaemon.Lib.Transition
import Mathlib.Data.Finmap
import Mathlib.Data.List.GetD

/-!
The hash map of `util_hashmap.c`.

The elements whose keys have the same hash are in a doubly linked list, and the
array `buckets` has the heads of the lists. An element is a cell in a memory of
cells, a pointer to it is its address; `nr_malloc` gives addresses that were not
used before. Counts are taken to be numbers without bound. A map that is `NULL` is
left out.
-/

namespace AxiomDaemon.Util

open AxiomDaemon.Lib AxiomDaemon.Lib.CText AxiomDaemon.Axiom

/-- `nr_hashmap_bucket_t`, without its links. A value is a pointer, `none` is `NULL`. -/
structure NrHashmapBucket (V : Type) where
  key : Bytes
  value : Option V

/-- `nr_hashmap_t`. The destructor is not `NULL` if `dtorFunc` is set; `destroyed`
has the values it was called with, in order. -/
structure NrHashmap (V : Type) where
  dtorFunc : Bool
  log2NumBuckets : ℕ
  buckets : List (Option ℕ)
  elements : ℕ
  memory : LinkedList.Memory (NrHashmapBucket V)
  used : ℕ
  destroyed : List (Option V)

variable {V : Type}

/-- `nr_hashmap_create_internal`. -/
def nrHashmapCreateInternal (V : Type) (log2NumBuckets : ℕ) (dtorFunc : Bool) : NrHashmap V :=
  let log2NumBuckets :=
    if log2NumBuckets = 0 then 8 else if 24 < log2NumBuckets then 24 else log2NumBuckets
  { dtorFunc
    log2NumBuckets
    buckets := List.replicate (1 <<< log2NumBuckets) none
    elements := 0
    memory := fun _ => none
    used := 0
    destroyed := [] }

/-- `nr_hashmap_count_buckets`. -/
def nrHashmapCountBuckets (hashmap : NrHashmap V) : ℕ := 1 <<< hashmap.log2NumBuckets

/-- The place of a hash in the buckets. -/
def truncated (log2NumBuckets : ℕ) (hash : UInt32) : ℕ := hash.toNat &&& (1 <<< log2NumBuckets - 1)

/-- `nr_hashmap_hash_key`, which stores the length as an `int`. -/
def nrHashmapHashKey (log2NumBuckets : ℕ) (key : Bytes) : Checked ℕ :=
  (fun hashed => truncated log2NumBuckets hashed.1) <$> nrMkhashLen key (CMemory.sizeToInt key.length)

/-- The hash of a key whose length is an `int`: one that begins with a zero is taken to be
empty. -/
def hashKey (log2NumBuckets : ℕ) (key : Bytes) : ℕ :=
  truncated log2NumBuckets (if key.head? = some 0 then 0 else nrMkhash key)

theorem nrHashmapHashKey_eq (log2NumBuckets : ℕ) {key : Bytes} (hne : key ≠ [])
    (hlen : key.length < 2 ^ 31) :
    nrHashmapHashKey log2NumBuckets key = .ok (hashKey log2NumBuckets key) := by
  obtain ⟨b, bs, rfl⟩ := List.exists_cons_of_ne_nil hne
  rw [nrHashmapHashKey, hashKey, CMemory.sizeToInt_of_lt hlen, List.head?_cons]
  by_cases hb : b = 0
  · rw [if_pos (congrArg some hb), nrMkhashLen, load_cons, ok_bind, if_pos hb, map_ok]
  · have hlength : mkhashLength (b :: bs) ((b :: bs).length : ℕ) = .ok ((b :: bs).length : ℤ) :=
      if_neg (by simp only [List.length_cons]; omega)
    rw [if_neg fun h => hb (Option.some.inj h), nrMkhashLen_of_nonneg hb hlength le_rfl hlen,
      List.take_length, map_ok, nrMkhash, if_neg (List.cons_ne_nil b bs)]

namespace NrHashmap

def head (hashmap : NrHashmap V) (hash : ℕ) : Option ℕ := hashmap.buckets.getD hash none

/-- The value destructor, if there is one. -/
def destroyValue (hashmap : NrHashmap V) (value : Option V) : NrHashmap V :=
  { hashmap with
    destroyed :=
      if hashmap.dtorFunc then hashmap.destroyed ++ [value] else hashmap.destroyed }

/-- The value of the element at an address. -/
def valueAt (hashmap : NrHashmap V) (bucket : ℕ) : Option V :=
  (hashmap.memory bucket).bind fun cell => cell.value.value

end NrHashmap

/-- `nr_hashmap_fetch`. -/
def nrHashmapFetch (hashmap : NrHashmap V) (hash : ℕ) (key : Bytes) : Option ℕ :=
  LinkedList.findCell hashmap.memory
    (fun bucket => key.length == bucket.key.length && key == bucket.key) hashmap.used
    (hashmap.head hash)

/-- `nr_hashmap_add_internal`. -/
def nrHashmapAddInternal (hashmap : NrHashmap V) (hash : ℕ) (key : Bytes) (value : Option V) :
    NrHashmap V :=
  { hashmap with
    memory := LinkedList.pushFront hashmap.memory hashmap.used { key, value } (hashmap.head hash)
    buckets := hashmap.buckets.set hash (some hashmap.used)
    elements := hashmap.elements + 1
    used := hashmap.used + 1 }

/-- `nr_hashmap_set`, with whether it succeeds. -/
def nrHashmapSet (hashmap : NrHashmap V) (key : Bytes) (value : Option V) :
    Checked (NrHashmap V × Bool) :=
  if key = [] then .ok (hashmap, false)
  else do
    let hash ← nrHashmapHashKey hashmap.log2NumBuckets key
    match nrHashmapFetch hashmap hash key with
    | some _ => .ok (hashmap, false)
    | none => .ok (nrHashmapAddInternal hashmap hash key value, true)

/-- `nr_hashmap_update`. -/
def nrHashmapUpdate (hashmap : NrHashmap V) (key : Bytes) (value : Option V) :
    Checked (NrHashmap V) :=
  if key = [] then .ok hashmap
  else do
    let hash ← nrHashmapHashKey hashmap.log2NumBuckets key
    match nrHashmapFetch hashmap hash key with
    | some bucket =>
        .ok { hashmap.destroyValue (hashmap.valueAt bucket) with
          memory := LinkedList.modifyValue hashmap.memory bucket ({ · with value }) }
    | none => .ok (nrHashmapAddInternal hashmap hash key value)

/-- `nr_hashmap_get`. -/
def nrHashmapGet (hashmap : NrHashmap V) (key : Bytes) : Checked (Option V) :=
  if key = [] then .ok none
  else do
    let hash ← nrHashmapHashKey hashmap.log2NumBuckets key
    .ok ((nrHashmapFetch hashmap hash key).bind hashmap.valueAt)

/-- `nr_hashmap_has`. -/
def nrHashmapHas (hashmap : NrHashmap V) (key : Bytes) : Checked Bool :=
  if key = [] then .ok false
  else do
    let hash ← nrHashmapHashKey hashmap.log2NumBuckets key
    .ok (nrHashmapFetch hashmap hash key).isSome

/-- `nr_hashmap_delete`, with whether it succeeds. -/
def nrHashmapDelete (hashmap : NrHashmap V) (key : Bytes) : Checked (NrHashmap V × Bool) :=
  if key = [] then .ok (hashmap, false)
  else do
    let hash ← nrHashmapHashKey hashmap.log2NumBuckets key
    match nrHashmapFetch hashmap hash key with
    | some bucket =>
        let next := (hashmap.memory bucket).bind LinkedList.Cell.next
        .ok ({ hashmap.destroyValue (hashmap.valueAt bucket) with
               memory := LinkedList.unlink hashmap.memory bucket
               buckets :=
                 if hashmap.head hash = some bucket then hashmap.buckets.set hash next
                 else hashmap.buckets
               elements := hashmap.elements - 1 }, true)
    | none => .ok (hashmap, false)

/-- `nr_hashmap_count`. -/
def nrHashmapCount (hashmap : NrHashmap V) : ℕ := hashmap.elements

/-- What `nr_hashmap_apply` calls its function with, in order. -/
def nrHashmapApply (hashmap : NrHashmap V) : List (Bytes × Option V) :=
  (List.range (nrHashmapCountBuckets hashmap)).flatMap fun i =>
    (LinkedList.values hashmap.memory hashmap.used (hashmap.head i)).map fun bucket =>
      (bucket.key, bucket.value)

/-! ### What a map holds -/

/-- A finite map from the contents of the keys, and the values that were destroyed. -/
structure FiniteMap (V : Type) where
  values : Finmap fun _ : Bytes => Option V
  destroyed : List (Option V)

/-- The map holds `m`: its lists are those of `chain`. -/
structure NrHashmap.Holds (hashmap : NrHashmap V) (chain : ℕ → List (ℕ × NrHashmapBucket V))
    (m : FiniteMap V) : Prop where
  buckets : hashmap.buckets.length = 1 <<< hashmap.log2NumBuckets
  table : LinkedList.Table hashmap.memory hashmap.head chain hashmap.used
  hashed : ∀ i, ∀ e ∈ chain i, hashKey hashmap.log2NumBuckets e.2.key = i
  keys : ∀ i, ((chain i).map fun e => e.2.key).Nodup
  lookup : ∀ key value, m.values.lookup key = some value ↔
    ∃ a, (a, { key, value }) ∈ chain (hashKey hashmap.log2NumBuckets key)
  elements : hashmap.elements = m.values.keys.card
  destroyed : hashmap.destroyed = m.destroyed

/-- The lists are well linked, disjoint and sorted by hash, and together they hold `m`. -/
def NrHashmap.Represents (hashmap : NrHashmap V) (m : FiniteMap V) : Prop :=
  ∃ chain, hashmap.Holds chain m

theorem hashKey_lt (log2NumBuckets : ℕ) (key : Bytes) :
    hashKey log2NumBuckets key < 1 <<< log2NumBuckets := by
  rw [hashKey, truncated, Nat.one_shiftLeft, Nat.and_two_pow_sub_one_eq_mod]
  exact Nat.mod_lt _ (Nat.two_pow_pos _)

theorem NrHashmap.head_set (hashmap : NrHashmap V) {i : ℕ} (hi : i < hashmap.buckets.length)
    (p : Option ℕ) :
    (fun j => (hashmap.buckets.set i p).getD j none) = Function.update hashmap.head i p := by
  funext j
  rcases eq_or_ne j i with rfl | hj
  · rw [Function.update_self, List.getD_eq_getElem?_getD, List.getElem?_set_self hi]
    rfl
  · rw [Function.update_of_ne hj, List.getD_eq_getElem?_getD, List.getElem?_set_ne hj.symm,
      NrHashmap.head, List.getD_eq_getElem?_getD]

theorem keys_insert (values : Finmap fun _ : Bytes => Option V) (key : Bytes) (value : Option V) :
    (values.insert key value).keys = insert key values.keys := by
  ext key'
  rw [Finmap.mem_keys, Finmap.mem_insert, Finset.mem_insert, Finmap.mem_keys]

section Holding

variable {hashmap : NrHashmap V} {chain : ℕ → List (ℕ × NrHashmapBucket V)} {m : FiniteMap V}
  {key : Bytes} {value : Option V}

namespace NrHashmap.Holds

theorem address_inj (h : hashmap.Holds chain m) {i : ℕ} {e e' : ℕ × NrHashmapBucket V}
    (he : e ∈ chain i) (he' : e' ∈ chain i) (heq : e.1 = e'.1) : e = e' :=
  List.inj_on_of_nodup_map (h.table.nodup i) he he' heq

theorem key_inj (h : hashmap.Holds chain m) {i : ℕ} {e e' : ℕ × NrHashmapBucket V}
    (he : e ∈ chain i) (he' : e' ∈ chain i) (heq : e.2.key = e'.2.key) : e = e' :=
  List.inj_on_of_nodup_map (h.keys i) he he' heq

theorem valueAt_eq (h : hashmap.Holds chain m) {i a : ℕ} {bucket : NrHashmapBucket V}
    (hmem : (a, bucket) ∈ chain i) : hashmap.valueAt a = bucket.value := by
  obtain ⟨cell, hcell, rfl⟩ := (h.table.linked i).cell hmem
  rw [valueAt, hcell]
  rfl

theorem fetch_cases (h : hashmap.Holds chain m) (key : Bytes) :
    (m.values.lookup key = none ∧
      nrHashmapFetch hashmap (hashKey hashmap.log2NumBuckets key) key = none) ∨
    ∃ a value, m.values.lookup key = some value ∧
      nrHashmapFetch hashmap (hashKey hashmap.log2NumBuckets key) key = some a ∧
      (a, { key, value }) ∈ chain (hashKey hashmap.log2NumBuckets key) ∧
      hashmap.valueAt a = value := by
  rw [nrHashmapFetch, (h.table.linked _).findCell_eq _ (h.table.length_le _)]
  cases hfind : (chain (hashKey hashmap.log2NumBuckets key)).find? fun e =>
      key.length == e.2.key.length && key == e.2.key with
  | none =>
      refine Or.inl ⟨?_, rfl⟩
      rw [Option.eq_none_iff_forall_ne_some]
      intro value hvalue
      obtain ⟨a, hmem⟩ := (h.lookup key value).mp hvalue
      exact List.find?_eq_none.mp hfind _ hmem (by simp)
  | some e =>
      obtain ⟨a, bucket⟩ := e
      have hmem := List.mem_of_find?_eq_some hfind
      have htest := List.find?_some hfind
      simp only [Bool.and_eq_true, beq_iff_eq] at htest
      obtain ⟨-, rfl⟩ := htest
      exact Or.inr ⟨a, bucket.value, (h.lookup _ _).mpr ⟨a, hmem⟩, rfl, hmem, h.valueAt_eq hmem⟩

/-- A step that changes what is known of one key, in the list of that key. -/
theorem change (h : hashmap.Holds chain m) (key : Bytes) (l : List (ℕ × NrHashmapBucket V))
    {hashmap' : NrHashmap V} {m' : FiniteMap V}
    (hlog : hashmap'.log2NumBuckets = hashmap.log2NumBuckets)
    (hbuckets : hashmap'.buckets.length = hashmap.buckets.length)
    (htable : LinkedList.Table hashmap'.memory hashmap'.head
      (Function.update chain (hashKey hashmap.log2NumBuckets key) l) hashmap'.used)
    (hothers : ∀ e : ℕ × NrHashmapBucket V, e.2.key ≠ key →
      (e ∈ l ↔ e ∈ chain (hashKey hashmap.log2NumBuckets key)))
    (hkeys : (l.map fun e => e.2.key).Nodup)
    (hsame : ∀ key', key' ≠ key → m'.values.lookup key' = m.values.lookup key')
    (hkey : ∀ value, m'.values.lookup key = some value ↔ ∃ a, (a, { key, value }) ∈ l)
    (helements : hashmap'.elements = m'.values.keys.card)
    (hdestroyed : hashmap'.destroyed = m'.destroyed) :
    hashmap'.Holds (Function.update chain (hashKey hashmap.log2NumBuckets key) l) m' where
  buckets := by rw [hbuckets, hlog, h.buckets]
  table := htable
  hashed i e he := by
    rw [hlog]
    rcases eq_or_ne i (hashKey hashmap.log2NumBuckets key) with rfl | hi
    · rw [Function.update_self] at he
      by_cases heq : e.2.key = key
      · rw [heq]
      · exact h.hashed _ e ((hothers e heq).mp he)
    · rw [Function.update_of_ne hi] at he
      exact h.hashed i e he
  keys i := by
    rcases eq_or_ne i (hashKey hashmap.log2NumBuckets key) with rfl | hi
    · rwa [Function.update_self]
    · rw [Function.update_of_ne hi]
      exact h.keys i
  lookup key' value := by
    rw [hlog]
    rcases eq_or_ne key' key with rfl | hne
    · rw [Function.update_self]
      exact hkey value
    · rw [hsame key' hne, h.lookup key' value]
      rcases eq_or_ne (hashKey hashmap.log2NumBuckets key')
        (hashKey hashmap.log2NumBuckets key) with heq | hhash
      · rw [heq, Function.update_self]
        exact exists_congr fun a => (hothers (a, { key := key', value }) hne).symm
      · rw [Function.update_of_ne hhash]
  elements := helements
  destroyed := hdestroyed

/-! ### Adding, changing and removing an element -/

theorem hash_lt (h : hashmap.Holds chain m) (key : Bytes) :
    hashKey hashmap.log2NumBuckets key < hashmap.buckets.length := by
  rw [h.buckets]
  exact hashKey_lt _ key

theorem add (h : hashmap.Holds chain m) (hnone : m.values.lookup key = none) (value : Option V) :
    (nrHashmapAddInternal hashmap (hashKey hashmap.log2NumBuckets key) key value).Represents
      { m with values := m.values.insert key value } := by
  have hnew : ∀ e ∈ chain (hashKey hashmap.log2NumBuckets key), e.2.key ≠ key := by
    rintro ⟨a, bucket⟩ he rfl
    have hsome := (h.lookup _ _).mpr ⟨a, he⟩
    rw [hnone] at hsome
    cases hsome
  have htable := h.table.pushFront (hashKey hashmap.log2NumBuckets key) { key, value }
  rw [← hashmap.head_set (h.hash_lt key)] at htable
  refine ⟨_, h.change key _ rfl List.length_set htable ?_ ?_ ?_ ?_ ?_ h.destroyed⟩
  · intro e he
    rw [List.mem_cons]
    exact or_iff_right fun heq => he (heq ▸ rfl)
  · refine List.nodup_cons.mpr ⟨fun hmem => ?_, h.keys _⟩
    obtain ⟨e, he, heq⟩ := List.mem_map.mp hmem
    exact hnew e he heq
  · exact fun key' hne => Finmap.lookup_insert_of_ne _ hne
  · intro value'
    rw [Finmap.lookup_insert]
    constructor
    · intro heq
      exact ⟨hashmap.used, Option.some.inj heq ▸ List.mem_cons_self⟩
    · rintro ⟨a, hmem⟩
      rcases List.mem_cons.mp hmem with heq | hmem
      · cases heq
        rfl
      · exact absurd rfl (hnew _ hmem)
  · rw [keys_insert, Finset.card_insert_of_notMem fun hmem =>
      Finmap.lookup_eq_none.mp hnone (Finmap.mem_keys.mp hmem), ← h.elements]
    rfl

theorem replaceValue (h : hashmap.Holds chain m) {a : ℕ} {old : Option V}
    (hold : m.values.lookup key = some old)
    (hmem : (a, { key, value := old }) ∈ chain (hashKey hashmap.log2NumBuckets key))
    (value : Option V) {destroyed : List (Option V)} :
    { hashmap with
      memory := LinkedList.modifyValue hashmap.memory a ({ · with value })
      destroyed }.Represents { values := m.values.insert key value, destroyed } := by
  have haddr := List.mem_map_of_mem (f := Prod.fst) hmem
  have htable := h.table.modifyValue haddr ({ · with value })
  rw [Function.update_eq_self] at htable
  have hkeyed : ∀ e ∈ chain (hashKey hashmap.log2NumBuckets key), e.1 = a → e.2.key = key :=
    fun e he heq => congrArg (fun e => e.2.key) (h.address_inj he hmem heq)
  have hkeys : (LinkedList.withValue (chain (hashKey hashmap.log2NumBuckets key)) a
      ({ · with value })).map (fun e => e.2.key) =
        (chain (hashKey hashmap.log2NumBuckets key)).map fun e => e.2.key := by
    rw [LinkedList.withValue, List.map_map]
    refine List.map_congr_left fun e _ => ?_
    show (if _ then _ else _ : NrHashmapBucket V).key = _
    split <;> rfl
  refine ⟨_, h.change key _ rfl rfl htable ?_ ?_ ?_ ?_ ?_ rfl⟩
  · intro e he
    constructor
    · intro hnew
      obtain ⟨e', he', rfl⟩ := List.mem_map.mp hnew
      by_cases heq : e'.1 = a
      · simp only [if_pos heq] at he
        exact absurd (hkeyed e' he' heq) he
      · simp only [if_neg heq]
        exact he'
    · intro he'
      refine List.mem_map.mpr ⟨e, he', ?_⟩
      rw [if_neg fun heq => he (hkeyed e he' heq)]
  · rw [hkeys]
    exact h.keys _
  · exact fun key' hne => Finmap.lookup_insert_of_ne _ hne
  · intro value'
    rw [Finmap.lookup_insert]
    constructor
    · intro heq
      obtain rfl := Option.some.inj heq
      exact ⟨a, List.mem_map.mpr ⟨_, hmem, by rw [if_pos rfl]⟩⟩
    · rintro ⟨b, hb⟩
      obtain ⟨e, he, heq⟩ := List.mem_map.mp hb
      have hsame : e.2.key = key := by
        have hbucket := congrArg (fun e => e.2.key) heq
        simp only at hbucket
        rw [← hbucket]
        split <;> rfl
      obtain rfl := h.key_inj he hmem hsame
      rw [if_pos rfl] at heq
      cases heq
      rfl
  · have hin : key ∈ m.values.keys := Finmap.mem_keys.mpr (Finmap.mem_of_lookup_eq_some hold)
    rw [keys_insert, Finset.insert_eq_of_mem hin]
    exact h.elements

theorem remove (h : hashmap.Holds chain m) {a : ℕ} {old : Option V}
    (hold : m.values.lookup key = some old)
    (hmem : (a, { key, value := old }) ∈ chain (hashKey hashmap.log2NumBuckets key))
    {destroyed : List (Option V)} :
    { hashmap with
      memory := LinkedList.unlink hashmap.memory a
      buckets :=
        if hashmap.head (hashKey hashmap.log2NumBuckets key) = some a then
          hashmap.buckets.set (hashKey hashmap.log2NumBuckets key)
            ((hashmap.memory a).bind LinkedList.Cell.next)
        else hashmap.buckets
      elements := hashmap.elements - 1
      destroyed }.Represents { values := m.values.erase key, destroyed } := by
  obtain ⟨cell, hcell, -⟩ := (h.table.linked _).cell hmem
  have htable := h.table.unlink (List.mem_map_of_mem hmem) hcell
  have hmemWithout : ∀ e, e ∈ LinkedList.without
      (chain (hashKey hashmap.log2NumBuckets key)) a ↔
        e ∈ chain (hashKey hashmap.log2NumBuckets key) ∧ e.1 ≠ a := fun e => by
    rw [LinkedList.without, List.mem_filter, decide_eq_true_iff]
  have hheads : (fun j => (if hashmap.head (hashKey hashmap.log2NumBuckets key) = some a
      then hashmap.buckets.set (hashKey hashmap.log2NumBuckets key)
        ((hashmap.memory a).bind LinkedList.Cell.next)
      else hashmap.buckets).getD j none) =
        Function.update hashmap.head (hashKey hashmap.log2NumBuckets key)
          (if hashmap.head (hashKey hashmap.log2NumBuckets key) = some a then cell.next
          else hashmap.head (hashKey hashmap.log2NumBuckets key)) := by
    split
    · rw [hashmap.head_set (h.hash_lt key), hcell]
      rfl
    · rw [Function.update_eq_self]
      rfl
  rw [← hheads] at htable
  refine ⟨_, h.change key _ rfl ?_ htable ?_ ?_ ?_ ?_ ?_ rfl⟩
  · show (if _ then _ else _ : List (Option ℕ)).length = _
    split
    · exact List.length_set
    · rfl
  · intro e he
    rw [hmemWithout]
    refine and_iff_left_of_imp fun he' heq => he ?_
    exact congrArg (fun e => e.2.key) (h.address_inj he' hmem heq)
  · exact (List.filter_sublist.map _).nodup (h.keys _)
  · exact fun key' hne => Finmap.lookup_erase_ne hne
  · intro value
    rw [Finmap.lookup_erase]
    refine iff_of_false (fun heq => by cases heq) ?_
    rintro ⟨b, hb⟩
    obtain ⟨hb, hne⟩ := (hmemWithout _).mp hb
    exact hne (congrArg Prod.fst (h.key_inj hb hmem rfl))
  · have hin : key ∈ m.values.keys := Finmap.mem_keys.mpr (Finmap.mem_of_lookup_eq_some hold)
    rw [Finmap.keys_erase, Finset.card_erase_of_mem hin, ← h.elements]

theorem nrHashmapApply_spec (h : hashmap.Holds chain m) :
    ((nrHashmapApply hashmap).map Prod.fst).Nodup ∧
      ∀ key value, (key, value) ∈ nrHashmapApply hashmap ↔ m.values.lookup key = some value := by
  have hvalues : ∀ i, LinkedList.values hashmap.memory hashmap.used (hashmap.head i) =
      (chain i).map Prod.snd := fun i =>
    (h.table.linked i).values_eq (h.table.length_le i)
  have heq : nrHashmapApply hashmap = (List.range (nrHashmapCountBuckets hashmap)).flatMap fun i =>
      (chain i).map fun e => (e.2.key, e.2.value) := by
    rw [nrHashmapApply]
    refine List.flatMap_congr fun i _ => ?_
    rw [hvalues, List.map_map]
    rfl
  constructor
  · rw [heq, List.map_flatMap]
    refine List.nodup_flatMap.mpr ⟨fun i _ => ?_, List.nodup_range.imp fun {i j} hij => ?_⟩
    · rw [List.map_map]
      exact h.keys i
    · -- a key is only in the list of its hash
      refine List.disjoint_left.mpr fun key hi hj => hij ?_
      simp only [List.map_map] at hi hj
      obtain ⟨e, he, rfl⟩ := List.mem_map.mp hi
      obtain ⟨e', he', heq'⟩ := List.mem_map.mp hj
      have hkey : e'.2.key = e.2.key := heq'
      rw [← h.hashed i e he, ← h.hashed j e' he', hkey]
  · intro key value
    rw [heq, List.mem_flatMap, h.lookup key value]
    constructor
    · rintro ⟨i, -, hmem⟩
      obtain ⟨⟨a, bucket⟩, he, hpair⟩ := List.mem_map.mp hmem
      obtain ⟨rfl, rfl⟩ := Prod.mk.inj hpair
      have hi : hashKey hashmap.log2NumBuckets bucket.key = i := h.hashed i _ he
      exact ⟨a, hi.symm ▸ he⟩
    · rintro ⟨a, hmem⟩
      have hlt := hashKey_lt hashmap.log2NumBuckets key
      exact ⟨_, List.mem_range.mpr hlt, List.mem_map.mpr ⟨_, hmem, rfl⟩⟩

end NrHashmap.Holds

end Holding

/-! ### Runs -/

/-- A key that is not empty. -/
abbrev Key := { key : Bytes // key ≠ [] }

inductive HashmapCall (V : Type)
  | set (key : Key) (value : Option V)
  | update (key : Key) (value : Option V)
  | get (key : Key)
  | has (key : Key)
  | delete (key : Key)
  | count
  | apply

inductive HashmapReply (V : Type)
  | done
  | status (success : Bool)
  | pointer (value : Option V)
  | flag (present : Bool)
  | count (elements : ℕ)
  | visited (elements : List (Bytes × Option V))

/-- The map after a call, and the answer. -/
def hashmapCall (hashmap : NrHashmap V) : HashmapCall V → Checked (NrHashmap V × HashmapReply V)
  | .set key value => Prod.map id .status <$> nrHashmapSet hashmap key value
  | .update key value => (·, .done) <$> nrHashmapUpdate hashmap key value
  | .get key => (hashmap, .pointer ·) <$> nrHashmapGet hashmap key
  | .has key => (hashmap, .flag ·) <$> nrHashmapHas hashmap key
  | .delete key => Prod.map id .status <$> nrHashmapDelete hashmap key
  | .count => .ok (hashmap, .count (nrHashmapCount hashmap))
  | .apply => .ok (hashmap, .visited (nrHashmapApply hashmap))

def hashmapExec (s : Checked (NrHashmap V)) (call : HashmapCall V) : Checked (NrHashmap V) :=
  s >>= fun hashmap => Prod.fst <$> hashmapCall hashmap call

def hashmapReply (s : Checked (NrHashmap V)) (call : HashmapCall V) : Checked (HashmapReply V) :=
  s >>= fun hashmap => Prod.snd <$> hashmapCall hashmap call

/-- The key of a call has a length that is an `int`. -/
def HashmapCall.Fits : HashmapCall V → Prop
  | .set key _ | .update key _ | .get key | .has key | .delete key => key.1.length < 2 ^ 31
  | .count | .apply => True

/-- A value that leaves the map is destroyed, if the map has a destructor. -/
def FiniteMap.destroy (m : FiniteMap V) (dtorFunc : Bool) (value : Option V) : List (Option V) :=
  if dtorFunc then m.destroyed ++ [value] else m.destroyed

/-- What a finite map does and answers. -/
inductive MapStep (dtorFunc : Bool) (m : FiniteMap V) :
    HashmapCall V → HashmapReply V → FiniteMap V → Prop
  | setNew {key : Key} {value : Option V} (h : key.1 ∉ m.values) :
      MapStep dtorFunc m (.set key value) (.status true)
        { m with values := m.values.insert key value }
  | setOld {key : Key} {value : Option V} (h : key.1 ∈ m.values) :
      MapStep dtorFunc m (.set key value) (.status false) m
  | updateNew {key : Key} {value : Option V} (h : key.1 ∉ m.values) :
      MapStep dtorFunc m (.update key value) .done
        { m with values := m.values.insert key value }
  | updateOld {key : Key} {value old : Option V} (h : m.values.lookup key.1 = some old) :
      MapStep dtorFunc m (.update key value) .done
        { values := m.values.insert key value, destroyed := m.destroy dtorFunc old }
  | get {key : Key} : MapStep dtorFunc m (.get key) (.pointer (m.values.lookup key.1).join) m
  | has {key : Key} : MapStep dtorFunc m (.has key) (.flag (decide (key.1 ∈ m.values))) m
  | deleteOld {key : Key} {old : Option V} (h : m.values.lookup key.1 = some old) :
      MapStep dtorFunc m (.delete key) (.status true)
        { values := m.values.erase key.1, destroyed := m.destroy dtorFunc old }
  | deleteNone {key : Key} (h : key.1 ∉ m.values) :
      MapStep dtorFunc m (.delete key) (.status false) m
  | count : MapStep dtorFunc m .count (.count m.values.keys.card) m
  | apply {elements : List (Bytes × Option V)} (honce : (elements.map Prod.fst).Nodup)
      (hall : ∀ key value, (key, value) ∈ elements ↔ m.values.lookup key = some value) :
      MapStep dtorFunc m .apply (.visited elements) m

section Steps

variable {hashmap : NrHashmap V} {m : FiniteMap V}

theorem NrHashmap.Represents.step (h : hashmap.Represents m) {call : HashmapCall V}
    (hfits : call.Fits) :
    ∃ hashmap' reply m', hashmapCall hashmap call = .ok (hashmap', reply) ∧
      MapStep hashmap.dtorFunc m call reply m' ∧ hashmap'.Represents m' ∧
      hashmap'.dtorFunc = hashmap.dtorFunc := by
  have hrep := h
  obtain ⟨chain, h⟩ := h
  cases call with
  | set key value =>
      rw [hashmapCall, nrHashmapSet, if_neg key.2, nrHashmapHashKey_eq _ key.2 hfits, ok_bind]
      rcases h.fetch_cases key with ⟨hnone, hfetch⟩ | ⟨a, old, hold, hfetch, -, -⟩
      · rw [hfetch]
        exact ⟨_, _, _, rfl, .setNew (Finmap.lookup_eq_none.mp hnone), h.add hnone value, rfl⟩
      · rw [hfetch]
        exact ⟨_, _, m, rfl, .setOld (Finmap.mem_of_lookup_eq_some hold), hrep, rfl⟩
  | update key value =>
      rw [hashmapCall, nrHashmapUpdate, if_neg key.2, nrHashmapHashKey_eq _ key.2 hfits, ok_bind]
      rcases h.fetch_cases key with ⟨hnone, hfetch⟩ | ⟨a, old, hold, hfetch, hmem, hvalue⟩
      · rw [hfetch]
        exact ⟨_, _, _, rfl, .updateNew (Finmap.lookup_eq_none.mp hnone), h.add hnone value, rfl⟩
      · rw [hfetch]
        refine ⟨_, _, _, rfl, .updateOld hold, ?_, rfl⟩
        rw [FiniteMap.destroy, ← h.destroyed, ← hvalue]
        exact h.replaceValue hold hmem value
  | get key =>
      rw [hashmapCall, nrHashmapGet, if_neg key.2, nrHashmapHashKey_eq _ key.2 hfits, ok_bind,
        map_ok]
      refine ⟨_, _, m, rfl, ?_, hrep, rfl⟩
      have hget := (MapStep.get : MapStep hashmap.dtorFunc m (.get key) _ m)
      rcases h.fetch_cases key with ⟨hnone, hfetch⟩ | ⟨a, old, hold, hfetch, -, hvalue⟩
      · rw [hnone] at hget
        rw [hfetch]
        exact hget
      · rw [hold] at hget
        rw [hfetch, Option.bind_some, hvalue]
        exact hget
  | has key =>
      rw [hashmapCall, nrHashmapHas, if_neg key.2, nrHashmapHashKey_eq _ key.2 hfits, ok_bind,
        map_ok]
      have hflag : (nrHashmapFetch hashmap (hashKey hashmap.log2NumBuckets key) key).isSome =
          decide (key.1 ∈ m.values) := by
        rcases h.fetch_cases key with ⟨hnone, hfetch⟩ | ⟨a, old, hold, hfetch, -, -⟩
        · rw [hfetch]
          exact (decide_eq_false (Finmap.lookup_eq_none.mp hnone)).symm
        · rw [hfetch]
          exact (decide_eq_true (Finmap.mem_of_lookup_eq_some hold)).symm
      rw [hflag]
      exact ⟨_, _, m, rfl, .has, hrep, rfl⟩
  | delete key =>
      rw [hashmapCall, nrHashmapDelete, if_neg key.2, nrHashmapHashKey_eq _ key.2 hfits, ok_bind]
      rcases h.fetch_cases key with ⟨hnone, hfetch⟩ | ⟨a, old, hold, hfetch, hmem, hvalue⟩
      · rw [hfetch]
        exact ⟨_, _, m, rfl, .deleteNone (Finmap.lookup_eq_none.mp hnone), hrep, rfl⟩
      · rw [hfetch]
        refine ⟨_, _, _, rfl, .deleteOld hold, ?_, rfl⟩
        rw [FiniteMap.destroy, ← h.destroyed, ← hvalue]
        exact h.remove hold hmem
  | count =>
      rw [hashmapCall, nrHashmapCount, h.elements]
      exact ⟨_, _, m, rfl, .count, hrep, rfl⟩
  | apply =>
      exact ⟨_, _, m, rfl, .apply h.nrHashmapApply_spec.1 h.nrHashmapApply_spec.2, hrep, rfl⟩

theorem nrHashmapCreateInternal_represents (V : Type) (log2NumBuckets : ℕ) (dtorFunc : Bool) :
    (nrHashmapCreateInternal V log2NumBuckets dtorFunc).Represents
      { values := ∅, destroyed := [] } := by
  refine ⟨fun _ => [], ⟨List.length_replicate, ?_, ?_, ?_, ?_, rfl, rfl⟩⟩
  · have hhead : (nrHashmapCreateInternal V log2NumBuckets dtorFunc).head = fun _ => none := by
      funext i
      rw [NrHashmap.head, List.getD_eq_getElem?_getD]
      exact List.getElem?_getD_replicate_default_eq none _ i
    rw [hhead]
    exact LinkedList.Table.empty
  · exact fun i e he => by cases he
  · exact fun i => List.nodup_nil
  · intro key value
    rw [Finmap.lookup_empty]
    refine iff_of_false (fun h => by cases h) ?_
    rintro ⟨a, ha⟩
    cases ha

end Steps

/-- A state without a fault, of a map that holds what the finite map does. -/
def HashmapSim (dtorFunc : Bool) (s : Checked (NrHashmap V)) (m : FiniteMap V) : Prop :=
  ∃ hashmap, s = .ok hashmap ∧ hashmap.dtorFunc = dtorFunc ∧ hashmap.Represents m

/-- A hash map, whatever its keys hash to, is a finite map in every run: it gives the
answers of one, its lists are well linked after every call, and an iteration comes to
every key once. The lengths of the keys are `int`s. -/
theorem hashmap_refines (V : Type) (log2NumBuckets : ℕ) (dtorFunc : Bool)
    (calls : List (HashmapCall V)) (hkeys : ∀ call ∈ calls, call.Fits) :
    Refines hashmapExec hashmapReply
      (fun m call reply m' => ∃ r, reply = .ok r ∧ MapStep dtorFunc m call r m')
      (HashmapSim dtorFunc) (.ok (nrHashmapCreateInternal V log2NumBuckets dtorFunc))
      { values := ∅, destroyed := [] } calls := by
  have hcreate : HashmapSim dtorFunc (.ok (nrHashmapCreateInternal V log2NumBuckets dtorFunc))
      { values := ∅, destroyed := [] } :=
    ⟨_, rfl, rfl, nrHashmapCreateInternal_represents V log2NumBuckets dtorFunc⟩
  refine refines_of_along ?_ hcreate (along_of_forall hkeys _)
  rintro s m call ⟨hashmap, rfl, rfl, h⟩ hfits
  obtain ⟨hashmap', reply, m', hcall, hstep, h', hdtor⟩ := h.step hfits
  refine ⟨m', ⟨reply, ?_, hstep⟩, hashmap', ?_, hdtor, h'⟩
  · rw [hashmapReply, ok_bind, hcall, map_ok]
  · rw [hashmapExec, ok_bind, hcall, map_ok]

/-- A key that is set and found. -/
theorem hashmap_refines_letter :
    Refines hashmapExec hashmapReply
      (fun m call reply m' => ∃ r, reply = .ok r ∧ MapStep false m call r m')
      (HashmapSim false) (.ok (nrHashmapCreateInternal ℕ 1 false))
      { values := ∅, destroyed := [] } [.set ⟨[0x61], nofun⟩ (some 1), .has ⟨[0x61], nofun⟩] := by
  have hletter : [(0x61 : UInt8)].length < 2 ^ 31 := by decide
  exact hashmap_refines ℕ 1 false _
    (List.forall_mem_cons.mpr ⟨hletter, List.forall_mem_singleton.mpr hletter⟩)

/-- For a key of `2 ^ 31 + 1` letters the byte that is left over is in front of the key. -/
theorem longKey_misread :
    ¬ ∀ key : Key, ∃ present,
      nrHashmapHas (nrHashmapCreateInternal ℕ 1 false) key.1 = .ok present := by
  intro h
  obtain ⟨n, hn⟩ : ∃ n, n = 2 ^ 31 := ⟨_, rfl⟩
  obtain ⟨present, hhas⟩ := h ⟨0x61 :: List.replicate n 0x61, List.cons_ne_nil _ _⟩
  have hlen : CMemory.sizeToInt (0x61 :: List.replicate n (0x61 : UInt8)).length = -2 ^ 31 + 1 := by
    rw [List.length_cons, List.length_replicate, hn]
    rfl
  have hhash : nrMkhashLen (0x61 :: List.replicate n 0x61) (-2 ^ 31 + 1) = .error .read :=
    (nrMkhashLen_of_neg (by decide) (if_neg (by decide)) (by decide)).trans (if_neg (by decide))
  rw [nrHashmapHas, if_neg (List.cons_ne_nil _ _), nrHashmapHashKey, hlen, hhash, map_error,
    error_bind] at hhas
  cases hhas

end AxiomDaemon.Util

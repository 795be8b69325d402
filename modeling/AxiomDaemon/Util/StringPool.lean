import AxiomDaemon.Axiom.Metrics
import AxiomDaemon.Axiom.SegmentTraces
import AxiomDaemon.Lib.Block
import AxiomDaemon.Lib.HashTree
import AxiomDaemon.Lib.Transition

/-!
The string pool of `util_string_pool.c`.

The entries are a hash tree that is threaded through an array; links are
indices, which start at 1, so that 0 is no link. The strings themselves are in
tables that are never moved: an entry refers to its string by the table and
the offset, and only the arrays of entries and references are reallocated.
Indices, lengths and sizes are numbers first; the functions of `Sized` have them as
`int`s. A pool or a string that is `NULL` is left out, the functions answer 0 for them.
-/

namespace AxiomDaemon.Util

open AxiomDaemon.Lib AxiomDaemon.Lib.CText AxiomDaemon.Axiom

/-- A string as C has it: the terminator is not part of it. -/
abbrev CString := { string : Bytes // (0 : UInt8) ∉ string }

instance instLawfulBEqCString : LawfulBEq CString := Subtype.instLawfulBEq

/-- `n` times the letter `a`. -/
def lettersA (n : ℕ) : CString :=
  ⟨List.replicate n 0x61, fun h => absurd (List.eq_of_mem_replicate h) (by decide)⟩

/-- `NR_STRPOOL_STARTING_SIZE`. -/
def nrStrpoolStartingSize : ℕ := 4096

/-- `NR_STRPOOL_INCREASE_SIZE`. -/
def nrStrpoolIncreaseSize : ℕ := 4096

/-- `NR_STRPOOL_TABLE_SIZE`. -/
def nrStrpoolTableSize : ℕ := 32768

/-- `nrstable_t`, without the link to the next table. -/
structure NrStable where
  numBytesUsed : ℕ
  numBytesAllocated : ℕ
  bytes : List UInt8

/-- `nrstring_t`. -/
structure NrString where
  hash : UInt32
  length : ℕ
  left : ℕ
  right : ℕ

/-- What `nr_zalloc` leaves in an entry. -/
def NrString.zero : NrString := { hash := 0, length := 0, left := 0, right := 0 }

/-- A pointer into a table. Tables are counted from the oldest one. -/
structure StringRef where
  table : ℕ
  offset : ℕ

/-- `nrstrpool_t`; the linked list of tables begins with the newest one. -/
structure NrStrpool where
  numEntries : ℕ
  size : ℕ
  entries : List NrString
  strings : List (Option StringRef)
  tables : List NrStable

/-- `nr_string_pool_create`. -/
def nrStringPoolCreate : NrStrpool where
  numEntries := 0
  size := nrStrpoolStartingSize
  entries := List.replicate nrStrpoolStartingSize .zero
  strings := List.replicate nrStrpoolStartingSize none
  tables := []

/-- The bytes up to the first that is zero. -/
def cString (bytes : List UInt8) : Bytes := bytes.takeWhile (· ≠ 0)

namespace NrStrpool

/-- `pool->entries[idx - 1]`. -/
def entry (pool : NrStrpool) (idx : ℕ) : NrString := pool.entries.getD (idx - 1) .zero

/-- The string at `pool->strings[idx - 1]`. -/
def string (pool : NrStrpool) (idx : ℕ) : Option Bytes :=
  match pool.strings.getD (idx - 1) none with
  | none => none
  | some ref => pool.tables.reverse[ref.table]?.map fun table => cString (table.bytes.drop ref.offset)

end NrStrpool

/-- `nr_string_get`. -/
def nrStringGet (pool : NrStrpool) (idx : ℕ) : Option Bytes :=
  if idx = 0 ∨ pool.numEntries < idx then none else pool.string idx

/-! ### Finding -/

/-- The comparison of an entry with a string. -/
def NrStrpool.matches (pool : NrStrpool) (string : Bytes) (hash : UInt32) (length idx : ℕ) : Prop :=
  hash = (pool.entry idx).hash ∧ length = (pool.entry idx).length ∧ pool.string idx = some string

instance (pool : NrStrpool) (string : Bytes) (hash : UInt32) (length idx : ℕ) :
    Decidable (pool.matches string hash length idx) :=
  inferInstanceAs (Decidable (_ ∧ _ ∧ _))

/-- The loop of `nr_string_find_internal`. -/
def findLoop (pool : NrStrpool) (string : Bytes) (hash : UInt32) (length : ℕ) : (fuel idx : ℕ) → ℕ
  | 0, _ => 0
  | fuel + 1, idx =>
      if idx = 0 then 0
      else if pool.matches string hash length idx then idx
      else if (pool.entry idx).hash < hash then
        findLoop pool string hash length fuel (pool.entry idx).left
      else findLoop pool string hash length fuel (pool.entry idx).right

/-- `nr_string_find_internal`: links lead forward, so every entry is visited
once at most. An empty pool has the entry that was allocated first. -/
def nrStringFindInternal (pool : NrStrpool) (string : Bytes) (hash : UInt32) (length : ℕ) : ℕ :=
  findLoop pool string hash length (pool.numEntries + 1) 1

/-- `nr_string_find`. -/
def nrStringFind (pool : NrStrpool) (string : CString) : ℕ :=
  nrStringFindInternal pool string (nrMkhash string) string.1.length

/-! ### Adding -/

inductive AddPosition
  | present (idx : ℕ)
  | parent (idx : ℕ)

/-- The loop of `nr_string_add_internal`: it stops at a match if there is one,
and otherwise at the parent of the new entry. -/
def addLoop (pool : NrStrpool) (string : Bytes) (hash : UInt32) (length : ℕ) :
    (fuel idx : ℕ) → AddPosition
  | 0, idx => .parent idx
  | fuel + 1, idx =>
      if pool.matches string hash length idx then .present idx
      else
        let next := if (pool.entry idx).hash < hash then (pool.entry idx).left
          else (pool.entry idx).right
        if next = 0 then .parent idx else addLoop pool string hash length fuel next

/-- Both arrays are enlarged when they are full. -/
def NrStrpool.grow (pool : NrStrpool) : NrStrpool :=
  if pool.size = pool.numEntries then
    let size := pool.size + nrStrpoolIncreaseSize
    { pool with
      size := size
      entries := blockResize pool.entries size .zero
      strings := blockResize pool.strings size none }
  else pool

/-- The tables, with room for `required` bytes in the first. -/
def withRoom (tables : List NrStable) (required : ℕ) : List NrStable :=
  let size := if nrStrpoolTableSize < required then required else nrStrpoolTableSize
  let fresh : NrStable :=
    { numBytesUsed := 0, numBytesAllocated := size, bytes := List.replicate size 0 }
  match tables with
  | [] => [fresh]
  | table :: rest =>
      if table.numBytesAllocated - table.numBytesUsed < required then fresh :: table :: rest
      else table :: rest

/-- `nr_strcpy` to the end of a table. -/
def NrStable.append (table : NrStable) (string : Bytes) : NrStable :=
  { table with
    numBytesUsed := table.numBytesUsed + (string.length + 1)
    bytes := blockCopy table.bytes table.numBytesUsed (string ++ [0]) }

/-- The string is copied into a table, and the new entry refers to it. -/
def NrStrpool.store (pool : NrStrpool) (newString : ℕ) (string : Bytes) : NrStrpool :=
  match withRoom pool.tables (string.length + 1) with
  | [] => pool
  | table :: rest =>
      { pool with
        strings := pool.strings.set newString (some ⟨rest.length, table.numBytesUsed⟩)
        tables := table.append string :: rest }

def NrString.link (entry : NrString) (hash : UInt32) (newString : ℕ) : NrString :=
  if entry.hash < hash then { entry with left := newString + 1 }
  else { entry with right := newString + 1 }

/-- The link from the parent to the new entry. -/
def NrStrpool.linkFrom (pool : NrStrpool) (parent : ℕ) (hash : UInt32) (newString : ℕ) :
    NrStrpool :=
  if parent = 0 then pool
  else { pool with entries := pool.entries.modify (parent - 1) (·.link hash newString) }

/-- `nr_string_add_internal`. -/
def nrStringAddInternal (pool : NrStrpool) (string : Bytes) (hash : UInt32) (length : ℕ) :
    NrStrpool × ℕ :=
  let pool := pool.grow
  match if pool.numEntries = 0 then .parent 0
    else addLoop pool string hash length pool.numEntries 1 with
  | .present idx => (pool, idx)
  | .parent idx =>
      let newString := pool.numEntries
      let pool :=
        { pool with
          numEntries := pool.numEntries + 1
          entries := pool.entries.set newString { hash, length, left := 0, right := 0 } }
      ((pool.store newString string).linkFrom idx hash newString, newString + 1)

/-- `nr_string_add`. -/
def nrStringAdd (pool : NrStrpool) (string : CString) : NrStrpool × ℕ :=
  nrStringAddInternal pool string (nrMkhash string) string.1.length

/-! ### Widths -/

namespace Sized

/-- `nr_string_find`, with the length as an `int`. -/
def nrStringFind (pool : NrStrpool) (string : CString) : Checked ℕ := do
  let (hash, length) ← nrMkhashLen (terminated string.1) 0
  .ok (if length < 0 then 0 else nrStringFindInternal pool string hash length.toNat)

/-- `nr_string_add`, with the length, the size of the arrays and the bytes that are asked for as
`int`s. The string is copied up to its end. -/
def nrStringAdd (pool : NrStrpool) (string : CString) : Checked (NrStrpool × ℕ) := do
  let (hash, length) ← nrMkhashLen (terminated string.1) 0
  if length < 0 then .ok (pool, 0)
  else do
    let added := nrStringAddInternal pool string hash length.toNat
    let _ ← CMemory.int added.1.size
    if added.1.numEntries = pool.numEntries then .ok added
    else do
      let required ← CMemory.int (length + 1)
      if required < string.1.length + 1 then .error .write else .ok added

end Sized

/-! ### The tables -/

/-- The bytes in use fit into the table. -/
structure NrStable.Valid (table : NrStable) : Prop where
  block : table.bytes.length = table.numBytesAllocated
  used : table.numBytesUsed ≤ table.numBytesAllocated

/-- The string and its terminator are among the bytes in use. -/
structure NrStable.Stores (table : NrStable) (offset : ℕ) (string : Bytes) : Prop where
  fits : offset + (string.length + 1) ≤ table.numBytesUsed
  bytes : (table.bytes.drop offset).take (string.length + 1) = string ++ [0]

theorem NrStable.Stores.cString_eq {table : NrStable} {offset : ℕ} {string : CString}
    (h : table.Stores offset string) : cString (table.bytes.drop offset) = string := by
  have hplain : ∀ b ∈ string.1, decide (b ≠ 0) = true := fun b hb => by
    rw [decide_eq_true_iff]
    rintro rfl
    exact string.2 hb
  rw [cString, ← List.take_append_drop (string.1.length + 1) (table.bytes.drop offset), h.bytes,
    List.append_assoc, List.takeWhile_append_of_pos hplain]
  simp

theorem NrStable.Valid.append {table : NrStable} (h : table.Valid) {string : Bytes}
    (hroom : table.numBytesUsed + (string.length + 1) ≤ table.numBytesAllocated) :
    (table.append string).Valid where
  block := by
    show (blockCopy _ _ _).length = _
    rw [length_blockCopy (by rw [h.block]; simpa using hroom), h.block]
    rfl
  used := hroom

theorem NrStable.stores_append {table : NrStable} (h : table.Valid) (string : Bytes) :
    (table.append string).Stores table.numBytesUsed string where
  fits := le_refl _
  bytes := by
    have hlen : (table.bytes.take table.numBytesUsed).length = table.numBytesUsed := by
      rw [List.length_take, h.block]
      exact Nat.min_eq_left h.used
    have hsource : (string ++ [0]).length = string.length + 1 := by simp
    show (List.drop _ (blockCopy _ _ _)).take _ = _
    rw [blockCopy, List.append_assoc, List.drop_left' hlen, ← hsource, List.take_left]

theorem NrStable.Stores.append {table : NrStable} {offset : ℕ} {string : Bytes}
    (h : table.Stores offset string) (hvalid : table.Valid) (string' : Bytes) :
    (table.append string').Stores offset string where
  fits := h.fits.trans (Nat.le_add_right _ _)
  bytes := by
    have hbegins : ∀ l : List UInt8, table.bytes.take table.numBytesUsed <+: l →
        (l.drop offset).take (string.length + 1) = (table.bytes.drop offset).take
          (string.length + 1) := by
      rintro l ⟨rest, rfl⟩
      have hlen : (table.bytes.take table.numBytesUsed).length = table.numBytesUsed := by
        rw [List.length_take, hvalid.block]
        exact Nat.min_eq_left hvalid.used
      have hfits := h.fits
      rw [List.take_drop, List.take_drop, List.take_append_of_le_length (by omega), List.take_take,
        Nat.min_eq_left hfits]
    rw [← h.bytes]
    refine hbegins _ ⟨(string' ++ [0]) ++ table.bytes.drop (table.numBytesUsed +
      (string' ++ [0]).length), ?_⟩
    exact (List.append_assoc _ _ _).symm

theorem withRoom_spec {tables : List NrStable} (h : ∀ table ∈ tables, table.Valid) (required : ℕ) :
    ∃ table rest, withRoom tables required = table :: rest ∧
      table.numBytesUsed + required ≤ table.numBytesAllocated ∧
      (∀ t ∈ table :: rest, t.Valid) ∧ tables.reverse <+: (table :: rest).reverse := by
  set size := if nrStrpoolTableSize < required then required else nrStrpoolTableSize with hsize
  have hle : required ≤ size := by
    rw [hsize]
    split <;> omega
  set fresh : NrStable :=
    { numBytesUsed := 0, numBytesAllocated := size, bytes := List.replicate size 0 } with hfresh
  have hvalid : fresh.Valid := ⟨List.length_replicate, Nat.zero_le _⟩
  have hroom : fresh.numBytesUsed + required ≤ fresh.numBytesAllocated := by
    show 0 + required ≤ size
    omega
  cases tables with
  | nil => exact ⟨fresh, [], rfl, hroom, by simpa using hvalid, List.nil_prefix⟩
  | cons table rest =>
      rw [withRoom]
      split
      · refine ⟨fresh, table :: rest, rfl, hroom, List.forall_mem_cons.mpr ⟨hvalid, h⟩, ?_⟩
        have hfresh : (fresh :: table :: rest).reverse = (table :: rest).reverse ++ [fresh] :=
          List.reverse_cons
        rw [hfresh]
        exact List.prefix_append _ _
      · next hnot =>
          have hused := (h table List.mem_cons_self).used
          exact ⟨table, rest, rfl, by omega, h, List.prefix_refl _⟩

/-! ### The pool and the strings it holds -/

/-- The position of an entry by its index. -/
def linkOf (idx : ℕ) : Option ℕ := if idx = 0 then none else some (idx - 1)

def NrString.node (entry : NrString) : HashTree.Node UInt32 :=
  ⟨entry.hash, linkOf entry.left, linkOf entry.right⟩

/-- The tree of the entries in use. -/
def NrStrpool.nodes (pool : NrStrpool) : List (HashTree.Node UInt32) :=
  (pool.entries.take pool.numEntries).map NrString.node

/-- The string is what the entry at position `i` refers to. -/
def NrStrpool.Refers (pool : NrStrpool) (i : ℕ) (string : Bytes) : Prop :=
  ∃ ref table, pool.strings[i]? = some (some ref) ∧ pool.tables.reverse[ref.table]? = some table ∧
    table.Stores ref.offset string

/-- The pool holds the strings, in this order. -/
structure NrStrpool.Holds (mkhash : CString → UInt32) (pool : NrStrpool)
    (strings : List CString) : Prop where
  numEntries : pool.numEntries = strings.length
  size : pool.numEntries ≤ pool.size
  entries : pool.entries.length = pool.size
  references : pool.strings.length = pool.size
  indexes : HashTree.Indexes mkhash pool.nodes strings
  lengths : ∀ i string, strings[i]? = some string → (pool.entry (i + 1)).length = string.1.length
  tables : ∀ table ∈ pool.tables, table.Valid
  refers : ∀ i (string : CString), strings[i]? = some string → pool.Refers i string
  empty : strings = [] → pool = nrStringPoolCreate

section Holding

variable {mkhash : CString → UInt32}

theorem nrStringPoolCreate_holds : nrStringPoolCreate.Holds mkhash [] where
  numEntries := rfl
  size := Nat.zero_le _
  entries := List.length_replicate
  references := List.length_replicate
  indexes := HashTree.indexes_nil mkhash
  lengths := fun _ _ h => by simp at h
  tables := fun _ h => by simp [nrStringPoolCreate] at h
  refers := fun _ _ h => by simp at h
  empty := fun _ => rfl

theorem NrStrpool.Refers.string_eq {pool : NrStrpool} {i : ℕ} {string : CString}
    (h : pool.Refers i string) : pool.string (i + 1) = some string.1 := by
  obtain ⟨ref, table, href, htable, hstores⟩ := h
  rw [NrStrpool.string, Nat.add_sub_cancel, List.getD_eq_getElem?_getD, href]
  simp only [Option.getD_some, htable, Option.map_some, hstores.cString_eq]

theorem NrStrpool.Refers.mono {pool pool' : NrStrpool} {i : ℕ} {string : Bytes}
    (h : pool.Refers i string) (hstrings : pool'.strings[i]? = pool.strings[i]?)
    (htables : ∀ (n : ℕ) table, pool.tables.reverse[n]? = some table →
      ∃ table', pool'.tables.reverse[n]? = some table' ∧
        ∀ offset, table.Stores offset string → table'.Stores offset string) :
    pool'.Refers i string := by
  obtain ⟨ref, table, href, htable, hstores⟩ := h
  obtain ⟨table', htable', hmono⟩ := htables _ _ htable
  exact ⟨ref, table', hstrings.trans href, htable', hmono _ hstores⟩

namespace NrStrpool.Holds

variable {pool : NrStrpool} {strings : List CString}

theorem lt_numEntries (h : pool.Holds mkhash strings) {i : ℕ} {string : CString}
    (hi : strings[i]? = some string) : i < pool.numEntries := by
  rw [h.numEntries]
  exact (List.getElem?_eq_some_iff.mp hi).1

theorem string_eq (h : pool.Holds mkhash strings) {i : ℕ} {string : CString}
    (hi : strings[i]? = some string) : pool.string (i + 1) = some string.1 :=
  (h.refers i string hi).string_eq

theorem exists_string (h : pool.Holds mkhash strings) {i : ℕ} (hi : i < pool.numEntries) :
    ∃ string, strings[i]? = some string :=
  ⟨_, List.getElem?_eq_getElem (h.numEntries ▸ hi)⟩

theorem entry_eq (h : pool.Holds mkhash strings) {i : ℕ} (hi : i < pool.numEntries) :
    pool.entries[i]? = some (pool.entry (i + 1)) := by
  have hlt : i < pool.entries.length := by
    rw [h.entries]
    exact hi.trans_le h.size
  rw [entry, Nat.add_sub_cancel, List.getD_eq_getElem?_getD, List.getElem?_eq_getElem hlt]
  rfl

theorem nodes_getElem? (h : pool.Holds mkhash strings) {i : ℕ} (hi : i < pool.numEntries) :
    pool.nodes[i]? = some (pool.entry (i + 1)).node := by
  rw [nodes, List.getElem?_map, List.getElem?_take_of_lt hi, h.entry_eq hi]
  rfl

theorem hash_eq (h : pool.Holds mkhash strings) {i : ℕ} {string : CString}
    (hi : strings[i]? = some string) : (pool.entry (i + 1)).hash = mkhash string := by
  have hmap := congrArg (·[i]?) h.indexes.hashes
  simp only [List.getElem?_map, h.nodes_getElem? (h.lt_numEntries hi), hi, Option.map_some] at hmap
  exact Option.some.inj hmap

theorem follow_eq (h : pool.Holds mkhash strings) (hash : UInt32) {i : ℕ}
    (hi : i < pool.numEntries) :
    HashTree.follow pool.nodes hash i =
      linkOf (if (pool.entry (i + 1)).hash < hash then (pool.entry (i + 1)).left
        else (pool.entry (i + 1)).right) := by
  rw [HashTree.follow, h.nodes_getElem? hi, Option.bind_some, HashTree.Node.next, apply_ite linkOf]
  rfl

theorem matches_iff (h : pool.Holds mkhash strings) (string : CString) {i : ℕ}
    (hi : i < pool.numEntries) :
    pool.matches string (mkhash string) string.1.length (i + 1) ↔ strings[i]? = some string := by
  obtain ⟨stored, hstored⟩ := h.exists_string hi
  constructor
  · rintro ⟨_, _, hstring⟩
    rw [h.string_eq hstored] at hstring
    rw [hstored, Subtype.ext (Option.some.inj hstring)]
  · intro heq
    exact ⟨(h.hash_eq heq).symm, (h.lengths i string heq).symm, h.string_eq heq⟩

end NrStrpool.Holds

theorem eq_of_linkOf_eq_some {idx i : ℕ} (h : linkOf idx = some i) : idx = i + 1 := by
  rw [linkOf] at h
  split at h
  · cases h
  · cases h
    omega

theorem eq_of_linkOf_eq_none {idx : ℕ} (h : linkOf idx = none) : idx = 0 := by
  rw [linkOf] at h
  split at h
  · assumption
  · cases h

namespace NrStrpool.Holds

variable {pool : NrStrpool} {strings : List CString}

theorem findLoop_eq (h : pool.Holds mkhash strings) (string : CString) (fuel : ℕ) {i : ℕ}
    (hi : i < pool.numEntries) :
    findLoop pool string (mkhash string) string.1.length fuel (i + 1) =
      ((HashTree.search pool.nodes (fun i => decide (strings[i]? = some string)) (mkhash string)
        fuel i).elim 0 (· + 1)) := by
  induction fuel generalizing i with
  | zero => rfl
  | succ fuel ih =>
      rw [findLoop, HashTree.search, if_neg (Nat.succ_ne_zero i), h.follow_eq _ hi]
      simp only [h.matches_iff string hi, decide_eq_true_iff]
      split
      · rfl
      · rw [← apply_ite (findLoop pool string (mkhash string) string.1.length fuel)]
        cases hlink : linkOf (if (pool.entry (i + 1)).hash < mkhash string then
            (pool.entry (i + 1)).left else (pool.entry (i + 1)).right) with
        | none =>
            rw [eq_of_linkOf_eq_none hlink]
            cases fuel <;> rfl
        | some j =>
            rw [eq_of_linkOf_eq_some hlink]
            obtain ⟨_, hj⟩ := h.indexes.threaded.forward (mkhash string) i j
              (by rw [h.follow_eq _ hi, hlink])
            rw [h.indexes.length_eq, ← h.numEntries] at hj
            exact ih hj

theorem addLoop_eq (h : pool.Holds mkhash strings) (string : CString) (fuel : ℕ) {i : ℕ}
    (hi : i < pool.numEntries) :
    addLoop pool string (mkhash string) string.1.length fuel (i + 1) =
      (HashTree.search pool.nodes (fun i => decide (strings[i]? = some string)) (mkhash string)
        fuel i).elim (.parent (HashTree.descend pool.nodes (mkhash string) fuel i + 1))
        (fun j => .present (j + 1)) := by
  induction fuel generalizing i with
  | zero => rfl
  | succ fuel ih =>
      rw [addLoop, HashTree.search, HashTree.descend, h.follow_eq _ hi]
      simp only [h.matches_iff string hi, decide_eq_true_iff]
      split
      · rfl
      · cases hlink : linkOf (if (pool.entry (i + 1)).hash < mkhash string then
            (pool.entry (i + 1)).left else (pool.entry (i + 1)).right) with
        | none => rw [if_pos (eq_of_linkOf_eq_none hlink)]; rfl
        | some j =>
            rw [eq_of_linkOf_eq_some hlink, if_neg (Nat.succ_ne_zero j)]
            obtain ⟨_, hj⟩ := h.indexes.threaded.forward (mkhash string) i j
              (by rw [h.follow_eq _ hi, hlink])
            rw [h.indexes.length_eq, ← h.numEntries] at hj
            exact ih hj

/-- A string is found at its index, and 0 is the answer for every other. -/
theorem nrStringFindInternal_eq (h : pool.Holds mkhash strings) (string : CString) :
    nrStringFindInternal pool string (mkhash string) string.1.length =
      if string ∈ strings then strings.idxOf string + 1 else 0 := by
  rw [nrStringFindInternal]
  rcases Nat.eq_zero_or_pos pool.numEntries with hzero | hpos
  · -- the entry that is read is that of a new pool, whose string is no string
    obtain rfl : strings = [] := List.length_eq_zero_iff.mp (h.numEntries ▸ hzero)
    have hnone : ∀ hash length, ¬ nrStringPoolCreate.matches string hash length 1 := by
      rintro hash length ⟨_, _, hstring⟩
      cases hstring
    rw [h.empty rfl, findLoop, if_neg Nat.one_ne_zero, if_neg (hnone _ _),
      if_neg List.not_mem_nil]
    split <;> rfl
  · rw [h.findLoop_eq string _ hpos]
    have hfound : ∀ i : ℕ, decide (strings[i]? = some string) = true ↔ strings[i]? = some string :=
      fun i => decide_eq_true_iff
    have hfuel : strings.length ≤ pool.numEntries + 1 := by
      rw [h.numEntries]
      exact Nat.le_succ _
    split
    · next hmem =>
        have hidx : strings[strings.idxOf string]? = some string := by
          rw [List.getElem?_eq_getElem (List.idxOf_lt_length_iff.mpr hmem), List.getElem_idxOf]
        rw [(h.indexes.search_eq hfound hfuel _).mpr hidx]
        rfl
    · next hmem =>
        rw [(h.indexes.search_eq_none hfound hfuel).mpr hmem]
        rfl

/-! ### Adding -/

theorem grow (h : pool.Holds mkhash strings) : pool.grow.Holds mkhash strings := by
  rw [NrStrpool.grow]
  split
  · next hfull =>
    have hne : strings ≠ [] := by
      intro hnil
      rw [h.empty hnil] at hfull
      cases hfull
    have hentries : ∀ k, k ≤ pool.numEntries →
        (blockResize pool.entries (pool.size + nrStrpoolIncreaseSize) .zero).take k =
          pool.entries.take k := fun k hk => by
      have hsize := h.size
      exact take_blockResize (by omega) (by rw [h.entries]; omega)
    have hstrings : ∀ k, k ≤ pool.numEntries →
        (blockResize pool.strings (pool.size + nrStrpoolIncreaseSize) none).take k =
          pool.strings.take k := fun k hk => by
      have hsize := h.size
      exact take_blockResize (by omega) (by rw [h.references]; omega)
    have hget : ∀ {α : Type} {l l' : List α} {k i : ℕ}, l.take k = l'.take k → i < k →
        l[i]? = l'[i]? := fun heq hi => by
      rw [← List.getElem?_take_of_lt hi, heq, List.getElem?_take_of_lt hi]
    refine
      { numEntries := h.numEntries
        size := h.size.trans (Nat.le_add_right _ _)
        entries := length_blockResize ..
        references := length_blockResize ..
        indexes := ?_
        lengths := fun i string hi => ?_
        tables := h.tables
        refers := fun i string hi => ?_
        empty := fun hnil => absurd hnil hne }
    · show HashTree.Indexes mkhash ((List.take _ (blockResize _ _ _)).map _) strings
      rw [hentries _ (le_refl _)]
      exact h.indexes
    · rw [← h.lengths i string hi, entry, entry, Nat.add_sub_cancel, List.getD_eq_getElem?_getD,
        List.getD_eq_getElem?_getD, hget (hentries _ (le_refl _)) (h.lt_numEntries hi)]
    · exact (h.refers i string hi).mono (hget (hstrings _ (le_refl _)) (h.lt_numEntries hi))
        fun n table htable => ⟨table, htable, fun _ => id⟩
  · exact h

end NrStrpool.Holds

end Holding

@[simp] theorem NrString.length_link (entry : NrString) (hash : UInt32) (newString : ℕ) :
    (entry.link hash newString).length = entry.length := by
  rw [link]
  split <;> rfl

theorem NrString.node_link (entry : NrString) (hash : UInt32) (newString : ℕ) :
    (entry.link hash newString).node = entry.node.link hash newString := by
  rw [link, HashTree.Node.link]
  show _ = if entry.hash < hash then _ else _
  split <;> simp [node, linkOf]

/-- The entries after an addition. -/
def addedEntries (pool : NrStrpool) (parent : ℕ) (entry : NrString) : List NrString :=
  let entries := pool.entries.set pool.numEntries entry
  if parent = 0 then entries
  else entries.modify (parent - 1) (·.link entry.hash pool.numEntries)

theorem store_linkFrom_eq {pool : NrStrpool} {table : NrStable} {rest : List NrStable}
    {string : Bytes} (hroom : withRoom pool.tables (string.length + 1) = table :: rest)
    (parent : ℕ) (hash : UInt32) (length : ℕ) :
    ({ pool with
        numEntries := pool.numEntries + 1
        entries := pool.entries.set pool.numEntries { hash, length, left := 0, right := 0 } }.store
          pool.numEntries string).linkFrom parent hash pool.numEntries =
      { pool with
        numEntries := pool.numEntries + 1
        entries := addedEntries pool parent { hash, length, left := 0, right := 0 }
        strings := pool.strings.set pool.numEntries (some ⟨rest.length, table.numBytesUsed⟩)
        tables := table.append string :: rest } := by
  rw [NrStrpool.store]
  simp only [hroom, NrStrpool.linkFrom, addedEntries]
  split <;> rfl

theorem take_addedEntries {pool : NrStrpool} (hroom : pool.numEntries < pool.entries.length)
    (parent : ℕ) (entry : NrString) :
    (addedEntries pool (parent + 1) entry).take (pool.numEntries + 1) =
      (pool.entries.take pool.numEntries ++ [entry]).modify parent
        (·.link entry.hash pool.numEntries) := by
  rw [addedEntries, if_neg (Nat.succ_ne_zero parent), List.take_modify, take_succ_set hroom]
  rfl

section Holding

variable {mkhash : CString → UInt32} {pool : NrStrpool} {strings : List CString}

theorem NrStrpool.Holds.length_take (h : pool.Holds mkhash strings) :
    (pool.entries.take pool.numEntries).length = pool.numEntries := by
  rw [List.length_take, h.entries]
  exact Nat.min_eq_left h.size

/-- The tree after an addition: the first entry is the root, every other hangs
where the search for its hash ended. -/
theorem NrStrpool.Holds.indexes_added (h : pool.Holds mkhash strings)
    (hroom : pool.numEntries < pool.size) {string : CString} (hnot : string ∉ strings)
    {parent fuel : ℕ} (hparent : if pool.numEntries = 0 then parent = 0
      else parent = HashTree.descend pool.nodes (mkhash string) fuel 0 + 1)
    (hfuel : pool.numEntries ≤ fuel) (length : ℕ) :
    HashTree.Indexes mkhash (((addedEntries pool parent
      { hash := mkhash string, length, left := 0, right := 0 }).take (pool.numEntries + 1)).map
        NrString.node) (strings ++ [string]) := by
  have hlt : pool.numEntries < pool.entries.length := h.entries.symm ▸ hroom
  split at hparent
  · next hzero =>
      obtain rfl : strings = [] := List.length_eq_zero_iff.mp (h.numEntries ▸ hzero)
      rw [hparent, addedEntries, if_pos rfl, take_succ_set hlt, hzero]
      exact HashTree.indexes_singleton mkhash string
  · next hpos =>
      have hlen := h.length_take
      have happend := HashTree.Indexes.append NrString.node_link h.indexes hnot
        (show 0 < (pool.entries.take pool.numEntries).length by omega)
        (show (pool.entries.take pool.numEntries).length ≤ fuel by omega)
        (show NrString.node { hash := mkhash string, length, left := 0, right := 0 } =
          ⟨mkhash string, none, none⟩ from rfl)
      rw [hlen] at happend
      rw [hparent, take_addedEntries hlt]
      exact happend

theorem length_addedEntries (hroom : pool.numEntries < pool.entries.length) (parent : ℕ)
    (entry : NrString) (i : ℕ) :
    (addedEntries pool parent entry)[i]?.map NrString.length =
      if i = pool.numEntries then some entry.length else pool.entries[i]?.map NrString.length := by
  have hset : (pool.entries.set pool.numEntries entry)[i]?.map NrString.length =
      if i = pool.numEntries then some entry.length
      else pool.entries[i]?.map NrString.length := by
    rcases eq_or_ne i pool.numEntries with rfl | hi
    · rw [if_pos rfl, List.getElem?_set_self hroom]
      rfl
    · rw [if_neg hi, List.getElem?_set_ne hi.symm]
  rw [addedEntries]
  split
  · exact hset
  · rw [← hset, List.getElem?_modify]
    cases (pool.entries.set pool.numEntries entry)[i]? with
    | none => rfl
    | some entry' =>
        show some (NrString.length (if _ then _ else _)) = some entry'.length
        split <;> simp

theorem tables_added {tables rest : List NrStable} {table : NrStable} {string string' : Bytes}
    (hvalid : table.Valid) (hbegins : tables.reverse <+: (table :: rest).reverse) {n : ℕ}
    {stored : NrStable} (hstored : tables.reverse[n]? = some stored) :
    ∃ stored', (table.append string :: rest).reverse[n]? = some stored' ∧
      ∀ offset, stored.Stores offset string' → stored'.Stores offset string' := by
  obtain ⟨hn, _⟩ := List.getElem?_eq_some_iff.mp hstored
  obtain ⟨more, hmore⟩ := hbegins
  have hold : (rest.reverse ++ [table])[n]? = some stored := by
    rw [← List.reverse_cons, ← hmore, List.getElem?_append_left hn, hstored]
  rw [List.reverse_cons]
  rcases Nat.lt_or_ge n rest.reverse.length with hlt | hge
  · rw [List.getElem?_append_left hlt] at hold
    exact ⟨stored, by rw [List.getElem?_append_left hlt, hold], fun _ => id⟩
  · rw [List.getElem?_append_right hge, List.getElem?_singleton] at hold
    split at hold
    · next hzero =>
        obtain rfl := Option.some.inj hold
        refine ⟨table.append string, ?_, fun offset hs => hs.append hvalid string⟩
        rw [List.getElem?_append_right hge, hzero]
        rfl
    · cases hold

theorem NrStrpool.Holds.added (h : pool.Holds mkhash strings)
    (hroom : pool.numEntries < pool.size) {string : CString} (hnot : string ∉ strings)
    {parent fuel : ℕ} (hparent : if pool.numEntries = 0 then parent = 0
      else parent = HashTree.descend pool.nodes (mkhash string) fuel 0 + 1)
    (hfuel : pool.numEntries ≤ fuel) {table : NrStable} {rest : List NrStable}
    (hbytes : table.numBytesUsed + (string.1.length + 1) ≤ table.numBytesAllocated)
    (hvalid : ∀ t ∈ table :: rest, t.Valid)
    (hbegins : pool.tables.reverse <+: (table :: rest).reverse) :
    NrStrpool.Holds mkhash
      { pool with
        numEntries := pool.numEntries + 1
        entries := addedEntries pool parent
          { hash := mkhash string, length := string.1.length, left := 0, right := 0 }
        strings := pool.strings.set pool.numEntries (some ⟨rest.length, table.numBytesUsed⟩)
        tables := table.append string :: rest } (strings ++ [string]) := by
  have hentries : pool.numEntries < pool.entries.length := h.entries.symm ▸ hroom
  have htable : table.Valid := hvalid table List.mem_cons_self
  refine
    { numEntries := ?_
      size := hroom
      entries := ?_
      references := (List.length_set ..).trans h.references
      indexes := h.indexes_added hroom hnot hparent hfuel _
      lengths := fun i string' hi => ?_
      tables := ?_
      refers := fun i string' hi => ?_
      empty := fun hnil => absurd hnil (by simp) }
  · rw [List.length_append, ← h.numEntries]
    rfl
  · rw [addedEntries]
    split <;> simp [h.entries]
  · have hlength := length_addedEntries hentries parent
      { hash := mkhash string, length := string.1.length, left := 0, right := 0 } i
    rw [entry, Nat.add_sub_cancel, List.getD_eq_getElem?_getD]
    rcases Nat.lt_or_ge i strings.length with hlt | hge
    · rw [List.getElem?_append_left hlt] at hi
      have hold := h.lengths i string' hi
      rw [if_neg (by rw [h.numEntries]; omega), h.entry_eq (h.lt_numEntries hi)] at hlength
      obtain ⟨entry', hentry', hlength'⟩ := Option.map_eq_some_iff.mp hlength
      rw [hentry']
      exact hlength'.trans hold
    · rw [List.getElem?_append_right hge, List.getElem?_singleton] at hi
      split at hi
      · next hzero =>
          obtain rfl := Option.some.inj hi
          rw [if_pos (by rw [h.numEntries]; omega)] at hlength
          obtain ⟨entry', hentry', hlength'⟩ := Option.map_eq_some_iff.mp hlength
          rw [hentry']
          exact hlength'
      · cases hi
  · rw [List.forall_mem_cons] at hvalid ⊢
    exact ⟨htable.append hbytes, hvalid.2⟩
  · rcases Nat.lt_or_ge i strings.length with hlt | hge
    · rw [List.getElem?_append_left hlt] at hi
      refine (h.refers i string' hi).mono (List.getElem?_set_ne ?_) fun n stored hstored =>
        tables_added htable hbegins hstored
      rw [h.numEntries]
      omega
    · rw [List.getElem?_append_right hge, List.getElem?_singleton] at hi
      split at hi
      · next hzero =>
          obtain rfl := Option.some.inj hi
          obtain rfl : i = pool.numEntries := by rw [h.numEntries]; omega
          refine ⟨⟨rest.length, table.numBytesUsed⟩, table.append string, ?_, ?_,
            NrStable.stores_append htable _⟩
          · exact List.getElem?_set_self (h.references.symm ▸ hroom)
          · show (table.append string :: rest).reverse[rest.length]? = _
            rw [List.reverse_cons, List.getElem?_append_right (by simp)]
            simp
      · cases hi

/-- The strings after an addition. -/
def withString (strings : List CString) (string : CString) : List CString :=
  if string ∈ strings then strings else strings ++ [string]

theorem NrStrpool.Holds.addPosition_eq (h : pool.Holds mkhash strings) (string : CString) :
    (if pool.numEntries = 0 then .parent 0
      else addLoop pool string (mkhash string) string.1.length pool.numEntries 1) =
      if string ∈ strings then .present (strings.idxOf string + 1)
      else .parent (if pool.numEntries = 0 then 0
        else HashTree.descend pool.nodes (mkhash string) pool.numEntries 0 + 1) := by
  have hfound : ∀ i : ℕ, decide (strings[i]? = some string) = true ↔ strings[i]? = some string :=
    fun i => decide_eq_true_iff
  rcases Nat.eq_zero_or_pos pool.numEntries with hzero | hpos
  · obtain rfl : strings = [] := List.length_eq_zero_iff.mp (h.numEntries ▸ hzero)
    rw [if_pos hzero, if_neg List.not_mem_nil, if_pos hzero]
  · rw [if_neg hpos.ne', if_neg hpos.ne', h.addLoop_eq string _ hpos]
    split
    · next hmem =>
        have hidx : strings[strings.idxOf string]? = some string := by
          rw [List.getElem?_eq_getElem (List.idxOf_lt_length_iff.mpr hmem), List.getElem_idxOf]
        rw [(h.indexes.search_eq hfound h.numEntries.ge _).mpr hidx]
        rfl
    · next hmem =>
        rw [(h.indexes.search_eq_none hfound h.numEntries.ge).mpr hmem]
        rfl

theorem grow_room (h : pool.numEntries ≤ pool.size) : pool.grow.numEntries < pool.grow.size := by
  rw [NrStrpool.grow]
  split
  · next hfull =>
      show pool.numEntries < pool.size + nrStrpoolIncreaseSize
      rw [hfull]
      exact Nat.lt_add_of_pos_right (by decide)
  · omega

/-- A string that is there keeps its index, another one gets the next. -/
theorem NrStrpool.Holds.nrStringAddInternal (h : pool.Holds mkhash strings) (string : CString) :
    (Util.nrStringAddInternal pool string (mkhash string) string.1.length).1.Holds mkhash
        (withString strings string) ∧
      (Util.nrStringAddInternal pool string (mkhash string) string.1.length).2 =
        (withString strings string).idxOf string + 1 := by
  have hgrow := h.grow
  have hroom := grow_room h.size
  rw [Util.nrStringAddInternal, withString]
  simp only [hgrow.addPosition_eq string]
  by_cases hmem : string ∈ strings
  · simp only [if_pos hmem]
    exact ⟨hgrow, trivial⟩
  · obtain ⟨table, rest, hwith, hbytes, hvalid, hbegins⟩ :=
      withRoom_spec hgrow.tables (string.1.length + 1)
    simp only [if_neg hmem, store_linkFrom_eq hwith]
    constructor
    · refine hgrow.added hroom hmem ?_ (le_refl pool.grow.numEntries) hbytes hvalid hbegins
      split <;> rfl
    · rw [List.idxOf_append_of_notMem hmem, hgrow.numEntries]
      simp

end Holding

/-! ### Runs -/

inductive PoolCall
  | add (string : CString)
  | find (string : CString)

def PoolCall.string : PoolCall → CString
  | .add string => string
  | .find string => string

def execCall (pool : NrStrpool) : PoolCall → NrStrpool
  | .add string => (nrStringAdd pool string).1
  | .find _ => pool

/-- A call with its `int`s. -/
def Sized.execCall (s : Checked NrStrpool) (call : PoolCall) : Checked NrStrpool := do
  let pool ← s
  match call with
  | .add string => Prod.fst <$> Sized.nrStringAdd pool string
  | .find string => (fun _ => pool) <$> Sized.nrStringFind pool string

/-- The strings that were added, each where it was added first. -/
def firstInsertions (strings : List CString) : List PoolCall → List CString
  | [] => strings
  | .add string :: calls => firstInsertions (withString strings string) calls
  | .find _ :: calls => firstInsertions strings calls

theorem mem_withString {strings : List CString} {string string' : CString} :
    string' ∈ withString strings string ↔ string' ∈ strings ∨ string' = string := by
  rw [withString]
  split
  · next hmem =>
      constructor
      · exact Or.inl
      · rintro (hold | rfl)
        · exact hold
        · exact hmem
  · simp

theorem prefix_withString (strings : List CString) (string : CString) :
    strings <+: withString strings string := by
  rw [withString]
  split
  · exact List.prefix_refl _
  · exact List.prefix_append _ _

theorem mem_firstInsertions {strings : List CString} {calls : List PoolCall} {string : CString} :
    string ∈ firstInsertions strings calls ↔ string ∈ strings ∨ .add string ∈ calls := by
  induction calls generalizing strings with
  | nil => simp [firstInsertions]
  | cons call calls ih =>
      cases call with
      | add string' => simp [firstInsertions, ih, mem_withString, or_assoc]
      | find string' => simp [firstInsertions, ih]

theorem prefix_firstInsertions (strings : List CString) (calls : List PoolCall) :
    strings <+: firstInsertions strings calls := by
  induction calls generalizing strings with
  | nil => exact List.prefix_refl _
  | cons call calls ih =>
      cases call with
      | add string => exact (prefix_withString strings string).trans (ih _)
      | find string => exact ih _

theorem firstInsertions_append (strings : List CString) (calls later : List PoolCall) :
    firstInsertions strings (calls ++ later) =
      firstInsertions (firstInsertions strings calls) later := by
  induction calls generalizing strings with
  | nil => rfl
  | cons call calls ih => cases call <;> exact ih _

/-- After any calls the pool holds what was added, in the order of the first
insertions. -/
theorem execCall_holds {pool : NrStrpool} {strings : List CString}
    (h : pool.Holds (fun string => nrMkhash string) strings) (calls : List PoolCall) :
    (runFrom execCall pool calls).Holds (fun string => nrMkhash string)
      (firstInsertions strings calls) := by
  induction calls generalizing pool strings with
  | nil => exact h
  | cons call calls ih =>
      cases call with
      | add string => exact ih (h.nrStringAddInternal string).1
      | find string => exact ih h

theorem NrStrpool.Holds.nrStringGet_eq {mkhash : CString → UInt32} {pool : NrStrpool}
    {strings : List CString} (h : pool.Holds mkhash strings) (i : ℕ) :
    nrStringGet pool (i + 1) = strings[i]?.map Subtype.val := by
  rw [nrStringGet]
  split
  · next hout =>
      rw [List.getElem?_eq_none (by rw [← h.numEntries]; omega)]
      rfl
  · next hin =>
      obtain ⟨string, hstring⟩ := h.exists_string (i := i) (by omega)
      rw [h.string_eq hstring, hstring]
      rfl

/-! ### Runs with `int`s -/

theorem size_nrStringAddInternal (pool : NrStrpool) (string : Bytes) (hash : UInt32)
    (length : ℕ) :
    (nrStringAddInternal pool string hash length).1.size = pool.grow.size ∧
      pool.numEntries ≤ (nrStringAddInternal pool string hash length).1.numEntries := by
  have hgrow : pool.grow.numEntries = pool.numEntries := by
    rw [NrStrpool.grow]
    split <;> rfl
  have hstore : ∀ (pool : NrStrpool) (newString : ℕ),
      (pool.store newString string).size = pool.size ∧
        (pool.store newString string).numEntries = pool.numEntries := fun pool newString => by
    rw [NrStrpool.store]
    split <;> exact ⟨rfl, rfl⟩
  have hlink : ∀ (pool : NrStrpool) (parent newString : ℕ),
      (pool.linkFrom parent hash newString).size = pool.size ∧
        (pool.linkFrom parent hash newString).numEntries = pool.numEntries :=
    fun pool parent newString => by
      rw [NrStrpool.linkFrom]
      split <;> exact ⟨rfl, rfl⟩
  simp only [nrStringAddInternal]
  split
  · exact ⟨rfl, hgrow.ge⟩
  · rw [(hlink _ _ _).1, (hlink _ _ _).2, (hstore _ _).1, (hstore _ _).2]
    exact ⟨rfl, hgrow ▸ Nat.le_succ _⟩

/-- The arrays have room for no more than one step beyond what they need. -/
theorem size_grow_le {pool : NrStrpool} (h : pool.size ≤ pool.numEntries + nrStrpoolIncreaseSize) :
    pool.grow.size ≤ pool.numEntries + nrStrpoolIncreaseSize := by
  rw [NrStrpool.grow]
  split
  · next hfull => exact (congrArg (· + nrStrpoolIncreaseSize) hfull).le
  · exact h

/-- A string whose length and zero an `int` can count is found as it is. -/
theorem Sized.nrStringFind_eq (pool : NrStrpool) {string : CString}
    (hlen : string.1.length < 2 ^ 31 - 1) :
    Sized.nrStringFind pool string = .ok (Util.nrStringFind pool string) := by
  rw [Sized.nrStringFind, nrMkhashLen_string string.2 (by omega), ok_bind]
  simp only [if_neg (not_lt.mpr (Int.natCast_nonneg _)), Int.toNat_natCast]
  rfl

theorem Sized.nrStringAdd_eq {pool : NrStrpool} {string : CString}
    (hlen : string.1.length < 2 ^ 31 - 1)
    (hsize : pool.size ≤ pool.numEntries + nrStrpoolIncreaseSize)
    (hfits : pool.numEntries + nrStrpoolIncreaseSize < 2 ^ 31) :
    Sized.nrStringAdd pool string = .ok (Util.nrStringAdd pool string) := by
  have hgrow := size_grow_le hsize
  have hint : CMemory.int ((Util.nrStringAdd pool string).1.size : ℤ) =
      .ok ((Util.nrStringAdd pool string).1.size : ℤ) := by
    rw [Util.nrStringAdd, (size_nrStringAddInternal ..).1]
    exact CMemory.int_of_range (by omega) (by omega)
  have hrequired : CMemory.int (string.1.length + 1) = .ok (string.1.length + 1 : ℤ) :=
    CMemory.int_of_range (by omega) (by omega)
  rw [Sized.nrStringAdd, nrMkhashLen_string string.2 (by omega), ok_bind]
  simp only [if_neg (not_lt.mpr (Int.natCast_nonneg _)), Int.toNat_natCast]
  rw [Util.nrStringAdd] at hint ⊢
  rw [hint, ok_bind, hrequired, ok_bind, if_neg (lt_irrefl _), ite_self]

/-- A run with short strings, of which there are not too many, is the run without widths. -/
theorem Sized.runFrom_eq {pool : NrStrpool} {strings : List CString}
    (h : pool.Holds (fun string => nrMkhash string) strings)
    (hsize : pool.size ≤ pool.numEntries + nrStrpoolIncreaseSize) {calls : List PoolCall}
    (hlen : ∀ call ∈ calls, call.string.1.length < 2 ^ 31 - 1)
    (hfits : (firstInsertions strings calls).length + nrStrpoolIncreaseSize < 2 ^ 31) :
    runFrom Sized.execCall (.ok pool) calls = .ok (runFrom Util.execCall pool calls) ∧
      (runFrom Util.execCall pool calls).size ≤
        (runFrom Util.execCall pool calls).numEntries + nrStrpoolIncreaseSize := by
  induction calls generalizing pool strings with
  | nil => exact ⟨rfl, hsize⟩
  | cons call calls ih =>
      obtain ⟨hcall, hcalls⟩ := List.forall_mem_cons.mp hlen
      cases call with
      | add string =>
          have hle := ((prefix_withString strings string).trans
            (prefix_firstInsertions _ calls)).length_le
          have hnumber := h.numEntries
          have hadd := Sized.nrStringAdd_eq hcall hsize
            (by rw [hnumber]; exact (Nat.add_le_add_right hle _).trans_lt hfits)
          obtain ⟨hholds, -⟩ := h.nrStringAddInternal string
          have hsize' : (nrStringAddInternal pool string (nrMkhash string) string.1.length).1.size ≤
              (nrStringAddInternal pool string (nrMkhash string) string.1.length).1.numEntries +
                nrStrpoolIncreaseSize := by
            obtain ⟨heq, hle'⟩ :=
              size_nrStringAddInternal pool string (nrMkhash string) string.1.length
            rw [heq]
            exact (size_grow_le hsize).trans (Nat.add_le_add_right hle' _)
          have hexec : Sized.execCall (.ok pool) (.add string) =
              .ok (Util.execCall pool (.add string)) := by
            rw [Sized.execCall, ok_bind]
            exact congrArg (Prod.fst <$> ·) hadd
          rw [runFrom_cons, runFrom_cons, hexec]
          exact ih hholds hsize' hcalls hfits
      | find string =>
          have hexec : Sized.execCall (.ok pool) (.find string) = .ok pool := by
            rw [Sized.execCall, ok_bind]
            exact congrArg ((fun _ => pool) <$> ·) (Sized.nrStringFind_eq pool hcall)
          rw [runFrom_cons, runFrom_cons, hexec]
          exact ih h hsize hcalls hfits

/-- A string pool numbers the strings that were added to it, from 1 on and in
the order of their first insertion: adding or finding a string gives its
number, finding any other string gives 0, and a number gives its string, now
and after all further calls. The strings and their number are ones that `int`
can count. -/
theorem stringPool_numbers (calls later : List PoolCall)
    (hlen : ∀ call ∈ calls ++ later, call.string.1.length < 2 ^ 31 - 1)
    (hfits : (firstInsertions [] (calls ++ later)).length + nrStrpoolIncreaseSize < 2 ^ 31) :
    let strings := firstInsertions [] calls
    ∃ pool, runFrom Sized.execCall (.ok nrStringPoolCreate) calls = .ok pool ∧
      strings.Nodup ∧ (∀ string, string ∈ strings ↔ .add string ∈ calls) ∧
      pool.numEntries = strings.length ∧
      (∀ string : CString, string.1.length < 2 ^ 31 - 1 →
        ∃ pool', Sized.nrStringAdd pool string =
          .ok (pool', if string ∈ strings then strings.idxOf string + 1
            else strings.length + 1)) ∧
      (∀ string : CString, string.1.length < 2 ^ 31 - 1 → Sized.nrStringFind pool string =
        .ok (if string ∈ strings then strings.idxOf string + 1 else 0)) ∧
      nrStringGet pool 0 = none ∧
      (∀ i, nrStringGet pool (i + 1) = strings[i]?.map Subtype.val) ∧
      ∃ pool', runFrom Sized.execCall (.ok pool) later = .ok pool' ∧
        ∀ i string, nrStringGet pool i = some string → nrStringGet pool' i = some string := by
  intro strings
  have hsplit : firstInsertions [] (calls ++ later) = firstInsertions strings later :=
    firstInsertions_append [] calls later
  rw [hsplit] at hfits
  obtain ⟨hcalls, hafter⟩ := List.forall_mem_append.mp hlen
  have hle := (prefix_firstInsertions strings later).length_le
  have h := execCall_holds nrStringPoolCreate_holds calls
  have hlater := execCall_holds h later
  obtain ⟨hrun, hsize⟩ := Sized.runFrom_eq nrStringPoolCreate_holds (by decide) hcalls
    ((Nat.add_le_add_right hle _).trans_lt hfits)
  have hroom : (runFrom execCall nrStringPoolCreate calls).numEntries + nrStrpoolIncreaseSize <
      2 ^ 31 := by
    rw [h.numEntries]
    exact (Nat.add_le_add_right hle _).trans_lt hfits
  have hrest := (Sized.runFrom_eq h hsize hafter hfits).1
  refine ⟨_, hrun, h.indexes.nodup, fun string => by simp [strings, mem_firstInsertions],
    h.numEntries, fun string hshort => ?_, fun string hshort => ?_, rfl, h.nrStringGet_eq,
    _, hrest, fun i string hget => ?_⟩
  · rw [Sized.nrStringAdd_eq hshort hsize hroom]
    refine ⟨_, congrArg Except.ok (Prod.ext rfl ?_)⟩
    have hindex := (h.nrStringAddInternal string).2
    rw [withString] at hindex
    by_cases hmem : string ∈ strings
    · rw [if_pos hmem] at hindex ⊢
      exact hindex
    · rw [if_neg hmem, List.idxOf_append_of_notMem hmem] at hindex
      rw [if_neg hmem]
      simp only [List.idxOf_cons_self, Nat.add_zero] at hindex
      exact hindex
  · rw [Sized.nrStringFind_eq _ hshort]
    exact congrArg Except.ok (h.nrStringFindInternal_eq string)
  · cases i with
    | zero => cases hget
    | succ i =>
        rw [h.nrStringGet_eq] at hget
        rw [hlater.nrStringGet_eq]
        obtain ⟨stored, hstored, rfl⟩ := Option.map_eq_some_iff.mp hget
        obtain ⟨more, hmore⟩ := prefix_firstInsertions strings later
        rw [← hmore, List.getElem?_append_left (List.getElem?_eq_some_iff.mp hstored).1, hstored]
        rfl

/-- A string that is added, and one that is not found. -/
theorem stringPool_numbers_two : ∃ pool, runFrom Sized.execCall (.ok nrStringPoolCreate)
      [.add (lettersA 1)] = .ok pool ∧
    Sized.nrStringFind pool (lettersA 2) = .ok 0 ∧ nrStringGet pool 1 = some [0x61] := by
  obtain ⟨pool, hrun, -, -, -, -, hfind, -, hget, -⟩ := stringPool_numbers [.add (lettersA 1)]
    [.find (lettersA 2)] (by decide) (by decide)
  exact ⟨pool, hrun, hfind (lettersA 2) (by decide), hget 0⟩

/-- A string of `2 ^ 31` bytes has a negative length: it is not added, and gets no number. -/
theorem longString_not_added :
    Sized.nrStringAdd nrStringPoolCreate (lettersA (2 ^ 31)) = .ok (nrStringPoolCreate, 0) := by
  obtain ⟨n, hn⟩ : ∃ n, n + 1 = 2 ^ 31 := ⟨2 ^ 31 - 1, rfl⟩
  have hletters : terminated (lettersA (n + 1)).1 = 0x61 :: terminated (lettersA n).1 := rfl
  have hlength : mkhashLength (terminated (lettersA (n + 1)).1) 0 = .ok (-2 ^ 31) := by
    rw [mkhashLength, if_pos rfl, CMemory.nrStrlenAt_terminated (lettersA (n + 1)).2]
    change Except.ok (CMemory.sizeToInt (List.replicate (n + 1) (0x61 : UInt8)).length) = _
    rw [List.length_replicate, hn]
    rfl
  rw [hletters] at hlength
  rw [← hn, Sized.nrStringAdd, hletters, nrMkhashLen_of_neg (by decide) hlength (by decide),
    if_pos (by decide), ok_bind]
  exact if_pos (by decide)

/-! ### The pools of the traces

The strings of a transaction trace are a list in `SegmentTraces`, which is
what a pool is to its users. -/

theorem idxOf_map_val (strings : List CString) (string : CString) :
    (strings.map Subtype.val).idxOf string.1 = strings.idxOf string := by
  induction strings with
  | nil => rfl
  | cons first strings ih =>
      rw [List.map_cons, List.idxOf_cons, List.idxOf_cons, ih]
      congr 1

theorem nrStringAdd_refines {pool : NrStrpool} {strings : List CString}
    (h : pool.Holds (fun string => nrMkhash string) strings) (string : CString) :
    (nrStringAdd pool string).1.Holds (fun string => nrMkhash string) (withString strings string) ∧
      Axiom.nrStringAdd (strings.map Subtype.val) string =
        ((withString strings string).map Subtype.val, (nrStringAdd pool string).2) := by
  obtain ⟨hholds, hindex⟩ := h.nrStringAddInternal string
  refine ⟨hholds, ?_⟩
  rw [nrStringAdd, hindex, withString, Axiom.nrStringAdd, idxOf_map_val]
  have hmem : string.1 ∈ strings.map Subtype.val ↔ string ∈ strings := by
    simp [string.2]
  by_cases hin : string ∈ strings
  · rw [if_pos hin, if_pos (hmem.mpr hin)]
  · rw [if_neg hin, if_neg (mt hmem.mp hin), List.idxOf_append_of_notMem hin]
    simp

theorem nrStringGet_refines {mkhash : CString → UInt32} {pool : NrStrpool}
    {strings : List CString} (h : pool.Holds mkhash strings) (idx : ℕ) :
    Axiom.nrStringGet (strings.map Subtype.val) idx = nrStringGet pool idx := by
  cases idx with
  | zero => rfl
  | succ i =>
      rw [h.nrStringGet_eq, Axiom.nrStringGet, if_neg (Nat.succ_ne_zero i), Nat.add_sub_cancel,
        List.getElem?_map]

end AxiomDaemon.Util

import AxiomDaemon.Axiom.HeaderRoundTrip
import AxiomDaemon.Lib.Block
import AxiomDaemon.Lib.CText
import AxiomDaemon.Lib.Transition
import Mathlib.Data.List.Dedup
import Mathlib.Data.List.TakeDrop

/-!
The alternate path hashes of a transaction, `nr_txn.c`: the path hashes that it gave out
before the one that it has now, sorted and written into one string.

Sorting is `qsort`, which the calls bring along. Lengths are taken to be numbers without
bound.
-/

namespace AxiomDaemon.Axiom

open AxiomDaemon.Lib AxiomDaemon.Util AxiomDaemon.Lib.CText

/-! ### Writing behind a string -/

/-- `nr_strcat`, of strings that are not `NULL`: the block afterwards. -/
def nrStrcat (dest src : Bytes) : Checked Bytes := do
  let dl ← strlen dest
  let sl ← strlen src
  if dl + (sl + 1) ≤ dest.length then return blockCopy dest dl (src.take (sl + 1))
  else throw .write

theorem strlen_append_zero {text : Bytes} (h : 0 ∉ text) (rest : Bytes) :
    strlen (text ++ 0 :: rest) = .ok text.length := by
  induction text with
  | nil => rfl
  | cons b text ih =>
      obtain ⟨hb, htext⟩ := not_or.mp (mt List.mem_cons.mpr h)
      rw [List.cons_append, strlen, if_neg (Ne.symm hb), ih htext, map_ok, List.length_cons]

/-- What is written behind a text takes the place of what stands there. -/
theorem nrStrcat_eq {text src rest : Bytes} (htext : 0 ∉ text) (hsrc : 0 ∉ src)
    (hfit : src.length ≤ rest.length) :
    nrStrcat (text ++ 0 :: rest) (terminated src) =
      .ok (text ++ src ++ 0 :: rest.drop src.length) := by
  have hroom : text.length + (src.length + 1) ≤ (text ++ 0 :: rest).length := by
    rw [List.length_append, List.length_cons]
    omega
  have hlength : (terminated src).length = src.length + 1 := List.length_append
  rw [nrStrcat, strlen_append_zero htext, ok_bind, terminated, strlen_append_zero hsrc, ok_bind,
    if_pos hroom, ← terminated, List.take_of_length_le (Nat.le_of_eq hlength), blockCopy,
    List.take_left, hlength, List.drop_length_add_append, List.drop_succ_cons, terminated]
  simp only [List.append_assoc, List.cons_append, List.nil_append]
  rfl

/-! ### Collecting the hashes -/

/-- `struct hash_state`: `hashes` is what is used of the array. -/
structure HashState where
  length : ℕ
  capacity : ℤ
  used : ℕ
  hashes : List Bytes
  pathHash : Option Bytes
  used_eq : used = hashes.length

theorem used_nil : 0 = ([] : List Bytes).length := rfl

/-- The loop of `nro_iteratehash`. -/
def iterateEntries {σ : Type} (func : Bytes → NrObj → σ → NrStatus × σ) :
    List (Bytes × NrObj) → σ → σ
  | [], ptr => ptr
  | (key, val) :: entries, ptr =>
      match func key val ptr with
      | (.failure, ptr) => ptr
      | (.success, ptr) => iterateEntries func entries ptr

/-- `nro_iteratehash`. -/
def nroIteratehash {σ : Type} (func : Bytes → NrObj → σ → NrStatus × σ) (obj : NrObj) (ptr : σ) :
    σ :=
  match obj with
  | .hash entries => iterateEntries func entries ptr
  | _ => ptr

/-- `nr_txn_iter_path_hash`. A hash that is `NULL` is no key. -/
def nrTxnIterPathHash (key : Bytes) (_val : NrObj) (hashState : HashState) :
    NrStatus × HashState :=
  if hashState.capacity ≤ hashState.used then (.failure, hashState)
  else if hashState.pathHash = some key then (.success, hashState)
  else
    (.success,
      { hashState with
        hashes := hashState.hashes ++ [key]
        length := hashState.length + key.length
        used := hashState.used + 1
        used_eq := by rw [hashState.used_eq, List.length_append, List.length_singleton] })

/-- `nr_txn_compare_path_hashes`. -/
def nrTxnComparePathHashes (a b : Bytes) : Ordering := compare a b

/-- `,`, before all hashes but the first. -/
def writeComma (i : ℕ) (result : Bytes) : Checked Bytes :=
  if 0 < i then nrStrcat result (terminated [Json.comma]) else return result

/-- The loop that writes the hashes from the one at `i` on. -/
def writeHashes (i : ℕ) : List Bytes → Bytes → Checked Bytes
  | [], result => return result
  | hash :: hashes, result => do
      let result ← writeComma i result
      let result ← nrStrcat result (terminated hash)
      writeHashes (i + 1) hashes result

/-- `nr_txn_get_alternate_path_hashes`: the block that the string is written to. -/
def nrTxnGetAlternatePathHashes (md5Low32 : Bytes → UInt32)
    (qsort : (Bytes → Bytes → Ordering) → List Bytes → List Bytes) (txn : CatTxn) :
    Checked (Option Bytes) :=
  let capacity := nroGetsize (some txn.cat.alternatePathHashes)
  if capacity = 0 then return none
  else
    let hashState := nroIteratehash nrTxnIterPathHash txn.cat.alternatePathHashes
      { length := 0
        capacity := capacity
        used := 0
        hashes := []
        pathHash := nrTxnCurrentPathHash md5Low32 txn
        used_eq := used_nil }
    if hashState.used = 0 then return none
    else
      let hashes := qsort nrTxnComparePathHashes hashState.hashes
      some <$> writeHashes 0 hashes (List.replicate (hashState.length + hashState.used) 0)

/-! ### What is collected and written -/

/-- All hashes but the one of the path are collected, with the sum of their lengths. -/
theorem iterateEntries_pathHash (keys : List Bytes) (val : NrObj) (hashState : HashState)
    (hcapacity : hashState.used + keys.length ≤ hashState.capacity) :
    ((iterateEntries nrTxnIterPathHash (keys.map (·, val)) hashState).hashes =
        hashState.hashes ++ keys.filter (some · ≠ hashState.pathHash)) ∧
      (iterateEntries nrTxnIterPathHash (keys.map (·, val)) hashState).length =
        hashState.length +
          ((keys.filter (some · ≠ hashState.pathHash)).map List.length).sum := by
  induction keys generalizing hashState with
  | nil => exact ⟨(List.append_nil _).symm, rfl⟩
  | cons key keys ih =>
      rw [List.length_cons] at hcapacity
      rw [List.map_cons, iterateEntries, nrTxnIterPathHash, if_neg (by omega)]
      by_cases hcurrent : hashState.pathHash = some key
      · rw [if_pos hcurrent, List.filter_cons_of_neg (by simp [hcurrent])]
        exact ih hashState (by omega)
      · rw [if_neg hcurrent, List.filter_cons_of_pos (by simpa using Ne.symm hcurrent)]
        obtain ⟨hhashes, hlength⟩ := ih
          { hashState with
            hashes := hashState.hashes ++ [key]
            length := hashState.length + key.length
            used := hashState.used + 1
            used_eq := by rw [hashState.used_eq, List.length_append, List.length_singleton] }
          (by push_cast; omega)
        refine ⟨hhashes.trans (List.append_assoc _ _ _), hlength.trans ?_⟩
        rw [List.map_cons, List.sum_cons, Nat.add_assoc]

/-- What is written for hashes that are not the first. -/
def withCommas (hashes : List Bytes) : Bytes := hashes.flatMap (Json.comma :: ·)

theorem withCommas_cons (hash : Bytes) (hashes : List Bytes) :
    withCommas (hash :: hashes) = Json.comma :: hash ++ withCommas hashes :=
  List.flatMap_cons

theorem intercalate_cons_withCommas (hash : Bytes) (hashes : List Bytes) :
    [Json.comma].intercalate (hash :: hashes) = hash ++ withCommas hashes := by
  induction hashes generalizing hash with
  | nil => rw [List.intercalate_singleton, withCommas, List.flatMap_nil, List.append_nil]
  | cons next hashes ih =>
      rw [List.intercalate_cons_cons, ih, withCommas_cons, List.append_assoc]
      rfl

theorem length_withCommas (hashes : List Bytes) :
    (withCommas hashes).length = (hashes.map List.length).sum + hashes.length := by
  induction hashes with
  | nil => rfl
  | cons hash hashes ih =>
      rw [withCommas_cons, List.length_append, ih, List.length_cons, List.map_cons,
        List.sum_cons, List.length_cons]
      omega

theorem writeHashes_succ {hashes : List Bytes} (hzero : ∀ hash ∈ hashes, (0 : UInt8) ∉ hash)
    {text rest : Bytes} (htext : 0 ∉ text) (hrest : rest.length = (withCommas hashes).length)
    (i : ℕ) : writeHashes (i + 1) hashes (text ++ 0 :: rest) =
      .ok (terminated (text ++ withCommas hashes)) := by
  induction hashes generalizing text rest i with
  | nil =>
      rw [List.length_eq_zero_iff.mp hrest, withCommas, List.flatMap_nil, List.append_nil]
      rfl
  | cons hash hashes ih =>
      obtain ⟨hhash, hhashes⟩ := List.forall_mem_cons.mp hzero
      rw [withCommas_cons, List.length_append, List.length_cons] at hrest
      have hcomma : (0 : UInt8) ∉ [Json.comma] := by decide
      have htext' : (0 : UInt8) ∉ text ++ [Json.comma] :=
        fun h => (List.mem_append.mp h).elim htext hcomma
      have htext'' : (0 : UInt8) ∉ text ++ [Json.comma] ++ hash :=
        fun h => (List.mem_append.mp h).elim htext' hhash
      rw [writeHashes, writeComma, if_pos (Nat.succ_pos i),
        nrStrcat_eq htext hcomma (by rw [List.length_singleton]; omega), ok_bind,
        nrStrcat_eq htext' hhash
          (by rw [List.length_drop, List.length_singleton]; omega), ok_bind,
        ih hhashes htext''
          (by rw [List.length_drop, List.length_drop, List.length_singleton]; omega),
        withCommas_cons]
      simp only [List.append_assoc, List.cons_append, List.nil_append]

/-- The block that is as long as the hashes, and one byte for each, holds them, the commas
between them and the zero behind. -/
theorem writeHashes_eq {hashes : List Bytes} (hne : hashes ≠ [])
    (hzero : ∀ hash ∈ hashes, (0 : UInt8) ∉ hash) :
    writeHashes 0 hashes
        (List.replicate ((hashes.map List.length).sum + hashes.length) 0) =
      .ok (terminated ([Json.comma].intercalate hashes)) := by
  cases hashes with
  | nil => exact absurd rfl hne
  | cons hash hashes =>
      obtain ⟨hhash, hhashes⟩ := List.forall_mem_cons.mp hzero
      have hblock : List.replicate
          (((hash :: hashes).map List.length).sum + (hash :: hashes).length) (0 : UInt8) =
          [] ++ 0 :: List.replicate (hash.length + (withCommas hashes).length) 0 := by
        rw [length_withCommas, List.map_cons, List.sum_cons, List.length_cons, List.nil_append,
          ← List.replicate_succ]
        congr 1
        omega
      rw [hblock, writeHashes, writeComma, if_neg (Nat.lt_irrefl 0), pure_bind,
        nrStrcat_eq List.not_mem_nil hhash (by rw [List.length_replicate]; omega), ok_bind,
        List.nil_append, writeHashes_succ hhashes hhash
          (by rw [List.length_drop, List.length_replicate]; omega),
        intercalate_cons_withCommas]

/-! ### Path hashes as texts -/

/-- What every path hash is: a string that is not empty and has no comma. -/
structure IsPathHash (hash : Bytes) : Prop where
  ne_nil : hash ≠ []
  zero_notMem : 0 ∉ hash
  comma_notMem : Json.comma ∉ hash

theorem isPathHash_formatHex8 (n : UInt32) : IsPathHash (formatHex8 n) := by
  have hall : ∀ d : Fin 16, hexDigit d.val ≠ 0 ∧ hexDigit d.val ≠ Json.comma := by decide
  have hdigit : ∀ b ∈ formatHex8 n, b ≠ 0 ∧ b ≠ Json.comma := by
    rw [formatHex8, List.forall_mem_map]
    exact fun i _ => hall ⟨n.toNat / 16 ^ (7 - i) % 16, Nat.mod_lt _ (Nat.succ_pos 15)⟩
  constructor
  · intro hnil
    have hlength : (formatHex8 n).length = 8 := by
      rw [formatHex8, List.length_map, List.length_range]
    rw [hnil] at hlength
    cases hlength
  · exact fun h => (hdigit 0 h).1 rfl
  · exact fun h => (hdigit Json.comma h).2 rfl

theorem isPathHash_current {md5Low32 : Bytes → UInt32} {txn : CatTxn} {hash : Bytes}
    (h : nrTxnCurrentPathHash md5Low32 txn = some hash) : IsPathHash hash := by
  rw [nrTxnCurrentPathHash] at h
  cases happ : txn.primaryAppName with
  | none =>
      rw [happ] at h
      cases h
  | some primaryAppName =>
      rw [happ] at h
      rw [← Option.some.inj h]
      exact isPathHash_formatHex8 _

/-! ### Sequences of calls -/

/-- What happens to a transaction: something that changes its path, its name or anything
else but the alternate path hashes, or a call of `nr_txn_get_path_hash`. -/
inductive PathStep
  | change (f : CatTxn → CatTxn)
      (keeps : ∀ txn, (f txn).cat.alternatePathHashes = txn.cat.alternatePathHashes)
  | getPathHash

/-- A transaction, and the path hashes that it gave out, the first one first. -/
structure PathRun where
  txn : CatTxn
  seen : List Bytes

def execPath (md5Low32 : Bytes → UInt32) (run : PathRun) : PathStep → PathRun
  | .change f _ => { run with txn := f run.txn }
  | .getPathHash =>
      let (txn, pathHash) := nrTxnGetPathHash md5Low32 run.txn
      { txn := txn, seen := run.seen ++ pathHash.toList }

/-- A transaction that begins has no path hashes. -/
def beginPath (txn : CatTxn) : PathRun where
  txn := { txn with cat := { txn.cat with alternatePathHashes := .hash [] } }
  seen := []

/-- The hashes that are kept: the first ten. -/
def firstTen (seen : List Bytes) : List Bytes := seen.eraseDups.take 10

/-- What the transaction knows of the hashes that it gave out. -/
structure PathRun.Valid (run : PathRun) : Prop where
  hashes_eq : run.txn.cat.alternatePathHashes =
    .hash ((firstTen run.seen).map (·, NrObj.none))
  isPathHash : ∀ hash ∈ run.seen, IsPathHash hash

theorem setEntry_map_none (key : Bytes) (keys : List Bytes) :
    setEntry key .none (keys.map (·, NrObj.none)) =
      (if key ∈ keys then keys else keys ++ [key]).map (·, NrObj.none) := by
  induction keys with
  | nil => rfl
  | cons k keys ih =>
      rw [List.map_cons, setEntry]
      by_cases hkey : k = key
      · rw [if_pos hkey, if_pos (List.mem_cons.mpr (.inl hkey.symm)), List.map_cons, hkey]
      · have hmem : key ∈ k :: keys ↔ key ∈ keys := by
          rw [List.mem_cons, or_iff_right (Ne.symm hkey)]
        rw [if_neg hkey, ih, if_congr hmem rfl rfl]
        split
        · rfl
        · rfl

theorem eraseDups_concat (seen : List Bytes) (hash : Bytes) :
    (seen ++ [hash]).eraseDups =
      if hash ∈ seen then seen.eraseDups else seen.eraseDups ++ [hash] := by
  rw [List.eraseDups_append, List.removeAll]
  by_cases hmem : hash ∈ seen
  · rw [if_pos hmem, List.filter_cons_of_neg (by simpa using hmem), List.filter_nil]
    exact List.append_nil _
  · rw [if_neg hmem, List.filter_cons_of_pos (by simpa using hmem), List.filter_nil]
    rfl

theorem nodup_eraseDups (seen : List Bytes) : seen.eraseDups.Nodup := by
  induction seen using List.reverseRecOn with
  | nil => exact List.nodup_nil
  | append_singleton seen hash ih =>
      rw [eraseDups_concat]
      split
      · exact ih
      · next hmem =>
          rw [← List.concat_eq_append]
          apply ih.concat
          rwa [List.mem_eraseDups]

theorem length_firstTen_le (seen : List Bytes) : (firstTen seen).length ≤ 10 :=
  List.length_take_le _ _

theorem mem_of_mem_firstTen {seen : List Bytes} {hash : Bytes} (h : hash ∈ firstTen seen) :
    hash ∈ seen :=
  List.mem_eraseDups.mp (List.mem_of_mem_take h)

/-- The first ten of the hashes grow as the transaction adds to what it has. -/
theorem firstTen_concat (seen : List Bytes) (hash : Bytes) :
    firstTen (seen ++ [hash]) =
      if 10 ≤ (firstTen seen).length then firstTen seen
      else if hash ∈ firstTen seen then firstTen seen else firstTen seen ++ [hash] := by
  unfold firstTen
  rw [eraseDups_concat, List.length_take]
  by_cases hfull : 10 ≤ seen.eraseDups.length
  · rw [if_pos (le_min (Nat.le_refl 10) hfull)]
    split
    · rfl
    · exact List.take_append_of_le_length hfull
  · have hshort : seen.eraseDups.length ≤ 10 := by omega
    have htake : seen.eraseDups.take 10 = seen.eraseDups := List.take_of_length_le hshort
    rw [Nat.min_eq_right hshort, if_neg hfull, htake]
    simp only [List.mem_eraseDups]
    by_cases hmem : hash ∈ seen
    · rw [if_pos hmem]
      exact htake
    · rw [if_neg hmem]
      apply List.take_of_length_le
      rw [List.length_append, List.length_singleton]
      omega

theorem PathRun.Valid.execPath {md5Low32 : Bytes → UInt32} {run : PathRun} (h : run.Valid)
    (step : PathStep) : (execPath md5Low32 run step).Valid := by
  cases step with
  | change f keeps => exact ⟨(keeps run.txn).trans h.hashes_eq, h.isPathHash⟩
  | getPathHash =>
      unfold Axiom.execPath nrTxnGetPathHash
      cases hcurrent : nrTxnCurrentPathHash md5Low32 run.txn with
      | none =>
          simp only [nrTxnAddAlternatePathHash, Option.toList_none, List.append_nil]
          exact ⟨h.hashes_eq, h.isPathHash⟩
      | some hash =>
          have hhash := isPathHash_current hcurrent
          obtain ⟨b, bs, rfl⟩ := List.exists_cons_of_ne_nil hhash.ne_nil
          refine ⟨?_, fun hash hmem => ?_⟩
          · simp only [nrTxnAddAlternatePathHash, Option.toList_some, h.hashes_eq, nroGetsize,
              List.length_map, firstTen_concat, Nat.ofNat_le_cast]
            split
            · exact h.hashes_eq
            · rw [← setEntry_map_none]
              rfl
          · rcases List.mem_append.mp hmem with hseen | hlast
            · exact h.isPathHash hash hseen
            · rw [Option.toList_some, List.mem_singleton] at hlast
              rw [hlast]
              exact hhash

theorem runFrom_valid (md5Low32 : Bytes → UInt32) (txn : CatTxn) (steps : List PathStep) :
    (runFrom (execPath md5Low32) (beginPath txn) steps).Valid := by
  have hbegin : (beginPath txn).Valid := ⟨rfl, List.forall_mem_nil _⟩
  have hthroughout : Throughout (execPath md5Low32) PathRun.Valid (beginPath txn) steps :=
    throughout_of_along (fun _ step h _ => h.execPath step) hbegin (along_true _ _)
  exact hthroughout.last

/-! ### The alternate path hashes -/

/-- What is known of `qsort`: it permutes, and sorts by any order. -/
structure Sorts (qsort : (Bytes → Bytes → Ordering) → List Bytes → List Bytes) : Prop where
  perm : ∀ cmp hashes, (qsort cmp hashes).Perm hashes
  sorted : ∀ cmp hashes, Std.TransCmp cmp →
    (qsort cmp hashes).Pairwise fun a b => (cmp a b).isLE

/-- The hashes that the transaction has, without the one of its path. -/
def alternates (md5Low32 : Bytes → UInt32) (run : PathRun) : List Bytes :=
  (firstTen run.seen).filter (some · ≠ nrTxnCurrentPathHash md5Low32 run.txn)

theorem nodup_alternates (md5Low32 : Bytes → UInt32) (run : PathRun) :
    (alternates md5Low32 run).Nodup :=
  ((nodup_eraseDups run.seen).sublist (List.take_sublist _ _)).filter _

theorem Sorts.pairwise_lt {qsort : (Bytes → Bytes → Ordering) → List Bytes → List Bytes}
    (hqsort : Sorts qsort) {hashes : List Bytes} (hnodup : hashes.Nodup) :
    (qsort nrTxnComparePathHashes hashes).Pairwise fun a b => nrTxnComparePathHashes a b = .lt := by
  have htrans : Std.TransCmp nrTxnComparePathHashes := inferInstanceAs
    (Std.TransCmp fun a b : Bytes => compare a b)
  have hle := hqsort.sorted nrTxnComparePathHashes hashes htrans
  have hne : (qsort nrTxnComparePathHashes hashes).Pairwise (· ≠ ·) :=
    (hqsort.perm nrTxnComparePathHashes hashes).nodup_iff.mpr hnodup
  refine (hle.and hne).imp fun {a b} h => ?_
  cases hcmp : nrTxnComparePathHashes a b with
  | lt => rfl
  | eq => exact absurd (Std.LawfulEqOrd.eq_of_compare hcmp) h.2
  | gt =>
      rw [hcmp] at h
      exact absurd h.1 Bool.false_ne_true

theorem nrTxnGetAlternatePathHashes_eq {md5Low32 : Bytes → UInt32}
    {qsort : (Bytes → Bytes → Ordering) → List Bytes → List Bytes} (hqsort : Sorts qsort)
    {run : PathRun} (h : run.Valid) :
    nrTxnGetAlternatePathHashes md5Low32 qsort run.txn =
      .ok (if alternates md5Low32 run = [] then none
        else some (terminated ([Json.comma].intercalate
          (qsort nrTxnComparePathHashes (alternates md5Low32 run))))) := by
  have hsize : nroGetsize (some run.txn.cat.alternatePathHashes) =
      ((firstTen run.seen).length : ℤ) := by
    rw [h.hashes_eq, nroGetsize, List.length_map]
  unfold nrTxnGetAlternatePathHashes
  rw [hsize, h.hashes_eq]
  dsimp only [nroIteratehash]
  by_cases hempty : firstTen run.seen = []
  · have hnone : alternates md5Low32 run = [] := by rw [alternates, hempty, List.filter_nil]
    rw [if_pos hnone, if_pos (by rw [hempty]; rfl)]
    rfl
  · have hlength : ((firstTen run.seen).length : ℤ) ≠ 0 :=
      Int.natCast_ne_zero.mpr (mt List.length_eq_zero_iff.mp hempty)
    rw [if_neg hlength]
    -- one pass collects the hashes, and with them the size of the block
    generalize hstate : iterateEntries nrTxnIterPathHash
      ((firstTen run.seen).map (·, NrObj.none)) _ = hashState
    have hcollect := iterateEntries_pathHash (firstTen run.seen) .none
      { length := 0
        capacity := (firstTen run.seen).length
        used := 0
        hashes := []
        pathHash := nrTxnCurrentPathHash md5Low32 run.txn
        used_eq := rfl } (by simp)
    rw [hstate, List.nil_append, Nat.zero_add] at hcollect
    obtain ⟨hhashes, hsum⟩ := hcollect
    change hashState.hashes = alternates md5Low32 run at hhashes
    have hused : hashState.used = (alternates md5Low32 run).length := by
      rw [hashState.used_eq, hhashes]
    have hperm := hqsort.perm nrTxnComparePathHashes (alternates md5Low32 run)
    by_cases hnone : alternates md5Low32 run = []
    · rw [if_pos hnone, if_pos (by rw [hused, hnone, List.length_nil])]
      rfl
    · rw [if_neg hnone, if_neg (by rw [hused]; exact mt List.length_eq_zero_iff.mp hnone)]
      have hroom : hashState.length + hashState.used =
          ((qsort nrTxnComparePathHashes (alternates md5Low32 run)).map List.length).sum +
            (qsort nrTxnComparePathHashes (alternates md5Low32 run)).length := by
        rw [hsum, hused, (hperm.map List.length).sum_eq, hperm.length_eq]
        rfl
      have hzero : ∀ hash ∈ qsort nrTxnComparePathHashes (alternates md5Low32 run),
          (0 : UInt8) ∉ hash := by
        intro hash hmem
        have hkept := List.mem_of_mem_filter (hperm.mem_iff.mp hmem)
        exact (h.isPathHash hash (mem_of_mem_firstTen hkept)).zero_notMem
      have hne : qsort nrTxnComparePathHashes (alternates md5Low32 run) ≠ [] := by
        intro hnil
        rw [hnil] at hperm
        exact hnone hperm.nil_eq.symm
      rw [hhashes, hroom, writeHashes_eq hne hzero]
      rfl

/-- After any sequence of changes and calls, the alternate path hashes are no string, or a
block that is a string as a whole: increasing hashes with commas between them, which are
those of the first ten that are not the one of the path. -/
theorem alternatePathHashes_canonical (md5Low32 : Bytes → UInt32)
    (qsort : (Bytes → Bytes → Ordering) → List Bytes → List Bytes) (hqsort : Sorts qsort)
    (txn : CatTxn) (steps : List PathStep) :
    ∃ hashes : List Bytes,
      nrTxnGetAlternatePathHashes md5Low32 qsort
          (runFrom (execPath md5Low32) (beginPath txn) steps).txn =
        .ok (if hashes = [] then none
          else some (terminated ([Json.comma].intercalate hashes))) ∧
      hashes.Pairwise (fun a b => compare a b = .lt) ∧ hashes.length ≤ 10 ∧
      (∀ hash ∈ hashes, Json.comma ∉ hash ∧ 0 ∉ hash) ∧
      ∀ hash, hash ∈ hashes ↔
        hash ∈ (runFrom (execPath md5Low32) (beginPath txn) steps).seen.eraseDups.take 10 ∧
          nrTxnCurrentPathHash md5Low32
            (runFrom (execPath md5Low32) (beginPath txn) steps).txn ≠ some hash := by
  have hvalid := runFrom_valid md5Low32 txn steps
  generalize runFrom (execPath md5Low32) (beginPath txn) steps = run at hvalid ⊢
  have hperm := hqsort.perm nrTxnComparePathHashes (alternates md5Low32 run)
  have hmem : ∀ hash, hash ∈ qsort nrTxnComparePathHashes (alternates md5Low32 run) ↔
      hash ∈ firstTen run.seen ∧ nrTxnCurrentPathHash md5Low32 run.txn ≠ some hash := by
    intro hash
    rw [hperm.mem_iff, alternates, List.mem_filter, decide_eq_true_iff, ne_comm]
  refine ⟨qsort nrTxnComparePathHashes (alternates md5Low32 run), ?_,
    hqsort.pairwise_lt (nodup_alternates md5Low32 run), ?_, ?_, hmem⟩
  · rw [nrTxnGetAlternatePathHashes_eq hqsort hvalid]
    congr 1
    refine if_congr ?_ rfl rfl
    constructor
    · intro hnone
      rw [hnone] at hperm ⊢
      exact hperm.eq_nil
    · intro hnone
      rw [hnone] at hperm
      exact hperm.nil_eq.symm
  · rw [hperm.length_eq]
    exact (List.length_filter_le _ _).trans (length_firstTen_le run.seen)
  · intro hash h
    have hhash := hvalid.isPathHash hash (mem_of_mem_firstTen ((hmem hash).mp h).1)
    exact ⟨hhash.comma_notMem, hhash.zero_notMem⟩

/-- A sort of the library in the place of `qsort`. -/
def mergeQsort (cmp : Bytes → Bytes → Ordering) (hashes : List Bytes) : List Bytes :=
  hashes.mergeSort fun a b => (cmp a b).isLE

theorem sorts_mergeQsort : Sorts mergeQsort where
  perm cmp hashes := List.mergeSort_perm hashes _
  sorted cmp hashes htrans := by
    apply List.pairwise_mergeSort
    · exact fun a b c hab hbc => Std.TransCmp.isLE_trans hab hbc
    · intro a b
      have hswap : cmp b a = (cmp a b).swap := Std.OrientedCmp.eq_swap
      rw [hswap]
      cases cmp a b <;> rfl

/-- A transaction gets another name. -/
def renamed (name : Bytes) : PathStep :=
  .change (fun txn => { txn with named := { txn.named with name := some name } }) fun _ => rfl

theorem callingTxn_alternatePathHashes :
    ∃ hashes : List Bytes, hashes ≠ [] ∧
      nrTxnGetAlternatePathHashes (fun path => UInt32.ofNat path.length) mergeQsort
          (runFrom (execPath fun path => UInt32.ofNat path.length) (beginPath callingTxn)
            [.getPathHash, renamed (ascii "xy"), .getPathHash, renamed (ascii "z")]).txn =
        .ok (some (terminated ([Json.comma].intercalate hashes))) := by
  obtain ⟨hashes, hresult, -, -, -, hmem⟩ := alternatePathHashes_canonical
    (fun path => UInt32.ofNat path.length) mergeQsort sorts_mergeQsort callingTxn
    [.getPathHash, renamed (ascii "xy"), .getPathHash, renamed (ascii "z")]
  have hfirst : ascii "00000006" ∈ hashes := by
    rw [hmem]
    exact ⟨by decide, by decide⟩
  have hne : hashes ≠ [] := List.ne_nil_of_mem hfirst
  rw [if_neg hne] at hresult
  exact ⟨hashes, hne, hresult⟩

end AxiomDaemon.Axiom

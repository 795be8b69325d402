import AxiomDaemon.Util.Vector
import Mathlib.Data.List.InsertIdx

/-!
The children of a segment, `nr_segment_children.h` and
`nr_segment_children.c`.

A container is a union of nine machine words. Word 0 is the header of the
packed form, whose one-bit field `is_packed` is the least significant bit and
whose 63-bit field `count` is the rest, and at the same time the `capacity`
of the vector form. The remaining eight words are the packed elements, and
the first four of them are also the vector's `used`, `elements`, `dtor` and
`dtor_userdata`. Nothing but the lowest bit of word 0 says which form is
meant, so the model keeps the words and reads every field out of them.
-/

namespace AxiomDaemon.Axiom

open AxiomDaemon.Lib AxiomDaemon.Util

/-- What a machine word of the union can hold: a `size_t`, a segment pointer
(or `NULL`), or the address of a block of segment pointers. -/
inductive Word (Seg : Type)
  | size (n : ℕ)
  | ptr (p : Option Seg)
  | array (cells : List (Option Seg))
  deriving DecidableEq

structure NrSegmentChildren (Seg : Type) where
  header : ℕ
  words : List (Word Seg)
  deriving DecidableEq

/-- `NR_SEGMENT_CHILDREN_PACKED_LIMIT`. -/
def packedLimit : ℕ := 8

variable {Seg : Type}

def Word.toSize : Word Seg → ℕ
  | .size n => n
  | _ => 0

def Word.toPtr : Word Seg → Option Seg
  | .ptr p => p
  | _ => none

def Word.toArray : Word Seg → List (Option Seg)
  | .array cells => cells
  | _ => []

namespace NrSegmentChildren

/-! ### The fields of the union -/

def isPacked (u : NrSegmentChildren Seg) : Bool := u.header % 2 = 1

def count (u : NrSegmentChildren Seg) : ℕ := u.header / 2

def setIsPacked (u : NrSegmentChildren Seg) (b : Bool) : NrSegmentChildren Seg :=
  { u with header := 2 * (u.header / 2) + b.toNat }

def setCount (u : NrSegmentChildren Seg) (n : ℕ) : NrSegmentChildren Seg :=
  { u with header := 2 * (n % 2 ^ 63) + u.header % 2 }

/-- `children->vector`, read through the union. -/
def vector (u : NrSegmentChildren Seg) : NrVector Seg :=
  { capacity := u.header
    used := (u.words.getD 0 (.ptr none)).toSize
    elements := (u.words.getD 1 (.ptr none)).toArray }

/-- The words written by an operation on `&children->vector`. -/
def setVector (u : NrSegmentChildren Seg) (v : NrVector Seg) : NrSegmentChildren Seg :=
  { header := v.capacity
    words := (u.words.set 0 (.size v.used)).set 1 (.array v.elements) }

end NrSegmentChildren

open NrSegmentChildren

/-- `nr_vector_init (&children->vector, initial, NULL, NULL)`. -/
def initVector (u : NrSegmentChildren Seg) (initial : ℕ) : NrSegmentChildren Seg :=
  let u := u.setVector (nrVectorInit initial)
  { u with words := (u.words.set 2 (.ptr none)).set 3 (.ptr none) }

/-- `nr_vector_deinit (&children->vector)`: `nr_free` leaves `NULL` behind. -/
def deinitVector (u : NrSegmentChildren Seg) : NrSegmentChildren Seg :=
  { header := (nrVectorDeinit u.vector).capacity
    words := (u.words.set 0 (.size (nrVectorDeinit u.vector).used)).set 1 (.ptr none) }

/-! ### The operations -/

def nrSegmentChildrenInit (u : NrSegmentChildren Seg) : NrSegmentChildren Seg :=
  (u.setIsPacked true).setCount 0

def nrSegmentChildrenDeinit (u : NrSegmentChildren Seg) : NrSegmentChildren Seg :=
  nrSegmentChildrenInit (if u.isPacked then u else deinitVector u)

def nrSegmentChildrenSize (u : NrSegmentChildren Seg) : ℕ :=
  if u.isPacked then u.count else nrVectorSize u.vector

def nrSegmentChildrenGet (u : NrSegmentChildren Seg) (i : ℕ) : Word Seg :=
  if nrSegmentChildrenSize u ≤ i then .ptr none
  else if u.isPacked then u.words.getD i (.ptr none)
  else .ptr (u.vector.elements.getD i none)

def nrSegmentChildrenAddVector (u : NrSegmentChildren Seg) (child : Option Seg) :
    NrSegmentChildren Seg :=
  u.setVector (nrVectorPushBack u.vector child)

def nrSegmentChildrenMigrateToVector (u : NrSegmentChildren Seg) : NrSegmentChildren Seg :=
  if u.isPacked then
    if 0 < u.count then
      let count := u.count
      let packed := (u.words.take count).map Word.toPtr
      let u := initVector (u.setIsPacked false) (count * 2)
      let v := { u.vector with used := count }
      u.setVector { v with elements := blockCopy v.elements 0 packed }
    else initVector (u.setIsPacked false) packedLimit
  else u

def nrSegmentChildrenAdd (u : NrSegmentChildren Seg) (child : Option Seg) :
    NrSegmentChildren Seg × Bool :=
  match child with
  | none => (u, false)
  | some _ =>
      if u.isPacked then
        let newCount := u.count + 1
        if packedLimit < newCount then
          (nrSegmentChildrenAddVector (nrSegmentChildrenMigrateToVector u) child, true)
        else
          (NrSegmentChildren.setCount { u with words := u.words.set u.count (.ptr child) } newCount,
            true)
      else (nrSegmentChildrenAddVector u child, true)

/-- The packed branch of `nr_segment_children_remove`: the last element is
tried first, then the others from the front. -/
def removePacked [DecidableEq Seg] (u : NrSegmentChildren Seg) (child : Seg) :
    NrSegmentChildren Seg × Bool :=
  let last := u.count - 1
  if u.words.getD last (.ptr none) = .ptr (some child) then (u.setCount (u.count - 1), true)
  else
    match findFrom (fun i => u.words.getD i (.ptr none) = .ptr (some child)) last 0 with
    | some i =>
        (NrSegmentChildren.setCount
          { u with words := blockMove u.words i (i + 1) (u.count - i - 1) } (u.count - 1), true)
    | none => (u, false)

/-- The vector branch of `nr_segment_children_remove`. -/
def removeVector [DecidableEq Seg] (u : NrSegmentChildren Seg) (child : Seg) :
    NrSegmentChildren Seg × Bool :=
  match nrVectorFindFirst u.vector (some child) with
  | some index =>
      match nrVectorRemoveImpl u.vector index with
      | some (v, _) => (u.setVector v, true)
      | none => (u, false)
  | none => (u, false)

def nrSegmentChildrenRemove [DecidableEq Seg] (u : NrSegmentChildren Seg) (child : Option Seg) :
    NrSegmentChildren Seg × Bool :=
  match child with
  | none => (u, false)
  | some c =>
      if nrSegmentChildrenSize u = 0 then (u, false)
      else if u.isPacked then removePacked u c
      else removeVector u c

/-- The part of `nr_segment_children_reparent` that moves `size` elements of
`children` behind the `parent_size` elements of the new parent's container. -/
def appendChildren (children parent : NrSegmentChildren Seg) : NrSegmentChildren Seg :=
  let size := nrSegmentChildrenSize children
  let parentSize := nrSegmentChildrenSize parent
  let reqParentSize := size + parentSize
  let parent :=
    if packedLimit < reqParentSize then nrSegmentChildrenMigrateToVector parent else parent
  let source : List (Option Seg) :=
    if children.isPacked then (children.words.take size).map Word.toPtr
    else children.vector.elements.take size
  if parent.isPacked then
    NrSegmentChildren.setCount
      { parent with words := blockCopy parent.words parentSize (source.map .ptr) } reqParentSize
  else
    let v := nrVectorEnsure parent.vector reqParentSize
    parent.setVector
      { v with elements := blockCopy v.elements parentSize source, used := reqParentSize }

/-! ### What a container denotes -/

/-- The packed form of a list of at most eight children. -/
structure PackedRep (u : NrSegmentChildren Seg) (l : List Seg) : Prop where
  width : u.words.length = 8
  header : u.header = 2 * l.length + 1
  small : l.length ≤ packedLimit
  elements : u.words.take l.length = l.map fun s => .ptr (some s)

/-- The vector form: the words hold the vector `v`, whose capacity is even,
so that `is_packed` reads 0, and whose elements are the list. -/
structure VectorRep (u : NrSegmentChildren Seg) (v : NrVector Seg) (l : List Seg) : Prop where
  width : u.words.length = 8
  capacity : u.header = v.capacity
  used : u.words[0]? = some (.size v.used)
  block : u.words[1]? = some (.array v.elements)
  unpacked : v.capacity % 2 = 0
  valid : v.Valid
  elements : v.toList = l.map some

/-- The container holds the children `l`, in this order. -/
def Denotes (u : NrSegmentChildren Seg) (l : List Seg) : Prop :=
  PackedRep u l ∨ ∃ v, VectorRep u v l

theorem PackedRep.isPacked {u : NrSegmentChildren Seg} {l : List Seg} (h : PackedRep u l) :
    u.isPacked = true := by
  simp [NrSegmentChildren.isPacked, h.header]

theorem PackedRep.count {u : NrSegmentChildren Seg} {l : List Seg} (h : PackedRep u l) :
    u.count = l.length := by
  rw [NrSegmentChildren.count, h.header]
  omega

theorem PackedRep.getD_words {u : NrSegmentChildren Seg} {l : List Seg} (h : PackedRep u l)
    {i : ℕ} (hi : i < l.length) : u.words.getD i (.ptr none) = .ptr (some l[i]) := by
  have hget : (u.words.take l.length)[i]? = some (.ptr (some l[i])) := by
    rw [h.elements]; simp [hi]
  rw [List.getElem?_take_of_lt hi] at hget
  simp [List.getD_eq_getElem?_getD, hget]

theorem VectorRep.isPacked {u : NrSegmentChildren Seg} {v : NrVector Seg} {l : List Seg}
    (h : VectorRep u v l) : u.isPacked = false := by
  simp [NrSegmentChildren.isPacked, h.capacity, h.unpacked]

theorem VectorRep.vector {u : NrSegmentChildren Seg} {v : NrVector Seg} {l : List Seg}
    (h : VectorRep u v l) : u.vector = v := by
  simp [NrSegmentChildren.vector, List.getD_eq_getElem?_getD, h.used, h.block, h.capacity,
    Word.toSize, Word.toArray]

theorem VectorRep.length {u : NrSegmentChildren Seg} {v : NrVector Seg} {l : List Seg}
    (h : VectorRep u v l) : v.used = l.length := by
  rw [← h.valid.length_toList, h.elements, List.length_map]

theorem VectorRep.getD_elements {u : NrSegmentChildren Seg} {v : NrVector Seg} {l : List Seg}
    (h : VectorRep u v l) {i : ℕ} (hi : i < l.length) : v.elements.getD i none = some l[i] := by
  have hget : (v.elements.take v.used)[i]? = some (some l[i]) := by
    change v.toList[i]? = _
    rw [h.elements]; simp [hi]
  rw [List.getElem?_take_of_lt (by rw [h.length]; exact hi)] at hget
  simp [List.getD_eq_getElem?_getD, hget]

/-- Writing a vector of even capacity into the words gives its vector form. -/
theorem vectorRep_setVector {u : NrSegmentChildren Seg} {v : NrVector Seg} {l : List Seg}
    (hwidth : u.words.length = 8) (heven : v.capacity % 2 = 0) (hv : v.Valid)
    (hl : v.toList = l.map some) : VectorRep (u.setVector v) v l where
  width := by simp [setVector, hwidth]
  capacity := rfl
  used := by simp [setVector, hwidth]
  block := by simp [setVector, hwidth]
  unpacked := heven
  valid := hv
  elements := hl

theorem initVector_vector (u : NrSegmentChildren Seg) (initial : ℕ) (hwidth : u.words.length = 8) :
    (initVector u initial).vector = nrVectorInit initial := by
  simp [initVector, setVector, NrSegmentChildren.vector, hwidth, Word.toSize, Word.toArray]

theorem initVector_words_length (u : NrSegmentChildren Seg) (initial : ℕ) :
    (initVector u initial).words.length = u.words.length := by
  simp [initVector, setVector]

/-! ### The operations on what a container denotes -/

theorem packedRep_init {u : NrSegmentChildren Seg} (hwidth : u.words.length = 8) :
    PackedRep (nrSegmentChildrenInit u) [] where
  width := hwidth
  header := by
    simp only [nrSegmentChildrenInit, setCount, setIsPacked, Bool.toNat_true]
    simp
  small := Nat.zero_le _
  elements := rfl

theorem Denotes.width {u : NrSegmentChildren Seg} {l : List Seg} (h : Denotes u l) :
    u.words.length = 8 := by
  rcases h with h | ⟨v, h⟩
  · exact h.width
  · exact h.width

theorem denotes_deinit {u : NrSegmentChildren Seg} (hwidth : u.words.length = 8) :
    Denotes (nrSegmentChildrenDeinit u) [] := by
  refine .inl (packedRep_init ?_)
  split
  · exact hwidth
  · simpa [deinitVector] using hwidth

theorem Denotes.size {u : NrSegmentChildren Seg} {l : List Seg} (h : Denotes u l) :
    nrSegmentChildrenSize u = l.length := by
  rcases h with h | ⟨v, h⟩
  · simp [nrSegmentChildrenSize, h.isPacked, h.count]
  · simp [nrSegmentChildrenSize, h.isPacked, h.vector, nrVectorSize, h.length]

theorem Denotes.get {u : NrSegmentChildren Seg} {l : List Seg} (h : Denotes u l) (i : ℕ) :
    nrSegmentChildrenGet u i = .ptr l[i]? := by
  rw [nrSegmentChildrenGet, h.size]
  by_cases hi : i < l.length
  · rw [if_neg (Nat.not_le.mpr hi), List.getElem?_eq_getElem hi]
    rcases h with h | ⟨v, h⟩
    · rw [if_pos h.isPacked, h.getD_words hi]
    · rw [if_neg (by simp [h.isPacked]), h.vector, h.getD_elements hi]
  · rw [if_pos (Nat.not_lt.mp hi), List.getElem?_eq_none (Nat.not_lt.mp hi)]

/-- Migration turns a packed container of `n` children into a vector of
capacity `2 * n`, or of capacity 8 when there is no child. -/
theorem PackedRep.migrate {u : NrSegmentChildren Seg} {l : List Seg} (h : PackedRep u l) :
    ∃ v, VectorRep (nrSegmentChildrenMigrateToVector u) v l := by
  have hwidth : (u.setIsPacked false).words.length = 8 := h.width
  simp only [nrSegmentChildrenMigrateToVector, h.isPacked, if_true, h.count]
  split
  · next hpos =>
      have hne : l.length * 2 ≠ 0 := by omega
      have hpacked : (u.words.take l.length).map Word.toPtr = l.map some := by
        rw [h.elements]; simp [Word.toPtr]
      rw [initVector_vector _ _ hwidth, hpacked]
      refine ⟨_, vectorRep_setVector ?_ ?_ ⟨?_, ?_, ?_⟩ ?_⟩
      · rw [initVector_words_length]; exact hwidth
      · simp [nrVectorInit, hne]
      · simp only [nrVectorInit, hne, if_false]; omega
      · rw [length_blockCopy (by simp [nrVectorInit, hne]; omega)]
        simp [nrVectorInit]
      · simp only [nrVectorInit, hne, if_false]; omega
      · have hcopy := take_blockCopy (nrVectorInit (l.length * 2) : NrVector Seg).elements
          (l.map some) 0 (by simp [nrVectorInit, hne]; omega)
        simpa [NrVector.toList] using hcopy
  · next hpos =>
      obtain rfl : l = [] := List.length_eq_zero_iff.mp (by omega)
      refine ⟨nrVectorInit packedLimit, ?_, rfl, ?_, ?_, ?_, nrVectorInit_valid _, ?_⟩
      · rw [initVector_words_length]; exact hwidth
      · simp [initVector, setVector, hwidth]
      · simp [initVector, setVector, hwidth]
      · simp [nrVectorInit, packedLimit]
      · simp [nrVectorInit, NrVector.toList]

theorem Denotes.migrate {u : NrSegmentChildren Seg} {l : List Seg} (h : Denotes u l) :
    ∃ v, VectorRep (nrSegmentChildrenMigrateToVector u) v l := by
  rcases h with h | ⟨v, h⟩
  · exact h.migrate
  · exact ⟨v, by simpa [nrSegmentChildrenMigrateToVector, h.isPacked] using h⟩

/-- Pushing onto the vector appends the child; the capacity is multiplied by
a power of two, so it stays even. -/
theorem VectorRep.addVector {u : NrSegmentChildren Seg} {v : NrVector Seg} {l : List Seg}
    (h : VectorRep u v l) (child : Seg) :
    ∃ w, VectorRep (nrSegmentChildrenAddVector u (some child)) w (l ++ [child]) := by
  obtain ⟨hvalid, _, hlist, k, hk⟩ := nrVectorPushBack_spec h.valid (some child)
  refine ⟨nrVectorPushBack v (some child), ?_⟩
  rw [nrSegmentChildrenAddVector, h.vector]
  apply vectorRep_setVector h.width _ hvalid
  · rw [hlist, h.elements]; simp
  · rw [hk, Nat.mul_mod, h.unpacked]; simp

theorem PackedRep.setCount {u : NrSegmentChildren Seg} {l : List Seg} (h : PackedRep u l)
    (l' : List Seg) (words : List (Word Seg)) (hwidth : words.length = 8)
    (hsmall : l'.length ≤ packedLimit)
    (hwords : words.take l'.length = l'.map fun s => .ptr (some s)) :
    PackedRep (NrSegmentChildren.setCount { u with words := words } l'.length) l' where
  width := hwidth
  header := by
    have hmod : l'.length % 2 ^ 63 = l'.length :=
      Nat.mod_eq_of_lt (Nat.lt_of_le_of_lt hsmall (by decide))
    have hone : u.header % 2 = 1 := by rw [h.header]; omega
    simp only [NrSegmentChildren.setCount, hmod, hone]
  small := hsmall
  elements := hwords

theorem Denotes.add {u : NrSegmentChildren Seg} {l : List Seg} (h : Denotes u l) (child : Seg) :
    Denotes (nrSegmentChildrenAdd u (some child)).1 (l ++ [child]) ∧
      (nrSegmentChildrenAdd u (some child)).2 = true := by
  rcases h with h | ⟨v, h⟩
  · simp only [nrSegmentChildrenAdd, h.isPacked, if_true, h.count]
    split
    · obtain ⟨v, hv⟩ := h.migrate
      exact ⟨.inr (hv.addVector child), rfl⟩
    · next hlimit =>
        refine ⟨.inl ?_, rfl⟩
        have hlt : l.length < u.words.length := by
          rw [h.width]; unfold packedLimit at hlimit; omega
        have hrep := h.setCount (l ++ [child])
          (u.words.set l.length (.ptr (some child))) (by simpa using h.width)
          (by simp; omega) (by
            rw [List.length_append, List.length_singleton, take_succ_set hlt, h.elements]
            simp)
        simpa using hrep
  · simp only [nrSegmentChildrenAdd, h.isPacked]
    exact ⟨.inr (h.addVector child), rfl⟩

/-- Erasing an occurrence of `child` from the list, the others keeping their
order. -/
def Removes (l : List Seg) (child : Seg) (l' : List Seg) : Prop :=
  ∃ pre post, l = pre ++ child :: post ∧ l' = pre ++ post

theorem removes_eraseIdx {l : List Seg} {child : Seg} {i : ℕ} (h : l[i]? = some child) :
    Removes l child (l.eraseIdx i) := by
  obtain ⟨hi, hget⟩ := List.getElem?_eq_some_iff.mp h
  refine ⟨l.take i, l.drop (i + 1), ?_, List.eraseIdx_eq_take_drop_succ ..⟩
  rw [← hget, List.getElem_cons_drop, List.take_append_drop]

theorem PackedRep.mem_words_iff {u : NrSegmentChildren Seg} {l : List Seg} (h : PackedRep u l)
    {i : ℕ} (hi : i < l.length) (child : Seg) :
    u.words.getD i (.ptr none) = .ptr (some child) ↔ l[i]? = some child := by
  rw [h.getD_words hi, List.getElem?_eq_getElem hi]
  simp

/-- Removal from a packed container erases one occurrence of the child, or
reports that there is none. -/
theorem PackedRep.remove [DecidableEq Seg] {u : NrSegmentChildren Seg} {l : List Seg}
    (h : PackedRep u l) (hne : l ≠ []) (child : Seg) :
    (∃ l', Removes l child l' ∧ Denotes (removePacked u child).1 l' ∧
      (removePacked u child).2 = true) ∨
    (child ∉ l ∧ removePacked u child = (u, false)) := by
  have hpos : 0 < l.length := List.length_pos_iff.mpr hne
  have hsmall := h.small
  have hwidth := h.width
  have hlen8 : l.length ≤ u.words.length := by rw [hwidth]; exact hsmall
  simp only [removePacked, h.count]
  by_cases hlast : u.words.getD (l.length - 1) (.ptr none) = .ptr (some child)
  · rw [if_pos hlast]
    have hget := (h.mem_words_iff (by omega) child).mp hlast
    refine .inl ⟨_, removes_eraseIdx hget, .inl ?_, rfl⟩
    have hdrop : l.eraseIdx (l.length - 1) = l.take (l.length - 1) := by
      rw [List.eraseIdx_eq_take_drop_succ, Nat.sub_add_cancel hpos, List.drop_length]
      simp
    have htake : u.words.take (l.length - 1) =
        (l.take (l.length - 1)).map fun s => Word.ptr (some s) := by
      rw [← Nat.min_eq_left (Nat.sub_le l.length 1), ← List.take_take, h.elements, List.map_take,
        Nat.min_eq_left (Nat.sub_le l.length 1)]
    have hrep := h.setCount (l.take (l.length - 1)) u.words hwidth
      (by simp; omega) (by rw [List.length_take, Nat.min_eq_left (by omega)]; exact htake)
    rw [hdrop]
    simpa [List.length_take, Nat.min_eq_left (Nat.sub_le l.length 1)] using hrep
  · rw [if_neg hlast]
    cases hfind : findFrom (fun i => u.words.getD i (.ptr none) = .ptr (some child))
        (l.length - 1) 0 with
    | some i =>
        obtain ⟨_, hi, heq⟩ := findFrom_eq_some hfind
        have hi : i < l.length := by omega
        have hget := (h.mem_words_iff hi child).mp heq
        refine .inl ⟨_, removes_eraseIdx hget, .inl ?_, rfl⟩
        have hlen : (l.eraseIdx i).length = l.length - 1 := List.length_eraseIdx_of_lt hi
        have hrep := h.setCount (l.eraseIdx i) (blockMove u.words i (i + 1) (l.length - i - 1))
          (by rw [length_blockMove (by omega) (by omega), hwidth]) (by omega) (by
            rw [hlen, take_blockMove_erase hi hlen8, h.elements, List.eraseIdx_map])
        rw [hlen] at hrep
        exact hrep
    | none =>
        refine .inr ⟨?_, rfl⟩
        intro hmem
        obtain ⟨i, hi, hget⟩ := List.getElem_of_mem hmem
        have hword : u.words.getD i (.ptr none) = .ptr (some child) := by
          rw [h.getD_words hi, hget]
        -- The loop stops before the last element, which was tried on its own.
        by_cases hil : i = l.length - 1
        · exact hlast (hil ▸ hword)
        · exact findFrom_eq_none hfind (Nat.zero_le i) (by omega) hword

/-- A removal that would halve the vector's capacity to an odd number. -/
def OddShrink [DecidableEq Seg] (u : NrSegmentChildren Seg) (child : Seg) : Prop :=
  u.isPacked = false ∧ nrVectorFindFirst u.vector (some child) ≠ none ∧
    4 ≤ u.vector.used - 1 ∧ u.vector.used - 1 < u.vector.capacity / 2 ∧
    u.vector.capacity / 2 % 2 = 1

instance [DecidableEq Seg] (u : NrSegmentChildren Seg) (child : Seg) :
    Decidable (OddShrink u child) := by unfold OddShrink; infer_instance

/-- Removal from a vector erases the first occurrence of the child, or
reports that there is none. The words then hold the shortened vector. -/
theorem VectorRep.remove [DecidableEq Seg] {u : NrSegmentChildren Seg} {v : NrVector Seg}
    {l : List Seg} (h : VectorRep u v l) (child : Seg) :
    (∃ w l', removeVector u child = (u.setVector w, true) ∧ Removes l child l' ∧ w.Valid ∧
      w.toList = l'.map some ∧
      w.capacity = if 4 ≤ v.used - 1 ∧ v.used - 1 < v.capacity / 2 then v.capacity / 2
        else v.capacity) ∨
    (nrVectorFindFirst v (some child) = none ∧ child ∉ l ∧ removeVector u child = (u, false)) := by
  rw [removeVector, h.vector]
  cases hfind : nrVectorFindFirst v (some child) with
  | some i =>
      obtain ⟨hi, hget⟩ := nrVectorFindFirst_eq_some hfind
      obtain ⟨w, hrem, hw, _, hlist, hcap⟩ := nrVectorRemoveImpl_spec h.valid hi
      rw [h.elements] at hlist hget
      rw [h.length] at hi
      have hli : l[i]? = some child := by
        simpa [List.getD_eq_getElem?_getD, hi] using hget
      refine .inl ⟨w, l.eraseIdx i, ?_, removes_eraseIdx hli, hw, ?_, hcap⟩
      · simp only [hrem]
      · rw [hlist, List.eraseIdx_map]
  | none =>
      refine .inr ⟨rfl, ?_, rfl⟩
      have hnot := nrVectorFindFirst_eq_none h.valid hfind
      rw [h.elements] at hnot
      simpa using hnot

theorem Denotes.remove [DecidableEq Seg] {u : NrSegmentChildren Seg} {l : List Seg}
    (h : Denotes u l) (child : Seg) (hshrink : ¬ OddShrink u child) :
    (∃ l', Removes l child l' ∧ Denotes (nrSegmentChildrenRemove u (some child)).1 l' ∧
      (nrSegmentChildrenRemove u (some child)).2 = true) ∨
    (child ∉ l ∧ nrSegmentChildrenRemove u (some child) = (u, false)) := by
  by_cases hnil : l = []
  · subst hnil
    exact .inr ⟨by simp, by simp [nrSegmentChildrenRemove, h.size]⟩
  · have hsize : nrSegmentChildrenSize u ≠ 0 := by
      rw [h.size]; simpa using hnil
    simp only [nrSegmentChildrenRemove, hsize, if_false]
    rcases h with h | ⟨v, h⟩
    · rw [if_pos h.isPacked]
      exact h.remove hnil child
    · rw [if_neg (by simp [h.isPacked])]
      rcases h.remove child with ⟨w, l', heq, hrem, hw, hlist, hcap⟩ | ⟨_, hnot, heq⟩
      · refine .inl ⟨l', hrem, .inr ⟨w, ?_⟩, by rw [heq]⟩
        rw [heq]
        apply vectorRep_setVector h.width _ hw hlist
        -- The capacity stays even: either it is unchanged or the guard speaks.
        have heven := h.unpacked
        by_cases hfind : nrVectorFindFirst v (some child) = none
        · rw [removeVector, h.vector, hfind] at heq
          simp at heq
        · simp only [OddShrink, h.isPacked, h.vector, ne_eq, hfind, not_false_eq_true,
            true_and] at hshrink
          rw [hcap]
          split <;> omega
      · exact .inr ⟨hnot, heq⟩

/-- After a halving to an odd capacity `is_packed` reads 1, while the words
still hold a vector: the container denotes no list at all. -/
theorem not_denotes_remove_of_oddShrink [DecidableEq Seg] {u : NrSegmentChildren Seg}
    {l : List Seg} (h : Denotes u l) {child : Seg} (hshrink : OddShrink u child) (l' : List Seg) :
    ¬ Denotes (nrSegmentChildrenRemove u (some child)).1 l' := by
  obtain ⟨hpacked, hfind, hfour, hhalf, hodd⟩ := hshrink
  rcases h with h | ⟨v, h⟩
  · simp [h.isPacked] at hpacked
  rw [h.vector] at hfind hfour hhalf hodd
  have hsize : nrSegmentChildrenSize u ≠ 0 := by
    rw [Denotes.size (.inr ⟨v, h⟩), ← h.length]; omega
  simp only [nrSegmentChildrenRemove, hsize, if_false, h.isPacked]
  rcases h.remove child with ⟨w, l'', heq, _, _, _, hcap⟩ | ⟨hnone, _, _⟩
  · rw [if_pos ⟨hfour, hhalf⟩] at hcap
    simp only [heq, Bool.false_eq_true, if_false]
    rintro (hrep | ⟨w', hrep⟩)
    · have hheader : w.capacity = 2 * l'.length + 1 := hrep.header
      have hword := hrep.getD_words (i := 0) (by omega)
      simp [setVector, h.width] at hword
    · have heven := hrep.unpacked
      rw [← hrep.capacity] at heven
      change w.capacity % 2 = 0 at heven
      omega
  · exact absurd hnone hfind

/-- Moving children behind those of another container appends the lists. -/
theorem Denotes.appendChildren {u p : NrSegmentChildren Seg} {l m : List Seg} (hu : Denotes u l)
    (hp : Denotes p m) (hne : l ≠ []) : Denotes (appendChildren u p) (m ++ l) := by
  have hpos : 0 < l.length := List.length_pos_iff.mpr hne
  have hsource : (if u.isPacked then (u.words.take l.length).map Word.toPtr
      else u.vector.elements.take l.length) = l.map some := by
    rcases hu with h | ⟨v, h⟩
    · rw [if_pos h.isPacked, h.elements]
      simp [Word.toPtr]
    · rw [if_neg (by simp [h.isPacked]), h.vector, ← h.length]
      exact h.elements
  simp only [AxiomDaemon.Axiom.appendChildren, hu.size, hp.size, hsource]
  -- The target is packed afterwards exactly when it was and everything fits.
  have htarget : (∃ v, VectorRep (if packedLimit < l.length + m.length then
        nrSegmentChildrenMigrateToVector p else p) v m) ∨
      (PackedRep p m ∧ l.length + m.length ≤ packedLimit ∧
        (if packedLimit < l.length + m.length then nrSegmentChildrenMigrateToVector p else p) =
          p) := by
    by_cases hbig : packedLimit < l.length + m.length
    · rw [if_pos hbig]
      exact .inl hp.migrate
    · rw [if_neg hbig]
      rcases hp with h | h
      · exact .inr ⟨h, Nat.not_lt.mp hbig, rfl⟩
      · exact .inl h
  rcases htarget with ⟨v, h⟩ | ⟨h, hfits, heq⟩
  · rw [if_neg (by simp [h.isPacked]), h.vector]
    obtain ⟨hvalid, hroom, hused, hlist, k, hk⟩ :=
      nrVectorEnsureImpl_spec h.valid (l.length + m.length)
    have hensure : nrVectorEnsure v (l.length + m.length) =
        nrVectorEnsureImpl v (l.length + m.length) := by
      rw [nrVectorEnsure, if_neg (by omega)]
    rw [hensure]
    have hblock := hvalid.block
    refine .inr ⟨_, vectorRep_setVector h.width ?_ ⟨hvalid.pos, ?_, hroom⟩ ?_⟩
    · rw [hk, Nat.mul_mod, h.unpacked]; simp
    · simp only
      rw [length_blockCopy (by simp; omega)]
      exact hblock
    · have hcopy := take_blockCopy (nrVectorEnsureImpl v (l.length + m.length)).elements
        (l.map some) m.length (by simp; omega)
      rw [List.length_map, Nat.add_comm] at hcopy
      have htaken : (nrVectorEnsureImpl v (l.length + m.length)).elements.take m.length =
          m.map some := by
        rw [← h.elements, ← hlist, NrVector.toList, hused, h.length]
      rw [NrVector.toList, hcopy, htaken, List.map_append]
  · rw [heq, if_pos h.isPacked]
    unfold packedLimit at hfits
    have hwidth := h.width
    have hrep := h.setCount (m ++ l) (blockCopy p.words m.length ((l.map some).map .ptr))
      (by rw [length_blockCopy (by simp; omega), hwidth]) (by simp [packedLimit]; omega) (by
        have hcopy := take_blockCopy p.words ((l.map some).map .ptr) m.length (by simp; omega)
        rw [List.length_map, List.length_map] at hcopy
        rw [List.length_append, hcopy, h.elements]
        simp)
    rw [List.length_append, Nat.add_comm] at hrep
    exact .inl hrep

end AxiomDaemon.Axiom

import AxiomDaemon.Lib.Block
import Mathlib.Algebra.Group.Nat.Defs

/-!
The expanding array of `util_vector.c`.

`elements` is the allocated block, of which the first `used` cells are in
use; a cell is a `void*`, with `none` for `NULL`. Allocation is taken to
succeed: `nr_calloc` terminates the process when it does not, and a failing
`nr_reallocarray` needs the address space to be exhausted.
-/

namespace AxiomDaemon.Util

open AxiomDaemon.Lib

structure NrVector (α : Type) where
  capacity : ℕ
  used : ℕ
  elements : List (Option α)
  deriving DecidableEq

variable {α : Type}

/-- `nr_vector_init_impl`. -/
def nrVectorInit (initial : ℕ) : NrVector α :=
  let capacity := if initial = 0 then 8 else initial
  { capacity := capacity, used := 0, elements := List.replicate capacity none }

/-- `nr_vector_deinit_impl`; the vectors of this model have no destructor. -/
def nrVectorDeinit (_ : NrVector α) : NrVector α :=
  { capacity := 0, used := 0, elements := [] }

def nrVectorSize (v : NrVector α) : ℕ := v.used

/-- The loop `for (; new_capacity < capacity; new_capacity *= 2)`. Doubling a
positive number `target` times passes `target`, so `target` is fuel enough. -/
def doubleUntil : (fuel newCapacity target : ℕ) → ℕ
  | 0, newCapacity, _ => newCapacity
  | fuel + 1, newCapacity, target =>
      if newCapacity < target then doubleUntil fuel (newCapacity * 2) target
      else newCapacity

/-- `nr_vector_ensure_impl`. -/
def nrVectorEnsureImpl (v : NrVector α) (capacity : ℕ) : NrVector α :=
  if capacity ≤ v.capacity then v
  else
    let newCapacity := doubleUntil capacity (if v.capacity = 0 then 8 else v.capacity) capacity
    { v with capacity := newCapacity, elements := blockResize v.elements newCapacity none }

/-- `nr_vector_ensure`. -/
def nrVectorEnsure (v : NrVector α) (capacity : ℕ) : NrVector α :=
  if capacity = 0 then v else nrVectorEnsureImpl v capacity

/-- `nr_vector_shrink_if_necessary_impl`. -/
def nrVectorShrinkIfNecessaryImpl (v : NrVector α) : NrVector α :=
  if v.used < 4 ∨ v.capacity / 2 ≤ v.used then v
  else
    let newCapacity := v.capacity / 2
    { v with capacity := newCapacity, elements := blockResize v.elements newCapacity none }

/-- `nr_vector_insert_impl`. -/
def nrVectorInsertImpl (v : NrVector α) (pos : ℕ) (element : Option α) : NrVector α :=
  let v := nrVectorEnsureImpl v (v.used + 1)
  if pos < v.used then
    { v with
      elements := (blockMove v.elements (pos + 1) pos (v.used - pos)).set pos element
      used := v.used + 1 }
  else
    { v with elements := v.elements.set v.used element, used := v.used + 1 }

/-- `nr_vector_push_back`. -/
def nrVectorPushBack (v : NrVector α) (element : Option α) : NrVector α :=
  nrVectorInsertImpl v v.used element

/-- `nr_vector_remove_impl`: the vector afterwards and the element removed,
or `none` where the source returns false. -/
def nrVectorRemoveImpl (v : NrVector α) (pos : ℕ) : Option (NrVector α × Option α) :=
  if v.used ≤ pos then none
  else
    let element := v.elements.getD pos none
    let elements :=
      if pos < v.used - 1 then blockMove v.elements pos (pos + 1) (v.used - pos - 1)
      else v.elements
    some (nrVectorShrinkIfNecessaryImpl
      { v with elements := elements, used := v.used - 1 }, element)

/-- `nr_vector_find_first` without a comparator: `nr_vector_find_direct` from
the first element on with `delta = 1`. -/
def nrVectorFindFirst [DecidableEq α] (v : NrVector α) (needle : Option α) : Option ℕ :=
  findFrom (fun i => v.elements.getD i none = needle) v.used 0

/-! ### What the operations do to the elements in use -/

/-- The elements in use. -/
def NrVector.toList (v : NrVector α) : List (Option α) := v.elements.take v.used

/-- The block has `capacity` cells and the elements in use fit into it. -/
structure NrVector.Valid (v : NrVector α) : Prop where
  pos : 0 < v.capacity
  block : v.elements.length = v.capacity
  fits : v.used ≤ v.capacity

@[simp] theorem NrVector.Valid.length_toList {v : NrVector α} (h : v.Valid) :
    v.toList.length = v.used := by
  simp [toList, h.block, h.fits]

theorem exists_doubleUntil (fuel n target : ℕ) :
    ∃ k, doubleUntil fuel n target = n * 2 ^ k := by
  induction fuel generalizing n with
  | zero => exact ⟨0, by simp [doubleUntil]⟩
  | succ fuel ih =>
      simp only [doubleUntil]
      split
      · obtain ⟨k, hk⟩ := ih (n * 2)
        exact ⟨k + 1, by rw [hk, Nat.pow_succ, Nat.mul_assoc, Nat.mul_comm 2]⟩
      · exact ⟨0, by simp⟩

theorem le_doubleUntil (fuel n target : ℕ) (hn : 0 < n) (hfuel : target ≤ n + fuel) :
    target ≤ doubleUntil fuel n target := by
  induction fuel generalizing n with
  | zero => simpa [doubleUntil] using hfuel
  | succ fuel ih =>
      simp only [doubleUntil]
      split
      · exact ih (n * 2) (by omega) (by omega)
      · omega

theorem nrVectorInit_valid (initial : ℕ) : (nrVectorInit initial : NrVector α).Valid := by
  constructor <;> simp [nrVectorInit]
  split <;> omega

/-- Growing keeps the elements in use, makes room, and multiplies the
capacity by a power of two. -/
theorem nrVectorEnsureImpl_spec {v : NrVector α} (hv : v.Valid) (capacity : ℕ) :
    (nrVectorEnsureImpl v capacity).Valid ∧
    capacity ≤ (nrVectorEnsureImpl v capacity).capacity ∧
    (nrVectorEnsureImpl v capacity).used = v.used ∧
    (nrVectorEnsureImpl v capacity).toList = v.toList ∧
    ∃ k, (nrVectorEnsureImpl v capacity).capacity = v.capacity * 2 ^ k := by
  by_cases hle : capacity ≤ v.capacity
  · have hid : nrVectorEnsureImpl v capacity = v := by simp [nrVectorEnsureImpl, hle]
    rw [hid]
    exact ⟨hv, hle, rfl, rfl, 0, by simp⟩
  · have hpos : v.capacity ≠ 0 := Nat.pos_iff_ne_zero.mp hv.pos
    obtain ⟨k, hk⟩ := exists_doubleUntil capacity v.capacity capacity
    have hge : capacity ≤ doubleUntil capacity v.capacity capacity :=
      le_doubleUntil _ _ _ hv.pos (by omega)
    have hfits := hv.fits
    simp only [nrVectorEnsureImpl, hle, if_false, hpos, NrVector.toList]
    refine ⟨⟨by simp only; omega, length_blockResize .., by simp only; omega⟩, hge, trivial, ?_, k,
      hk⟩
    exact take_blockResize (by omega) (by rw [hv.block]; exact hfits)

/-- Shrinking keeps the elements in use. It halves the capacity exactly when
at least four elements are left and they fill less than half of it. -/
theorem nrVectorShrinkIfNecessaryImpl_spec {v : NrVector α} (hv : v.Valid) :
    (nrVectorShrinkIfNecessaryImpl v).Valid ∧
    (nrVectorShrinkIfNecessaryImpl v).used = v.used ∧
    (nrVectorShrinkIfNecessaryImpl v).toList = v.toList ∧
    (nrVectorShrinkIfNecessaryImpl v).capacity =
      if 4 ≤ v.used ∧ v.used < v.capacity / 2 then v.capacity / 2 else v.capacity := by
  have hfits := hv.fits
  by_cases hc : v.used < 4 ∨ v.capacity / 2 ≤ v.used
  · have hno : ¬(4 ≤ v.used ∧ v.used < v.capacity / 2) := by omega
    simp only [nrVectorShrinkIfNecessaryImpl, hc, if_true, hno, if_false]
    exact ⟨hv, trivial, trivial, trivial⟩
  · have hyes : 4 ≤ v.used ∧ v.used < v.capacity / 2 := by omega
    simp only [nrVectorShrinkIfNecessaryImpl, hc, if_false, hyes, and_self, if_true,
      NrVector.toList]
    refine ⟨⟨by simp only; omega, length_blockResize .., by simp only; omega⟩, trivial, ?_,
      trivial⟩
    exact take_blockResize (by omega) (by rw [hv.block]; exact hfits)

/-- Inserting puts the element at the position, or behind the last element
where the position lies farther out. -/
theorem nrVectorInsertImpl_spec {v : NrVector α} (hv : v.Valid) (pos : ℕ) (element : Option α) :
    (nrVectorInsertImpl v pos element).Valid ∧
    (nrVectorInsertImpl v pos element).used = v.used + 1 ∧
    (nrVectorInsertImpl v pos element).toList = v.toList.insertIdx (min pos v.used) element ∧
    ∃ k, (nrVectorInsertImpl v pos element).capacity = v.capacity * 2 ^ k := by
  obtain ⟨hvalid, hroom, hused, hlist, k, hk⟩ := nrVectorEnsureImpl_spec hv (v.used + 1)
  set w := nrVectorEnsureImpl v (v.used + 1) with hw
  have hlt : w.used < w.elements.length := by rw [hvalid.block]; omega
  by_cases hpos : pos < w.used
  · have hins : nrVectorInsertImpl v pos element =
        { w with
          elements := (blockMove w.elements (pos + 1) pos (w.used - pos)).set pos element
          used := w.used + 1 } := by
      simp [nrVectorInsertImpl, ← hw, hpos]
    have hlen : (blockMove w.elements (pos + 1) pos (w.used - pos)).length = w.capacity := by
      rw [length_blockMove (by omega) (by omega), hvalid.block]
    rw [hins, ← hused, Nat.min_eq_left (Nat.le_of_lt hpos), ← hlist]
    refine ⟨⟨hvalid.pos, by rw [List.length_set, hlen], by simp only; omega⟩, rfl, ?_, k, hk⟩
    exact take_blockMove_insert (Nat.le_of_lt hpos) hlt
  · have hins : nrVectorInsertImpl v pos element =
        { w with elements := w.elements.set w.used element, used := w.used + 1 } := by
      simp [nrVectorInsertImpl, ← hw, hpos]
    have hmin : min pos v.used = v.toList.length := by
      rw [hv.length_toList]
      omega
    rw [hins, hmin, List.insertIdx_length_self, ← hlist]
    refine ⟨⟨hvalid.pos, by simpa using hvalid.block, by simp only; omega⟩, by simp [hused], ?_,
      k, hk⟩
    exact take_succ_set hlt

theorem nrVectorPushBack_spec {v : NrVector α} (hv : v.Valid) (element : Option α) :
    (nrVectorPushBack v element).Valid ∧
    (nrVectorPushBack v element).used = v.used + 1 ∧
    (nrVectorPushBack v element).toList = v.toList ++ [element] ∧
    ∃ k, (nrVectorPushBack v element).capacity = v.capacity * 2 ^ k := by
  have hend : v.toList.insertIdx (min v.used v.used) element = v.toList ++ [element] := by
    rw [Nat.min_self, ← hv.length_toList, List.insertIdx_length_self]
  rw [← hend]
  exact nrVectorInsertImpl_spec hv v.used element

theorem nrVectorRemoveImpl_spec {v : NrVector α} (hv : v.Valid) {pos : ℕ} (hpos : pos < v.used) :
    ∃ w, nrVectorRemoveImpl v pos = some (w, v.toList.getD pos none) ∧ w.Valid ∧
      w.used = v.used - 1 ∧ w.toList = v.toList.eraseIdx pos ∧
      w.capacity = if 4 ≤ v.used - 1 ∧ v.used - 1 < v.capacity / 2 then v.capacity / 2
        else v.capacity := by
  have hfits := hv.fits
  have hblock := hv.block
  set elements := if pos < v.used - 1 then blockMove v.elements pos (pos + 1) (v.used - pos - 1)
    else v.elements with helements
  have htake : elements.take (v.used - 1) = v.toList.eraseIdx pos := by
    rw [helements]
    split
    · exact take_blockMove_erase hpos (by omega)
    · have hlast : pos = v.used - 1 := by omega
      rw [List.eraseIdx_eq_take_drop_succ, NrVector.toList, List.take_take, List.drop_take,
        hlast, Nat.min_eq_left (by omega), show v.used - (v.used - 1 + 1) = 0 by omega]
      simp
  have hlen : elements.length = v.capacity := by
    rw [helements]
    split
    · rw [length_blockMove (by omega) (by omega), hblock]
    · exact hblock
  have hmid : ({ v with elements := elements, used := v.used - 1 } : NrVector α).Valid :=
    ⟨hv.pos, hlen, by simp only; omega⟩
  obtain ⟨hvalid, hused, hlist, hcap⟩ := nrVectorShrinkIfNecessaryImpl_spec hmid
  refine ⟨_, ?_, hvalid, hused, hlist.trans htake, hcap⟩
  simp only [nrVectorRemoveImpl, Nat.not_le.mpr hpos, if_false, ← helements, NrVector.toList]
  simp [List.getD_eq_getElem?_getD, List.getElem?_take_of_lt hpos]

theorem nrVectorFindFirst_eq_some [DecidableEq α] {v : NrVector α} {needle : Option α} {i : ℕ}
    (h : nrVectorFindFirst v needle = some i) :
    i < v.used ∧ v.toList.getD i none = needle := by
  obtain ⟨_, hlt, heq⟩ := findFrom_eq_some h
  have hlt : i < v.used := by omega
  refine ⟨hlt, ?_⟩
  rw [← heq]
  simp [NrVector.toList, List.getD_eq_getElem?_getD, List.getElem?_take_of_lt hlt]

theorem nrVectorFindFirst_eq_none [DecidableEq α] {v : NrVector α} (hv : v.Valid)
    {needle : Option α} (h : nrVectorFindFirst v needle = none) : needle ∉ v.toList := by
  intro hmem
  obtain ⟨i, hi, hget⟩ := List.getElem_of_mem hmem
  rw [hv.length_toList] at hi
  apply findFrom_eq_none h (Nat.zero_le i) (by omega)
  rw [← hget]
  simp [NrVector.toList, List.getD_eq_getElem?_getD, hv.block, Nat.lt_of_lt_of_le hi hv.fits]

end AxiomDaemon.Util

import AxiomDaemon.Util.Object

/-!
Setting the elements of an array, `nro_set_array`. Positions are counted from 1, and
0 stands for one more behind the last. An array is a value here, so that it owns its
elements; the memory it has allocated ahead of them is left out.
-/

namespace AxiomDaemon.Util

open AxiomDaemon.Lib

/-! ### Copies -/

mutual

/-- `nro_copy`. -/
def nroCopy : NrObj → NrObj
  | .none => .none
  | .boolean b => .boolean b
  | .int i => .int i
  | .long l => .long l
  | .double d => .double d
  | .string s => .string s
  | .jstring s => .jstring s
  | .hash entries => .hash (nroCopyEntries entries)
  | .array elements => .array (nroCopyElements elements)

def nroCopyEntries : List (Bytes × NrObj) → List (Bytes × NrObj)
  | [] => []
  | (key, value) :: entries => (key, nroCopy value) :: nroCopyEntries entries

def nroCopyElements : List NrObj → List NrObj
  | [] => []
  | element :: elements => nroCopy element :: nroCopyElements elements

end

mutual

theorem nroCopy_eq : (obj : NrObj) → nroCopy obj = obj
  | .none | .boolean _ | .int _ | .long _ | .double _ | .string _ | .jstring _ => by
      simp only [nroCopy]
  | .hash entries => by rw [nroCopy, nroCopyEntries_eq entries]
  | .array elements => by rw [nroCopy, nroCopyElements_eq elements]

theorem nroCopyEntries_eq : (entries : List (Bytes × NrObj)) → nroCopyEntries entries = entries
  | [] => rfl
  | (key, value) :: entries => by
      rw [nroCopyEntries, nroCopy_eq value, nroCopyEntries_eq entries]

theorem nroCopyElements_eq : (elements : List NrObj) → nroCopyElements elements = elements
  | [] => rfl
  | element :: elements => by
      rw [nroCopyElements, nroCopy_eq element, nroCopyElements_eq elements]

end

/-! ### Setting an element -/

/-- `nro_internal_setvalue_array`: the array afterwards, and whether the value was set. The
value is always a new object, and so not the array itself. -/
def nroInternalSetvalueArray (op : Option NrObj) (idx : ℤ) (nobj : Option NrObj) :
    Option NrObj × Bool :=
  match op, nobj with
  | some (.array elements), some nobj =>
      let size : ℤ := elements.length
      if idx < 0 then (op, false)
      else if 0 < idx ∧ size < idx - 1 then (op, false)
      else
        -- the position from 0, and 0 for one more as well
        let idx := if 0 < idx then if idx - 1 = size then 0 else idx - 1 else idx
        if idx = 0 then (some (.array (elements ++ [nobj])), true)
        else (some (.array (elements.set idx.toNat nobj)), true)
  | _, _ => (op, false)

/-- `nro_set_array`. -/
def nroSetArray (obj : Option NrObj) (idx : ℤ) (value : Option NrObj) : Option NrObj × Bool :=
  nroInternalSetvalueArray obj idx (value.map nroCopy)

theorem nroSetArray_eq (obj : Option NrObj) (idx : ℤ) (value : NrObj) :
    nroSetArray obj idx (some value) = nroInternalSetvalueArray obj idx (some value) := by
  rw [nroSetArray, Option.map_some, nroCopy_eq]

section

variable (elements : List NrObj) (value : NrObj)

/-- Nothing is set before the first position and behind the one after the last. -/
theorem nroSetArray_outside {idx : ℤ} (h : idx < 0 ∨ elements.length + 1 < idx) :
    nroSetArray (some (.array elements)) idx (some value) = (some (.array elements), false) := by
  rw [nroSetArray_eq, nroInternalSetvalueArray]
  simp only
  rcases h with h | h
  · rw [if_pos h]
  · rw [if_neg (by omega), if_pos (by omega)]

/-- Position 0 and the one after the last append, and so does position 1. -/
theorem nroSetArray_append {idx : ℤ} (h : idx = 0 ∨ idx = elements.length + 1 ∨ idx = 1) :
    nroSetArray (some (.array elements)) idx (some value) =
      (some (.array (elements ++ [value])), true) := by
  rw [nroSetArray_eq, nroInternalSetvalueArray]
  simp only
  rw [if_neg (by omega), if_neg (by omega), if_pos]
  split_ifs <;> omega

theorem nroSetArray_replace {idx : ℤ} (hlo : 1 < idx) (hhi : idx ≤ elements.length) :
    nroSetArray (some (.array elements)) idx (some value) =
      (some (.array (elements.set (idx - 1).toNat value)), true) := by
  rw [nroSetArray_eq, nroInternalSetvalueArray]
  simp only
  have hidx : (if 0 < idx then if idx - 1 = elements.length then 0 else idx - 1 else idx) =
      idx - 1 := by
    rw [if_pos (by omega), if_neg (by omega)]
  rw [if_neg (by omega), if_neg (by omega), hidx, if_neg (by omega)]

/-! ### What setting an element is to do -/

/-- The position that is set, counted from 1: 0 stands for the one after the last. -/
def settingPosition (idx : ℤ) : ℕ := if idx = 0 then elements.length + 1 else idx.toNat

/-- What comes of setting element `idx` of an array. -/
structure SetsElement (idx : ℤ) (result : Option NrObj × Bool) : Prop where
  replaces : 1 ≤ idx → idx ≤ elements.length →
    ∃ elements', result = (some (.array elements'), true) ∧
      elements'.length = elements.length ∧
      ∀ j : ℕ, elements'[j]? = if (j : ℤ) + 1 = idx then some value else elements[j]?
  appends : idx = 0 ∨ idx = elements.length + 1 →
    result = (some (.array (elements ++ [value])), true)
  fails : idx < 0 ∨ elements.length + 1 < idx → result = (some (.array elements), false)
  returns : 0 ≤ idx → idx ≤ elements.length + 1 →
    nroGetArrayValue result.1 (settingPosition elements idx) = some value

theorem nroSetArray_setsElement {idx : ℤ} (h : ¬(idx = 1 ∧ elements ≠ [])) :
    SetsElement elements value idx
      (nroSetArray (some (.array elements)) idx (some value)) where
  replaces := by
    intro hlo hhi
    have hne : elements ≠ [] := by
      rintro rfl
      simp at hhi
      omega
    have hlo : 1 < idx := by
      rcases lt_or_eq_of_le hlo with hlt | heq
      · exact hlt
      · exact absurd ⟨heq.symm, hne⟩ h
    refine ⟨_, nroSetArray_replace elements value hlo hhi, List.length_set .., fun j => ?_⟩
    rw [List.getElem?_set]
    by_cases hj : (j : ℤ) + 1 = idx
    · rw [if_pos (by omega), if_pos (by omega), if_pos hj]
    · rw [if_neg (by omega), if_neg hj]
  appends := by
    intro hidx
    exact nroSetArray_append elements value (by tauto)
  fails := nroSetArray_outside elements value
  returns := by
    intro hlo hhi
    by_cases hidx : idx = 0 ∨ idx = elements.length + 1
    · rw [nroSetArray_append elements value (by tauto)]
      have hposition : settingPosition elements idx = elements.length + 1 := by
        rw [settingPosition]
        split_ifs <;> omega
      simp [hposition, nroGetArrayValue]
    · have hlo : 1 < idx := by
        by_contra hle
        refine h ⟨by omega, ?_⟩
        rintro rfl
        simp at hidx hhi
        omega
      rw [nroSetArray_replace elements value hlo (by omega), settingPosition, if_neg (by omega)]
      have hpos : idx.toNat - 1 = (idx - 1).toNat := by omega
      rw [nroGetArrayValue, if_neg (by omega), hpos, List.getElem?_set_self (by omega)]

/-- Setting an element does what it is to do except at position 1 of an array that has one,
where the array gets another element at its end. -/
theorem nroSetArray_setsElement_iff (idx : ℤ) :
    SetsElement elements value idx (nroSetArray (some (.array elements)) idx (some value)) ↔
      ¬(idx = 1 ∧ elements ≠ []) := by
  refine ⟨?_, nroSetArray_setsElement elements value⟩
  rintro hsets ⟨rfl, hne⟩
  have hlength := List.length_pos_iff.mpr hne
  obtain ⟨elements', hresult, hsame, -⟩ := hsets.replaces le_rfl (by omega)
  rw [nroSetArray_append elements value (Or.inr (Or.inr rfl))] at hresult
  simp only [Prod.mk.injEq, Option.some.injEq, NrObj.array.injEq, and_true] at hresult
  rw [← hresult, List.length_append] at hsame
  simp at hsame

end

/-- The first of one element is not replaced. -/
theorem nroSetArray_first_not_replaced :
    nroSetArray (some (.array [.int 7])) 1 (some (.int 8)) =
        (some (.array [.int 7, .int 8]), true) ∧
      ¬SetsElement [.int 7] (.int 8) 1
        (nroSetArray (some (.array [.int 7])) 1 (some (.int 8))) := by
  refine ⟨nroSetArray_append [.int 7] (.int 8) (Or.inr (Or.inr rfl)), ?_⟩
  rw [nroSetArray_setsElement_iff]
  simp

end AxiomDaemon.Util

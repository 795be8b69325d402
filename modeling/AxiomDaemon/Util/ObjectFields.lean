import AxiomDaemon.Util.ObjectRoundTrip

/-!
Hashes that are built field by field, where a field without a value is left
out. With distinct keys the hash holds the fields in order, each is found
under its key, and the hash is read back if its fields are.
-/

namespace AxiomDaemon.Util

open AxiomDaemon.Lib ObjectJson

/-- A key and the value under it, if there is one. -/
abbrev Field := Bytes × Option NrObj

def setField (obj : NrObj) (field : Field) : NrObj :=
  match field.2 with
  | none => obj
  | some value => nroSetHash obj field.1 value

def setFields (obj : NrObj) (fields : List Field) : NrObj := fields.foldl setField obj

/-- The entries of a hash that was built from the fields. -/
def fieldEntries (fields : List Field) : List (Bytes × NrObj) :=
  fields.filterMap fun field => field.2.map (field.1, ·)

theorem fieldEntries_cons_none (key : Bytes) (fields : List Field) :
    fieldEntries ((key, none) :: fields) = fieldEntries fields := rfl

theorem fieldEntries_cons_some (key : Bytes) (value : NrObj) (fields : List Field) :
    fieldEntries ((key, some value) :: fields) = (key, value) :: fieldEntries fields := rfl

theorem fieldEntries_append (fields fields' : List Field) :
    fieldEntries (fields ++ fields') = fieldEntries fields ++ fieldEntries fields' :=
  List.filterMap_append

theorem setFields_eq {fields : List Field} (hne : ∀ field ∈ fields, field.1 ≠ [])
    {pre : List (Bytes × NrObj)} (hnodup : (pre.map Prod.fst ++ fields.map Prod.fst).Nodup) :
    setFields (.hash pre) fields = .hash (pre ++ fieldEntries fields) := by
  induction fields generalizing pre with
  | nil => rw [setFields, List.foldl_nil, fieldEntries, List.filterMap_nil, List.append_nil]
  | cons field fields ih =>
      obtain ⟨key, value⟩ := field
      have hne' : ∀ field ∈ fields, field.1 ≠ [] := fun f hf => hne f (by simp [hf])
      rw [List.map_cons] at hnodup
      rw [setFields, List.foldl_cons]
      cases value with
      | none =>
          have hnodup' : (pre.map Prod.fst ++ fields.map Prod.fst).Nodup :=
            hnodup.sublist (List.Sublist.append_left (List.sublist_cons_self _ _) _)
          rw [fieldEntries_cons_none]
          exact ih hne' hnodup'
      | some value =>
          have hfresh : key ∉ pre.map Prod.fst := fun hmem =>
            (List.nodup_append.mp hnodup).2.2 key hmem key (by simp) rfl
          rw [setField, fieldEntries_cons_some]
          simp only
          rw [nroSetHash_of_notMem (hne (key, some value) (by simp)) hfresh]
          have hnodup' : ((pre ++ [(key, value)]).map Prod.fst ++ fields.map Prod.fst).Nodup := by
            simpa using hnodup
          have hrec := ih hne' hnodup'
          rw [setFields] at hrec
          rw [hrec, List.append_assoc, List.singleton_append]

theorem setFields_nil {fields : List Field} (hne : ∀ field ∈ fields, field.1 ≠ [])
    (hnodup : (fields.map Prod.fst).Nodup) :
    setFields (.hash []) fields = .hash (fieldEntries fields) :=
  setFields_eq hne (by rwa [List.map_nil, List.nil_append])

theorem keys_fieldEntries (fields : List Field) :
    ((fieldEntries fields).map Prod.fst).Sublist (fields.map Prod.fst) := by
  induction fields with
  | nil => exact List.Sublist.slnil
  | cons field fields ih =>
      obtain ⟨key, _ | value⟩ := field
      · rw [fieldEntries_cons_none, List.map_cons]
        exact ih.cons key
      · rw [fieldEntries_cons_some, List.map_cons, List.map_cons]
        exact ih.cons_cons key

theorem findEntry_eq_none {key : Bytes} {entries : List (Bytes × NrObj)}
    (h : key ∉ entries.map Prod.fst) : findEntry key entries = none := by
  induction entries with
  | nil => rfl
  | cons entry entries ih =>
      obtain ⟨k, v⟩ := entry
      simp only [List.map_cons, List.mem_cons, not_or] at h
      rw [findEntry, if_neg (Ne.symm h.1), ih h.2]

theorem findEntry_fieldEntries {fields : List Field} (hnodup : (fields.map Prod.fst).Nodup)
    {key : Bytes} {value : Option NrObj} (h : (key, value) ∈ fields) :
    findEntry key (fieldEntries fields) = value := by
  induction fields with
  | nil => exact absurd h (by simp)
  | cons field fields ih =>
      rw [List.map_cons, List.nodup_cons] at hnodup
      rcases List.mem_cons.mp h with rfl | hmem
      · cases value with
        | none =>
            rw [fieldEntries_cons_none]
            exact findEntry_eq_none fun hmem => hnodup.1 ((keys_fieldEntries fields).subset hmem)
        | some value => rw [fieldEntries_cons_some, findEntry, if_pos rfl]
      · obtain ⟨k, v⟩ := field
        have hne : k ≠ key := by
          rintro rfl
          exact hnodup.1 (List.mem_map.mpr ⟨_, hmem, rfl⟩)
        cases v with
        | none =>
            rw [fieldEntries_cons_none]
            exact ih hnodup.2 hmem
        | some v =>
            rw [fieldEntries_cons_some, findEntry, if_neg hne]
            exact ih hnodup.2 hmem

theorem nroGetHashValue_fieldEntries {fields : List Field} (hnodup : (fields.map Prod.fst).Nodup)
    {key : Bytes} (hne : key ≠ []) {value : Option NrObj} (h : (key, value) ∈ fields) :
    nroGetHashValue (some (.hash (fieldEntries fields))) key = value := by
  rw [nroGetHashValue]
  simp only [if_neg hne, findEntry_fieldEntries hnodup h]

/-! ### One field -/

theorem findEntry_setEntry (key key' : Bytes) (value : NrObj) (entries : List (Bytes × NrObj)) :
    findEntry key' (setEntry key value entries) =
      if key' = key then some value else findEntry key' entries := by
  induction entries with
  | nil => simp [setEntry, findEntry, eq_comm]
  | cons entry entries ih =>
      obtain ⟨k, v⟩ := entry
      by_cases hk : k = key
      · subst hk
        by_cases hkey : key' = k
        · simp [setEntry, findEntry, hkey]
        · simp [setEntry, findEntry, hkey, Ne.symm hkey]
      · by_cases hk' : k = key'
        · subst hk'
          simp [setEntry, findEntry, hk]
        · simp [setEntry, findEntry, hk, hk', ih]

/-- The object is a hash, as every object is that fields were set in. -/
def NrObj.IsHash (obj : NrObj) : Prop := ∃ entries, obj = .hash entries

theorem NrObj.isHash_hash (entries : List (Bytes × NrObj)) : (NrObj.hash entries).IsHash :=
  ⟨entries, rfl⟩

theorem NrObj.IsHash.nroSetHash {obj : NrObj} (h : obj.IsHash) (key : Bytes) (value : NrObj) :
    (nroSetHash obj key value).IsHash := by
  obtain ⟨entries, rfl⟩ := h
  rw [Util.nroSetHash]
  split_ifs
  · exact ⟨entries, rfl⟩
  · exact ⟨_, rfl⟩

theorem NrObj.IsHash.getHashValue_nroSetHash {obj : NrObj} (h : obj.IsHash) {key : Bytes}
    (hkey : key ≠ []) (value : NrObj) (key' : Bytes) :
    nroGetHashValue (some (Util.nroSetHash obj key value)) key' =
      if key' = key then some value else nroGetHashValue (some obj) key' := by
  obtain ⟨entries, rfl⟩ := h
  rw [Util.nroSetHash, if_neg hkey, nroGetHashValue, nroGetHashValue, findEntry_setEntry]
  by_cases hempty : key' = []
  · rw [if_pos hempty, if_pos hempty, if_neg (hempty ▸ hkey.symm)]
  · rw [if_neg hempty, if_neg hempty]

/-! ### Round trips -/

/-- The field is read as another one of the same key. -/
structure FieldReadsAs (unset : Bytes → ℕ) (field field' : Field) : Prop where
  key_eq : field'.1 = field.1
  key : IsBmpString field.1
  key_ne_nil : field.1 ≠ []
  value : Option.Rel (ReadsAs unset) field.2 field'.2

theorem entriesReadAs {unset : Bytes → ℕ} {fields fields' : List Field}
    (h : List.Forall₂ (FieldReadsAs unset) fields fields') :
    List.Forall₂ (EntryReadsAs unset) (fieldEntries fields) (fieldEntries fields') := by
  induction h with
  | nil => exact List.Forall₂.nil
  | @cons field field' fields fields' hfield hfields ih =>
      obtain ⟨key, value⟩ := field
      obtain ⟨key', value'⟩ := field'
      obtain ⟨hkey, hbmp, hne, hvalue⟩ := hfield
      cases hvalue with
      | none => exact ih
      | some hvalue => exact List.Forall₂.cons ⟨hkey, hbmp, hne, hvalue⟩ ih

/-- A hash of fields is read as the hash of what its fields are read as. -/
theorem readsAs_fields {unset : Bytes → ℕ} {fields fields' : List Field}
    (h : List.Forall₂ (FieldReadsAs unset) fields fields') (hnodup : (fields.map Prod.fst).Nodup) :
    ReadsAs unset (.hash (fieldEntries fields)) (.hash (fieldEntries fields')) :=
  readsAs_hash unset (entriesReadAs h) (hnodup.sublist (keys_fieldEntries fields))

end AxiomDaemon.Util

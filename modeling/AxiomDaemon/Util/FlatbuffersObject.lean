import AxiomDaemon.Util.FlatbuffersBuilder

/-!
Objects: the places of the fields while an object is open, and the table that
closing it makes of them, with a vtable of its own or one that is shared.
-/

namespace AxiomDaemon.Util

open AxiomDaemon.Lib AxiomDaemon.Lib.Flatbuffers

/-! ### Fields of the open object -/

/-- A field by its place, which is 0 for a field that was not written. -/
def SlotFor (buf : Bytes) (slot : ℕ) : Option Field → Prop
  | none => slot = 0
  | some field => 0 < slot ∧ field.Holds buf slot

/-- The places of all fields. -/
def Slots (buf : Bytes) (vtable : List ℕ) (fields : ℕ → Option Field) : Prop :=
  ∀ i, SlotFor buf (vtable.getD i 0) (fields i)

section Slots

variable {buf : Bytes} {vtable : List ℕ} {fields : ℕ → Option Field}

theorem SlotFor.prepend {slot : ℕ} {field : Option Field} (h : SlotFor buf slot field)
    (front : Bytes) : SlotFor (front ++ buf) slot field := by
  cases field with
  | none => exact h
  | some field => exact ⟨h.1, h.2.prepend front⟩

theorem Slots.prepend (h : Slots buf vtable fields) (front : Bytes) :
    Slots (front ++ buf) vtable fields := fun i => (h i).prepend front

theorem slots_replicate (buf : Bytes) (n : ℕ) :
    Slots buf (List.replicate n 0) fun _ => none := by
  intro i
  show (List.replicate n 0).getD i 0 = 0
  rw [List.getD_eq_getElem?_getD, List.getElem?_replicate]
  split <;> rfl

theorem Slots.set {i slot : ℕ} {field : Field} (h : Slots buf vtable fields)
    (hi : i < vtable.length) (hslot : 0 < slot) (hfield : field.Holds buf slot) :
    Slots buf (vtable.set i slot) (Function.update fields i (some field)) := by
  intro j
  by_cases hj : j = i
  · subst hj
    rw [Function.update_self, List.getD_eq_getElem?_getD, List.getElem?_set_self hi]
    exact ⟨hslot, hfield⟩
  · rw [Function.update_of_ne hj, List.getD_eq_getElem?_getD,
      List.getElem?_set_ne (Ne.symm hj), ← List.getD_eq_getElem?_getD]
    exact h j

theorem Slots.slot_le (h : Slots buf vtable fields) {slot : ℕ} (hslot : slot ∈ vtable) :
    slot ≤ buf.length := by
  obtain ⟨i, hi, rfl⟩ := List.getElem_of_mem hslot
  have hfield := h i
  rw [List.getD_eq_getElem _ _ hi] at hfield
  cases hf : fields i with
  | none =>
      rw [hf] at hfield
      rw [show vtable[i] = 0 from hfield]
      exact Nat.zero_le _
  | some field =>
      rw [hf] at hfield
      cases field with
      | inline bytes => exact hfield.2.1
      | ref target => exact hfield.2.2.1

end Slots

/-! ### Relative places -/

theorem relativeField_lt {objectOffset slot entry : ℕ}
    (h : relativeField objectOffset slot = some entry) : entry < 2 ^ 16 := by
  unfold relativeField at h
  split at h
  · obtain rfl := Option.some.inj h
    decide
  · split at h
    · obtain rfl := Option.some.inj h
      omega
    · cases h

theorem SlotFor.entryFor {buf : Bytes} {objectOffset slot entry : ℕ} {field : Option Field}
    (h : SlotFor buf slot field) (hrel : relativeField objectOffset slot = some entry) :
    EntryFor buf objectOffset entry field := by
  unfold relativeField at hrel
  cases field with
  | none =>
      rw [if_pos (show slot = 0 from h)] at hrel
      exact (Option.some.inj hrel).symm
  | some field =>
      obtain ⟨hslot, hholds⟩ := h
      rw [if_neg (Nat.ne_of_gt hslot)] at hrel
      split at hrel
      · next hlt =>
          obtain rfl := Option.some.inj hrel
          exact ⟨slot, hlt.1, rfl, hholds⟩
      · cases hrel

theorem mapM_relativeField {objectOffset : ℕ} {slots entries : List ℕ}
    (h : slots.mapM (relativeField objectOffset) = some entries) :
    entries.length = slots.length ∧
      ∀ i, relativeField objectOffset (slots.getD i 0) = some (entries.getD i 0) := by
  induction slots generalizing entries with
  | nil =>
      obtain rfl := Option.some.inj h
      exact ⟨rfl, fun i => rfl⟩
  | cons slot slots ih =>
      rw [List.mapM_cons] at h
      obtain ⟨entry, hentry, hrest⟩ := Option.bind_eq_some_iff.mp h
      obtain ⟨rest, hmap, hcons⟩ := Option.bind_eq_some_iff.mp hrest
      obtain rfl := Option.some.inj hcons
      obtain ⟨hlength, hentries⟩ := ih hmap
      refine ⟨by rw [List.length_cons, List.length_cons, hlength], fun i => ?_⟩
      cases i with
      | zero => exact hentry
      | succ i => exact hentries i

/-! ### Vtables that exist -/

section Find

variable {fb : Flatbuffer} {buf front : Bytes} {vtable : ℕ} {entries : List ℕ}

theorem nrFlatbuffersVtableNumFields_eq (h : VtableAt fb.bytes vtable entries) :
    nrFlatbuffersVtableNumFields fb vtable = some entries.length := by
  unfold nrFlatbuffersVtableNumFields nrFlatbuffersReadU16 nrFlatbuffersLen
  rw [h.read_size]
  have hsize := h.size
  show some _ = some _
  congr 1
  omega

theorem nrFlatbuffersVtableField_eq (h : VtableAt fb.bytes vtable entries) {j : ℕ}
    (hj : j < entries.length) :
    nrFlatbuffersVtableField fb vtable j = some (entries.getD j 0) := by
  have hoffset : nrFlatbuffersLen fb - vtable + 4 + j * 2 =
      fb.bytes.length - vtable + 2 * (2 + j) := by
    unfold nrFlatbuffersLen
    omega
  unfold nrFlatbuffersVtableField nrFlatbuffersReadU16
  rw [hoffset]
  exact h.read_entry hj

theorem matchFields_eq (h : VtableAt fb.bytes vtable entries) {i : ℕ} {fields : List ℕ}
    (hlength : i + fields.length = entries.length) :
    matchFields fb vtable i fields = some (decide (entries.drop i = fields)) := by
  induction fields generalizing i with
  | nil =>
      have hdrop : entries.drop i = [] := List.drop_eq_nil_of_le (Nat.le_of_eq hlength.symm)
      rw [matchFields, hdrop]
      rfl
  | cons field fields ih =>
      rw [List.length_cons] at hlength
      have hi : i < entries.length := by omega
      have hdrop : entries.drop i = entries.getD i 0 :: entries.drop (i + 1) := by
        rw [List.getD_eq_getElem _ _ hi]
        exact List.drop_eq_getElem_cons hi
      rw [matchFields, nrFlatbuffersVtableField_eq h hi, hdrop]
      show (if entries.getD i 0 ≠ field then some false else _) = _
      rw [ih (by omega)]
      by_cases heq : entries.getD i 0 = field
      · rw [if_neg (not_not_intro heq), heq]
        simp only [List.cons.injEq, true_and]
      · have hne : entries.getD i 0 :: entries.drop (i + 1) ≠ field :: fields :=
          fun hcons => heq (List.cons.inj hcons).1
        rw [if_pos heq, decide_eq_false hne]

/-- A vtable matches exactly if it has the entries that are looked for. -/
theorem nrFlatbuffersMatchVtable_eq (h : VtableAt fb.bytes vtable entries) :
    nrFlatbuffersMatchVtable fb vtable = some (decide (entries = fb.vtable)) := by
  unfold nrFlatbuffersMatchVtable
  rw [nrFlatbuffersVtableNumFields_eq h]
  show (if fb.vtable.length ≠ entries.length then some false else _) = _
  by_cases hlength : fb.vtable.length = entries.length
  · rw [if_neg (not_not_intro hlength), matchFields_eq h (by omega), List.drop_zero]
  · have hne : entries ≠ fb.vtable := by
      intro heq
      apply hlength
      rw [heq]
    rw [if_pos hlength, decide_eq_false hne]

/-- What is found has the entries that are looked for, also in the part of the buffer that
the vtables are in. -/
theorem findVtable_spec (hbytes : fb.bytes = front ++ buf) {vtables : List ℕ}
    (hvtables : ∀ v ∈ vtables, ∃ entries, VtableAt buf v entries) :
    ∃ v, findVtable fb vtables = some v ∧ (v = 0 ∨ (v ≠ 0 ∧ VtableAt buf v fb.vtable)) := by
  induction vtables with
  | nil => exact ⟨0, rfl, .inl rfl⟩
  | cons v vtables ih =>
      obtain ⟨entries, hv⟩ := hvtables v (List.mem_cons_self ..)
      have hmatch := nrFlatbuffersMatchVtable_eq (hbytes ▸ hv.prepend front)
      rw [findVtable, hmatch]
      by_cases heq : entries = fb.vtable
      · refine ⟨v, by simp [heq], .inr ⟨?_, heq ▸ hv⟩⟩
        have := hv.length_le
        omega
      · obtain ⟨found, hfound, hcases⟩ :=
          ih fun other hother => hvtables other (List.mem_cons_of_mem v hother)
        exact ⟨found, by simpa [heq] using hfound, hcases⟩

end Find

/-! ### Vtables that are written -/

section Encode

variable {fb : Flatbuffer} {front word rest : Bytes} {place : ℕ} (x : ℕ)
  (hbytes : fb.bytes = front ++ (word ++ rest)) (hword : word.length = 4)
  (hplace : place = (word ++ rest).length)

include hbytes hword hplace

theorem nrFlatbuffersEncodeI32_bytes :
    (nrFlatbuffersEncodeI32 fb place x).bytes = front ++ (uintLE 4 x ++ rest) := by
  have hindex : fb.bytes.length - place = front.length := by
    rw [hbytes, hplace, List.length_append, Nat.add_sub_cancel]
  have hlength : (uintLE 4 x).length = word.length := by
    rw [length_uintLE, hword]
  unfold nrFlatbuffersEncodeI32
  simp only [hindex]
  rw [hbytes, blockCopy_append hlength]

theorem length_nrFlatbuffersEncodeI32 :
    (nrFlatbuffersEncodeI32 fb place x).bytes.length = fb.bytes.length := by
  rw [nrFlatbuffersEncodeI32_bytes x hbytes hword hplace, hbytes]
  simp only [List.length_append, length_uintLE, hword]

theorem Flatbuffer.Aligned.encodeI32 (ha : fb.Aligned) :
    (nrFlatbuffersEncodeI32 fb place x).Aligned := by
  refine ⟨ha.front, ?_, ha.minAlign⟩
  have hcapacity : (nrFlatbuffersEncodeI32 fb place x).capacity = fb.capacity :=
    congrArg (fb.room + ·) (length_nrFlatbuffersEncodeI32 x hbytes hword hplace)
  rw [hcapacity]
  exact ha.capacity

end Encode

section Write

variable {malloc : ℕ → ℕ} (hmalloc : ∀ n, 4 ∣ malloc n) {fb fb' : Flatbuffer}

include hmalloc

/-- The entries of a vtable follow each other, the last one written first. -/
theorem foldlM_prependU16_spec {entries : List ℕ} (ha : fb.Aligned) (hdvd : 2 ∣ fb.bytes.length)
    (h : entries.reverse.foldlM (nrFlatbuffersPrependU16 malloc) fb = some fb') :
    Extends fb fb' (entries.flatMap (uintLE 2)) ∧ 2 ∣ fb'.bytes.length := by
  induction entries generalizing fb' with
  | nil =>
      obtain rfl := Option.some.inj h
      exact ⟨.refl fb, hdvd⟩
  | cons entry entries ih =>
      rw [List.reverse_cons, List.foldlM_append] at h
      obtain ⟨behind, hbehind, hlast⟩ := Option.bind_eq_some_iff.mp h
      have hlast : nrFlatbuffersPrependU16 malloc behind entry = some fb' := by
        simpa using hlast
      obtain ⟨hextends, hdvd'⟩ := ih hbehind
      obtain ⟨hextends', hdvd''⟩ :=
        nrFlatbuffersPrependU16_spec hmalloc hlast (hextends.aligned ha) hdvd'
      rw [List.flatMap_cons]
      exact ⟨hextends.trans hextends', hdvd''⟩

/-- The entries, in front of them the size of the table, and in front of it their own. -/
theorem prependVtable_entries_spec {fields tableSize : ℕ} {entries : List ℕ}
    {filled sized : Flatbuffer} (ha : fb.Aligned) (hdvd : 2 ∣ fb.bytes.length)
    (hfill : entries.reverse.foldlM (nrFlatbuffersPrependU16 malloc) fb = some filled)
    (hsized : nrFlatbuffersPrependU16 malloc filled tableSize = some sized)
    (hfull : nrFlatbuffersPrependU16 malloc sized ((fields + 2) * 2) = some fb') :
    Extends fb fb'
      (uintLE 2 (2 * fields + 4) ++ uintLE 2 tableSize ++ entries.flatMap (uintLE 2)) := by
  obtain ⟨hextends, hdvd⟩ := foldlM_prependU16_spec hmalloc ha hdvd hfill
  have ha := hextends.aligned ha
  obtain ⟨hextends', hdvd⟩ := nrFlatbuffersPrependU16_spec hmalloc hsized ha hdvd
  have ha := hextends'.aligned ha
  obtain ⟨hextends'', _⟩ := nrFlatbuffersPrependU16_spec hmalloc hfull ha hdvd
  have hsize : (fields + 2) * 2 = 2 * fields + 4 := by ring
  rw [hsize] at hextends''
  rw [List.append_assoc]
  exact (hextends.trans hextends').trans hextends''

theorem writeVtable_length_le {objectOffset : ℕ}
    (h : writeVtable malloc fb objectOffset = some fb') :
    fb.bytes.length ≤ fb'.bytes.length := by
  obtain ⟨filled, hfill, hrest⟩ := Option.bind_eq_some_iff.mp h
  obtain ⟨sized, hsized, hrest⟩ := Option.bind_eq_some_iff.mp hrest
  obtain ⟨full, hfull, hrest⟩ := Option.bind_eq_some_iff.mp hrest
  obtain ⟨_, hextends⟩ := foldlM_extends (fun _ _ _ => nrFlatbuffersPrependU16_extends hmalloc) hfill
  obtain ⟨_, hextends'⟩ := nrFlatbuffersPrependU16_extends hmalloc hsized
  obtain ⟨_, hextends''⟩ := nrFlatbuffersPrependU16_extends hmalloc hfull
  have hle := ((hextends.trans hextends').trans hextends'').length_le
  obtain rfl := Option.some.inj hrest
  exact hle.trans (length_le_blockCopy _ _ _)

/-- A vtable that is written is where the buffer starts then, and the object refers to it. -/
theorem writeVtable_spec {word rest : Bytes} {objectOffset : ℕ} (ha : fb.Aligned)
    (hbytes : fb.bytes = word ++ rest) (hword : word.length = 4)
    (hplace : objectOffset = (word ++ rest).length) (hdvd : 2 ∣ fb.bytes.length)
    (hsize : 2 * fb.vtable.length + 4 < 2 ^ 16) (hlt : ∀ e ∈ fb.vtable, e < 2 ^ 16)
    (h : writeVtable malloc fb objectOffset = some fb') :
    ∃ front, fb'.bytes = front ++ (uintLE 4 (wordDiff fb'.bytes.length objectOffset) ++ rest) ∧
      VtableAt fb'.bytes fb'.bytes.length fb.vtable ∧
      fb'.vtables = fb'.bytes.length % 2 ^ 32 :: fb.vtables ∧ fb'.Aligned := by
  obtain ⟨filled, hfill, hrest⟩ := Option.bind_eq_some_iff.mp h
  obtain ⟨sized, hsized, hrest⟩ := Option.bind_eq_some_iff.mp hrest
  obtain ⟨full, hfull, hrest⟩ := Option.bind_eq_some_iff.mp hrest
  have hextends := prependVtable_entries_spec hmalloc ha hdvd hfill hsized hfull
  have hfilled := hextends.bytes
  rw [hbytes] at hfilled
  have hencoded := nrFlatbuffersEncodeI32_bytes (wordDiff (nrFlatbuffersLen full) objectOffset)
    hfilled hword hplace
  have hlength := length_nrFlatbuffersEncodeI32 (wordDiff (nrFlatbuffersLen full) objectOffset)
    hfilled hword hplace
  have haligned := (hextends.aligned ha).encodeI32 (wordDiff (nrFlatbuffersLen full) objectOffset)
    hfilled hword hplace
  obtain rfl := Option.some.inj hrest
  refine ⟨uintLE 2 (2 * fb.vtable.length + 4) ++ uintLE 2 (objectOffset - filled.objectEnd) ++
    fb.vtable.flatMap (uintLE 2), ?_, ⟨hsize, hlt, objectOffset - filled.objectEnd, ?_⟩, ?_,
    haligned.front, haligned.capacity, haligned.minAlign⟩
  · show (nrFlatbuffersEncodeI32 full objectOffset _).bytes =
      _ ++ (uintLE 4 (wordDiff (nrFlatbuffersEncodeI32 full objectOffset _).bytes.length _) ++ rest)
    rw [hlength]
    exact hencoded
  · show At (nrFlatbuffersEncodeI32 full objectOffset _).bytes
      (nrFlatbuffersEncodeI32 full objectOffset _).bytes.length _
    rw [hencoded]
    exact at_front _ _
  · show _ :: full.vtables = _
    rw [hextends.vtables]
    rfl

end Write

/-! ### Closing an object -/

/-- The vtables that were saved are where they were saved, in a buffer. -/
def VtablesIn (buf : Bytes) (vtables : List ℕ) : Prop :=
  ∀ v ∈ vtables, ∃ entries, VtableAt buf v entries

theorem VtablesIn.prepend {buf : Bytes} {vtables : List ℕ} (h : VtablesIn buf vtables)
    (front : Bytes) : VtablesIn (front ++ buf) vtables := by
  intro v hv
  obtain ⟨entries, hentries⟩ := h v hv
  exact ⟨entries, hentries.prepend front⟩

/-- The buffer when the start of an object is known: a word, behind it padding and what
there was, and the entries of the vtable that the object needs. -/
structure ObjectStarted (fb opened : Flatbuffer) (offset : ℕ) : Prop where
  bytes : ∃ word pad, word.length = 4 ∧ opened.bytes = word ++ (pad ++ fb.bytes)
  vtable : fb.vtable.mapM (relativeField offset) = some opened.vtable
  vtables : opened.vtables = fb.vtables
  offset : offset = opened.bytes.length % 2 ^ 32
  aligned : fb.Aligned → opened.Aligned ∧ 2 ∣ opened.bytes.length

/-- What an object that is closed leaves: a table with the fields that were written. -/
structure ObjectClosed (fb : Flatbuffer) (fields : ℕ → Option Field) (offset : ℕ)
    (closed : Flatbuffer) : Prop where
  bytes : ∃ front, closed.bytes = front ++ fb.bytes
  table : TableAt closed.bytes offset fields
  vtables : VtablesIn closed.bytes closed.vtables
  aligned : closed.Aligned
  offset_le : fb.bytes.length + 4 ≤ offset
  vtable_le : 2 * fb.vtable.length + 4 ≤ closed.bytes.length

/-- A table is where its fields were written, behind the reference to its vtable. -/
theorem tableAt_of_slots {buf front pad : Bytes} {objectOffset vtable : ℕ}
    {slots entries : List ℕ} {fields : ℕ → Option Field}
    (hplace : objectOffset =
      (uintLE 4 (wordDiff vtable objectOffset) ++ (pad ++ buf)).length)
    (hvtable : VtableAt (front ++ (uintLE 4 (wordDiff vtable objectOffset) ++ (pad ++ buf)))
      vtable entries) (hslots : Slots buf slots fields)
    (hentries : ∀ i, relativeField objectOffset (slots.getD i 0) = some (entries.getD i 0)) :
    TableAt (front ++ (uintLE 4 (wordDiff vtable objectOffset) ++ (pad ++ buf))) objectOffset
      fields := by
  refine ⟨vtable, entries, ?_, hvtable, fun i => ?_⟩
  · have hat := (at_front (uintLE 4 (wordDiff vtable objectOffset)) (pad ++ buf)).prepend front
    rwa [← hplace] at hat
  · apply SlotFor.entryFor _ (hentries i)
    rw [← List.append_assoc, ← List.append_assoc]
    exact (hslots i).prepend _

section Closed

variable {malloc : ℕ → ℕ} (hmalloc : ∀ n, 4 ∣ malloc n) {fb opened : Flatbuffer} {offset : ℕ}
  {fields : ℕ → Option Field} (hstarted : ObjectStarted fb opened offset) (ha : fb.Aligned)
  (hslots : Slots fb.bytes fb.vtable fields) (hvtables : VtablesIn fb.bytes fb.vtables)
  (hlength : opened.bytes.length < 2 ^ 31)

include hstarted ha hslots hvtables hlength

theorem objectClosed_encodeI32 {v : ℕ} (hv : VtableAt fb.bytes v opened.vtable) :
    ObjectClosed fb fields offset (nrFlatbuffersEncodeI32 opened offset (wordDiff v offset)) := by
  obtain ⟨word, pad, hword, hbytes⟩ := hstarted.bytes
  have hoffset : offset = (word ++ (pad ++ fb.bytes)).length := by
    rw [hstarted.offset, ← hbytes]
    apply Nat.mod_eq_of_lt
    omega
  have hopened : opened.bytes = [] ++ (word ++ (pad ++ fb.bytes)) := hbytes
  have hencoded := nrFlatbuffersEncodeI32_bytes (wordDiff v offset) hopened hword hoffset
  have hfront : (nrFlatbuffersEncodeI32 opened offset (wordDiff v offset)).bytes =
      (uintLE 4 (wordDiff v offset) ++ pad) ++ fb.bytes := by
    rw [hencoded, List.append_assoc]
    rfl
  refine ⟨⟨_, hfront⟩, ?_, ?_, ?_, ?_, ?_⟩
  · rw [hencoded]
    apply tableAt_of_slots _ _ hslots (mapM_relativeField hstarted.vtable).2
    · rw [hoffset]
      simp only [List.length_append, length_uintLE, hword]
    · rw [List.nil_append, ← List.append_assoc]
      exact hv.prepend _
  · rw [hfront]
    show VtablesIn _ opened.vtables
    rw [hstarted.vtables]
    exact hvtables.prepend _
  · exact (hstarted.aligned ha).1.encodeI32 _ hopened hword hoffset
  · rw [hoffset, List.length_append, List.length_append]
    omega
  · have hle := hv.length_le.trans hv.le_length
    rw [(mapM_relativeField hstarted.vtable).1] at hle
    rw [hfront, List.length_append]
    omega

include hmalloc

theorem objectClosed_writeVtable {written : Flatbuffer} (hcount : fb.vtable.length ≤ 32765)
    (hwrite : writeVtable malloc opened offset = some written)
    (hwritten : written.bytes.length < 2 ^ 31) : ObjectClosed fb fields offset written := by
  obtain ⟨word, pad, hword, hbytes⟩ := hstarted.bytes
  obtain ⟨hentries_length, hentries⟩ := mapM_relativeField hstarted.vtable
  have hoffset : offset = (word ++ (pad ++ fb.bytes)).length := by
    rw [hstarted.offset, ← hbytes]
    apply Nat.mod_eq_of_lt
    omega
  have hlt : ∀ e ∈ opened.vtable, e < 2 ^ 16 := by
    intro e he
    obtain ⟨i, hi, rfl⟩ := List.getElem_of_mem he
    have hentry := hentries i
    rw [List.getD_eq_getElem _ _ hi] at hentry
    exact relativeField_lt hentry
  obtain ⟨haligned, hdvd⟩ := hstarted.aligned ha
  obtain ⟨front, hfront, hvtable, hsaved, haligned'⟩ := writeVtable_spec hmalloc haligned hbytes
    hword hoffset hdvd (by omega) hlt hwrite
  have hle := hvtable.length_le
  rw [hentries_length] at hle
  generalize written.bytes.length = v at hfront hvtable hsaved hwritten
  have hfront' : written.bytes = (front ++ (uintLE 4 (wordDiff v offset) ++ pad)) ++ fb.bytes := by
    rw [List.append_assoc, List.append_assoc]
    exact hfront
  refine ⟨⟨_, hfront'⟩, ?_, ?_, haligned', ?_, hle⟩
  · rw [hfront] at hvtable ⊢
    apply tableAt_of_slots _ hvtable hslots hentries
    rw [hoffset]
    simp only [List.length_append, length_uintLE, hword]
  · rw [hsaved, hstarted.vtables]
    intro other hother
    obtain rfl | hother := List.mem_cons.mp hother
    · rw [Nat.mod_eq_of_lt (by omega)]
      exact ⟨_, hvtable⟩
    · rw [hfront']
      exact hvtables.prepend _ other hother
  · rw [hoffset, List.length_append, List.length_append]
    omega

end Closed

section End

variable {malloc : ℕ → ℕ} {fb closed : Flatbuffer} {offset : ℕ}

/-- What closing an object does: it shares a vtable that exists, or writes one. -/
theorem nrFlatbuffersPrependVtable_cases (hmalloc : ∀ n, 4 ∣ malloc n)
    (h : nrFlatbuffersPrependVtable malloc fb = some (offset, closed)) :
    ∃ opened existing, ObjectStarted fb opened offset ∧
      findVtable opened opened.vtables = some existing ∧
      ((existing = 0 ∧ ∃ written, writeVtable malloc opened offset = some written ∧
          closed = { written with vtable := [] }) ∨
        (existing ≠ 0 ∧ closed =
          { nrFlatbuffersEncodeI32 opened offset (wordDiff existing offset) with vtable := [] })) := by
  obtain ⟨prepended, hprepend, hrest⟩ := Option.bind_eq_some_iff.mp h
  obtain ⟨entries, hentries, hrest⟩ := Option.bind_eq_some_iff.mp hrest
  obtain ⟨existing, hexisting, hrest⟩ := Option.bind_eq_some_iff.mp hrest
  obtain ⟨pad, _, hextends, hdvd⟩ := nrFlatbuffersPrepend_spec hmalloc hprepend
  have hstarted : ObjectStarted fb { prepended with vtable := entries }
      (nrFlatbuffersLen prepended % 2 ^ 32) := by
    refine ⟨⟨uintLE 4 0, List.replicate pad 0, length_uintLE 4 0, ?_⟩, ?_, hextends.vtables, rfl,
      fun ha => ⟨?_, ?_⟩⟩
    · exact hextends.bytes.trans (List.append_assoc _ _ _)
    · rw [← hextends.vtable]
      exact hentries
    · have ha' := hextends.aligned ha
      exact ⟨ha'.front, ha'.capacity, ha'.minAlign⟩
    · exact (show 2 ∣ 4 by decide).trans (hdvd ha (Nat.dvd_refl 4))
  dsimp only at hrest
  by_cases hzero : existing = 0
  · rw [if_pos hzero] at hrest
    obtain ⟨written, hwritten, hlast⟩ := Option.bind_eq_some_iff.mp hrest
    obtain ⟨rfl, rfl⟩ := Prod.mk.inj (Option.some.inj hlast)
    exact ⟨_, existing, hstarted, hexisting, .inl ⟨hzero, written, hwritten, rfl⟩⟩
  · rw [if_neg hzero] at hrest
    obtain ⟨rfl, rfl⟩ := Prod.mk.inj (Option.some.inj hrest)
    exact ⟨_, existing, hstarted, hexisting, .inr ⟨hzero, rfl⟩⟩

theorem ObjectClosed.clear {fields : ℕ → Option Field} {written : Flatbuffer}
    (h : ObjectClosed fb fields offset written) (inside : Bool) :
    ObjectClosed fb fields offset { written with vtable := [], insideObject := inside } :=
  ⟨h.bytes, h.table, h.vtables, ⟨h.aligned.front, h.aligned.capacity, h.aligned.minAlign⟩,
    h.offset_le, h.vtable_le⟩

variable (hmalloc : ∀ n, 4 ∣ malloc n) (ha : fb.Aligned)

include hmalloc ha

theorem nrFlatbuffersPrependVtable_spec {fields : ℕ → Option Field}
    (hslots : Slots fb.bytes fb.vtable fields) (hvtables : VtablesIn fb.bytes fb.vtables)
    (hcount : fb.vtable.length ≤ 32765)
    (h : nrFlatbuffersPrependVtable malloc fb = some (offset, closed))
    (hlength : closed.bytes.length < 2 ^ 31) :
    ObjectClosed fb fields offset closed ∧ closed.vtable = [] := by
  obtain ⟨opened, existing, hstarted, hexisting, hcases⟩ :=
    nrFlatbuffersPrependVtable_cases hmalloc h
  obtain ⟨_, written, hwrite, rfl⟩ | ⟨hne, rfl⟩ := hcases
  · have hwritten : written.bytes.length < 2 ^ 31 := hlength
    have hopened := (writeVtable_length_le hmalloc hwrite).trans_lt hwritten
    have hclosed := objectClosed_writeVtable hmalloc hstarted ha hslots hvtables hopened hcount
      hwrite hwritten
    exact ⟨hclosed.clear written.insideObject, rfl⟩
  · have hopened : opened.bytes.length < 2 ^ 31 :=
      (length_le_blockCopy _ _ _).trans_lt hlength
    obtain ⟨word, pad, _, hbytes⟩ := hstarted.bytes
    rw [← List.append_assoc] at hbytes
    rw [← hstarted.vtables] at hvtables
    obtain ⟨found, hfound, hcases⟩ := findVtable_spec hbytes hvtables
    obtain rfl := Option.some.inj (hfound.symm.trans hexisting)
    have hv := (hcases.resolve_left hne).2
    rw [hstarted.vtables] at hvtables
    exact ⟨(objectClosed_encodeI32 hstarted ha hslots hvtables hopened hv).clear
      opened.insideObject, rfl⟩

theorem nrFlatbuffersObjectEnd_spec {fields : ℕ → Option Field} (hinside : fb.insideObject = true)
    (hslots : Slots fb.bytes fb.vtable fields) (hvtables : VtablesIn fb.bytes fb.vtables)
    (hcount : fb.vtable.length ≤ 32765)
    (h : nrFlatbuffersObjectEnd malloc fb = some (offset, closed))
    (hlength : closed.bytes.length < 2 ^ 31) :
    ObjectClosed fb fields offset closed ∧ closed.insideObject = false := by
  unfold nrFlatbuffersObjectEnd at h
  rw [if_pos hinside] at h
  obtain ⟨⟨place, ended⟩, hended, hrest⟩ := Option.bind_eq_some_iff.mp h
  obtain ⟨rfl, rfl⟩ := Prod.mk.inj (Option.some.inj hrest)
  obtain ⟨hclosed, hvtable⟩ := nrFlatbuffersPrependVtable_spec hmalloc ha hslots hvtables hcount
    hended hlength
  have hcleared := hclosed.clear false
  rw [← hvtable] at hcleared
  exact ⟨hcleared, rfl⟩

end End

end AxiomDaemon.Util

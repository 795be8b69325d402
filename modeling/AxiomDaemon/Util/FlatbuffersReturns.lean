import AxiomDaemon.Util.FlatbuffersObject

namespace AxiomDaemon.Util

open AxiomDaemon.Lib AxiomDaemon.Lib.Flatbuffers

/-! ### When the functions return -/

/-- Sizes below a gigabyte have none of the bits that growing refuses. -/
theorem and_giga_eq_zero {n : ℕ} (h : n < 2 ^ 30) : n &&& 0xC0000000 = 0 := by
  apply Nat.eq_of_testBit_eq
  intro i
  rw [Nat.testBit_and, Nat.zero_testBit, show 0xC0000000 = 2 ^ 30 * 3 by rfl,
    Nat.testBit_two_pow_mul]
  by_cases hi : 30 ≤ i
  · have hlt : n < 2 ^ i := h.trans_le (Nat.pow_le_pow_right Nat.two_pos hi)
    rw [Nat.testBit_lt_two_pow hlt, Bool.false_and]
  · rw [decide_eq_false hi, Bool.false_and, Bool.and_false]

/-- Functions that return and write little do so one after the other. -/
theorem foldlM_returns (inv : Flatbuffer → Prop) (good : ℕ → ℕ → Prop)
    {f : Flatbuffer → ℕ → Option Flatbuffer} {step : ℕ}
    (hgood : ∀ {x n n'}, good x n → n ≤ n' → good x n')
    (hf : ∀ {fb x}, inv fb → good x fb.bytes.length → fb.bytes.length + step < 2 ^ 30 →
      ∃ fb', f fb x = some fb' ∧ inv fb' ∧ fb.bytes.length ≤ fb'.bytes.length ∧
        fb'.bytes.length < fb.bytes.length + step)
    {l : List ℕ} {fb : Flatbuffer} (hfb : inv fb) (hl : ∀ x ∈ l, good x fb.bytes.length)
    (h : fb.bytes.length + step * (l.length + 1) < 2 ^ 30) :
    ∃ fb', l.foldlM f fb = some fb' ∧ inv fb' ∧
      fb'.bytes.length ≤ fb.bytes.length + step * l.length := by
  induction l generalizing fb with
  | nil => exact ⟨fb, rfl, hfb, Nat.le_add_right _ _⟩
  | cons x l ih =>
      obtain ⟨hx, hl⟩ := List.forall_mem_cons.mp hl
      rw [List.length_cons, Nat.mul_add, Nat.mul_add, Nat.mul_one] at h
      obtain ⟨next, hnext, hinv, hle, hlt⟩ := hf hfb hx (by omega)
      have hroom : next.bytes.length + step * (l.length + 1) < 2 ^ 30 := by
        rw [Nat.mul_add, Nat.mul_one]
        omega
      obtain ⟨fb', hfb', hinv', hlt'⟩ := ih hinv (fun y hy => hgood (hl y hy) hle) hroom
      refine ⟨fb', ?_, hinv', ?_⟩
      · rw [List.foldlM_cons, hnext]
        exact hfb'
      · rw [List.length_cons, Nat.mul_add, Nat.mul_one]
        omega

section Returns

variable {malloc : ℕ → ℕ} (hmalloc : ∀ n, 4 ∣ malloc n) {fb : Flatbuffer}

variable (malloc) in
theorem nrFlatbuffersGrow_returns (h : fb.capacity < 2 ^ 30) :
    ∃ fb', nrFlatbuffersGrow malloc fb = some fb' := by
  unfold nrFlatbuffersGrow
  simp only [and_giga_eq_zero h, ne_eq, not_true_eq_false, if_false]
  exact ⟨_, rfl⟩

theorem put_returns {bytes : Bytes} (h : bytes.length ≤ fb.room) :
    ∃ fb', fb.put bytes = some fb' := ⟨_, if_pos h⟩

include hmalloc

theorem growWhile_returns {need : ℕ} (fuel : ℕ) (h : fb.bytes.length + need < 2 ^ 30) :
    ∃ fb', growWhile malloc need fuel fb = some fb' := by
  induction fuel generalizing fb with
  | zero => exact ⟨fb, rfl⟩
  | succ fuel ih =>
      rw [growWhile]
      by_cases hroom : fb.room ≤ need
      · have hcapacity : fb.capacity < 2 ^ 30 := by
          unfold Flatbuffer.capacity
          omega
        obtain ⟨grown, hgrown⟩ := nrFlatbuffersGrow_returns malloc hcapacity
        obtain ⟨hextends, _⟩ := nrFlatbuffersGrow_spec hmalloc hgrown
        rw [if_pos hroom, hgrown]
        apply ih
        rw [hextends.length, List.length_nil, Nat.zero_add]
        exact h
      · rw [if_neg hroom]
        exact ⟨fb, rfl⟩

theorem nrFlatbuffersPrep_returns {size additionalBytes : ℕ} (hsize : 0 < size)
    (h : fb.bytes.length + (2 * size + additionalBytes) < 2 ^ 30) :
    ∃ fb', nrFlatbuffersPrep malloc fb size additionalBytes = some fb' ∧
      size + additionalBytes < fb'.room ∧ fb'.bytes.length < fb.bytes.length + size := by
  have hprep : ∃ fb', nrFlatbuffersPrep malloc fb size additionalBytes = some fb' := by
    unfold nrFlatbuffersPrep
    set aligned := if size > fb.minAlign then { fb with minAlign := size } else fb with haligned
    have hbytes : aligned.bytes = fb.bytes := by
      rw [haligned]
      split <;> rfl
    rw [← hbytes] at h
    obtain ⟨grown, hgrown⟩ := growWhile_returns hmalloc (2 * size + additionalBytes + 1) h
    obtain ⟨_, hroom⟩ := growWhile_spec hmalloc (by omega) hgrown
    have hpad : (List.replicate ((grown.pos - additionalBytes - size) % size)
        (0 : UInt8)).length ≤ grown.room := by
      rw [List.length_replicate]
      have := Nat.mod_lt (grown.pos - additionalBytes - size) hsize
      omega
    obtain ⟨padded, hpadded⟩ := put_returns hpad
    refine ⟨padded, ?_⟩
    show (growWhile malloc _ _ aligned).bind _ = _
    rw [hgrown]
    exact hpadded
  obtain ⟨fb', hfb'⟩ := hprep
  obtain ⟨pad, hpad, hextends, hroom, _⟩ := nrFlatbuffersPrep_spec hmalloc hsize hfb'
  refine ⟨fb', hfb', by omega, ?_⟩
  rw [hextends.length, List.length_replicate]
  omega

theorem prep_put_returns {size : ℕ} (hsize : 0 < size)
    (h : fb.bytes.length + 2 * size < 2 ^ 30) (content : Flatbuffer → Bytes)
    (hcontent : ∀ prepared, (content prepared).length = size) :
    ∃ prepared fb', nrFlatbuffersPrep malloc fb size 0 = some prepared ∧
      prepared.put (content prepared) = some fb' ∧ fb.bytes.length ≤ prepared.bytes.length ∧
      fb'.bytes.length < fb.bytes.length + 2 * size := by
  have h : fb.bytes.length + (2 * size + 0) < 2 ^ 30 := h
  obtain ⟨prepared, hprep, hroom, hlength⟩ := nrFlatbuffersPrep_returns hmalloc hsize h
  obtain ⟨_, hextends⟩ := nrFlatbuffersPrep_extends hmalloc hprep
  obtain ⟨fb', hput⟩ : ∃ fb', prepared.put (content prepared) = some fb' := by
    apply put_returns
    rw [hcontent]
    omega
  refine ⟨prepared, fb', hprep, hput, hextends.length_le, ?_⟩
  rw [(put_spec hput).1.length, hcontent]
  omega

theorem nrFlatbuffersPrepend_returns (ty : ScalarType) (x : ty.Value)
    (h : fb.bytes.length + 2 * ty.size < 2 ^ 30) :
    ∃ fb', nrFlatbuffersPrepend malloc ty fb x = some fb' ∧
      fb'.bytes.length < fb.bytes.length + 2 * ty.size := by
  obtain ⟨prepared, fb', hprep, hput, _, hlength⟩ := prep_put_returns hmalloc ty.size_pos h
    (fun _ => uintLE ty.size x.toNat) (fun _ => length_uintLE _ _)
  refine ⟨fb', ?_, hlength⟩
  unfold nrFlatbuffersPrepend
  rw [hprep]
  exact hput

theorem nrFlatbuffersPrependU16_returns {x : ℕ} (h : fb.bytes.length + 4 < 2 ^ 30) :
    ∃ fb', nrFlatbuffersPrependU16 malloc fb x = some fb' ∧
      fb'.bytes.length < fb.bytes.length + 4 := by
  obtain ⟨prepared, fb', hprep, hput, _, hlength⟩ := prep_put_returns hmalloc Nat.two_pos h
    (fun _ => uintLE 2 x) (fun _ => length_uintLE _ _)
  refine ⟨fb', ?_, hlength⟩
  unfold nrFlatbuffersPrependU16
  rw [hprep]
  exact hput

theorem nrFlatbuffersPrependUoffset_returns {x : ℕ} (hx : x ≤ fb.bytes.length)
    (h : fb.bytes.length + 8 < 2 ^ 30) :
    ∃ fb', nrFlatbuffersPrependUoffset malloc fb x = some fb' ∧
      fb.bytes.length ≤ fb'.bytes.length ∧ fb'.bytes.length < fb.bytes.length + 8 := by
  obtain ⟨prepared, fb', hprep, hput, hle, hlength⟩ := prep_put_returns hmalloc (by decide) h
    (fun prepared => uintLE 4 (nrFlatbuffersLen prepared - x + 4)) (fun _ => length_uintLE _ _)
  refine ⟨fb', ?_, hle.trans (put_spec hput).1.length_le, hlength⟩
  unfold nrFlatbuffersPrependUoffset
  rw [hprep]
  exact (if_pos (hx.trans hle)).trans hput

/-! Texts and vectors -/

omit hmalloc in
theorem nrFlatbuffersVectorEnd_returns (numElems : ℕ) (h : 4 ≤ fb.room) :
    ∃ result, nrFlatbuffersVectorEnd fb numElems = some result := by
  obtain ⟨fb', hput⟩ : ∃ fb', nrFlatbuffersPutU32 fb numElems = some fb' :=
    put_returns (by rw [length_uintLE]; exact h)
  unfold nrFlatbuffersVectorEnd
  rw [hput]
  exact ⟨_, rfl⟩

theorem nrFlatbuffersPrependString_returns {s : Bytes}
    (h : fb.bytes.length + (2 * 4 + (s.length + 1)) < 2 ^ 30) :
    ∃ result, nrFlatbuffersPrependString malloc fb (some s) = some result := by
  have hlength : (s ++ [(0 : UInt8)]).length = s.length + 1 := List.length_append
  obtain ⟨prepared, hprep, hroom, _⟩ := nrFlatbuffersPrep_returns hmalloc (by decide) h
  obtain ⟨filled, hput⟩ : ∃ filled, prepared.put (s ++ [0]) = some filled :=
    put_returns (by omega)
  obtain ⟨_, _, hleft⟩ := put_spec hput
  obtain ⟨result, hend⟩ := nrFlatbuffersVectorEnd_returns s.length (show 4 ≤ filled.room by omega)
  refine ⟨result, ?_⟩
  unfold nrFlatbuffersPrependString
  simp only [hprep, hput, Option.bind_eq_bind, Option.bind_some]
  exact hend

theorem foldlM_prependUoffset_returns {offsets : List ℕ} (ha : fb.Aligned)
    (hdvd : 4 ∣ fb.bytes.length) (hroom : 4 < fb.room)
    (hoffsets : ∀ x ∈ offsets, x ≤ fb.bytes.length)
    (h : fb.bytes.length + 8 * (offsets.length + 1) < 2 ^ 30) :
    ∃ filled, offsets.reverse.foldlM (nrFlatbuffersPrependUoffset malloc) fb = some filled ∧
      4 < filled.room := by
  have hstep : ∀ {fb : Flatbuffer} {x}, (fb.Aligned ∧ 4 ∣ fb.bytes.length ∧ 4 < fb.room) →
      x ≤ fb.bytes.length → fb.bytes.length + 8 < 2 ^ 30 →
      ∃ fb', nrFlatbuffersPrependUoffset malloc fb x = some fb' ∧
        (fb'.Aligned ∧ 4 ∣ fb'.bytes.length ∧ 4 < fb'.room) ∧
        fb.bytes.length ≤ fb'.bytes.length ∧ fb'.bytes.length < fb.bytes.length + 8 := by
    rintro fb x ⟨ha, hdvd, _⟩ hx hlt
    obtain ⟨fb', hfb', hle, hlt'⟩ := nrFlatbuffersPrependUoffset_returns hmalloc hx hlt
    obtain ⟨_, _, hextends, hdvd', hroom'⟩ :=
      nrFlatbuffersPrependUoffset_spec_of_dvd hmalloc hfb' ha hdvd
    exact ⟨fb', hfb', ⟨hextends.aligned ha, hdvd', hroom'⟩, hle, hlt'⟩
  have h : fb.bytes.length + 8 * (offsets.reverse.length + 1) < 2 ^ 30 := by
    rw [List.length_reverse]
    exact h
  obtain ⟨filled, hfilled, ⟨_, _, hroom⟩, _⟩ := foldlM_returns
    (fun fb => fb.Aligned ∧ 4 ∣ fb.bytes.length ∧ 4 < fb.room) (fun x n => x ≤ n)
    (fun hx hle => hx.trans hle) hstep ⟨ha, hdvd, hroom⟩
    (fun x hx => hoffsets x (List.mem_reverse.mp hx)) h
  exact ⟨filled, hfilled, hroom⟩

theorem prependOffsets_returns {offsets : List ℕ} (ha : fb.Aligned)
    (hoffsets : ∀ x ∈ offsets, x ≤ fb.bytes.length)
    (h : fb.bytes.length + 8 * (offsets.length + 2) < 2 ^ 30) :
    ∃ result, prependOffsets malloc fb offsets = some result := by
  have hneed : fb.bytes.length + (2 * 4 + 4 * offsets.length) < 2 ^ 30 := by omega
  obtain ⟨prepared, hprep, _, hlt⟩ := nrFlatbuffersPrep_returns hmalloc (by decide) hneed
  have hneed' : prepared.bytes.length + (2 * 4 + 4 * offsets.length) < 2 ^ 30 := by omega
  obtain ⟨begun, hprep', hroom, hlt'⟩ := nrFlatbuffersPrep_returns hmalloc (by decide) hneed'
  have hbegin : nrFlatbuffersVectorBegin malloc fb 4 offsets.length 4 = some begun := by
    unfold nrFlatbuffersVectorBegin
    simp only [hprep, Option.bind_eq_bind, Option.bind_some]
    exact hprep'
  obtain ⟨_, hextends, hdvd⟩ := nrFlatbuffersVectorBegin_spec hmalloc hbegin
  obtain ⟨filled, hfill, hroom'⟩ := foldlM_prependUoffset_returns hmalloc (hextends.aligned ha)
    (hdvd ha) (by omega) (fun x hx => (hoffsets x hx).trans hextends.length_le) (by omega)
  obtain ⟨result, hend⟩ := nrFlatbuffersVectorEnd_returns offsets.length (Nat.le_of_lt hroom')
  refine ⟨result, ?_⟩
  unfold prependOffsets
  simp only [hbegin, hfill, Option.bind_eq_bind, Option.bind_some]
  exact hend

/-! Objects -/

theorem writeVtable_returns {objectOffset : ℕ}
    (h : fb.bytes.length + 4 * (fb.vtable.length + 3) < 2 ^ 30) :
    ∃ written, writeVtable malloc fb objectOffset = some written := by
  have hstep : ∀ {fb : Flatbuffer} {x : ℕ}, True → True → fb.bytes.length + 4 < 2 ^ 30 →
      ∃ fb', nrFlatbuffersPrependU16 malloc fb x = some fb' ∧ True ∧
        fb.bytes.length ≤ fb'.bytes.length ∧ fb'.bytes.length < fb.bytes.length + 4 := by
    intro fb x _ _ hlt
    obtain ⟨fb', hfb', hlt'⟩ := nrFlatbuffersPrependU16_returns hmalloc (x := x) hlt
    obtain ⟨_, hextends⟩ := nrFlatbuffersPrependU16_extends hmalloc hfb'
    exact ⟨fb', hfb', trivial, hextends.length_le, hlt'⟩
  have hneed : fb.bytes.length + 4 * (fb.vtable.reverse.length + 1) < 2 ^ 30 := by
    rw [List.length_reverse]
    omega
  obtain ⟨filled, hfill, _, hlt⟩ :=
    foldlM_returns (fun _ => True) (fun _ _ => True) (fun h _ => h) hstep trivial
      (fun _ _ => trivial) hneed
  have hfill : fb.vtable.reverse.foldlM (nrFlatbuffersPrependU16 malloc) fb = some filled := hfill
  rw [List.length_reverse] at hlt
  obtain ⟨sized, hsized, hlt'⟩ := nrFlatbuffersPrependU16_returns hmalloc
    (x := objectOffset - filled.objectEnd) (show filled.bytes.length + 4 < 2 ^ 30 by omega)
  obtain ⟨full, hfull, _⟩ := nrFlatbuffersPrependU16_returns hmalloc
    (x := (fb.vtable.length + 2) * 2) (show sized.bytes.length + 4 < 2 ^ 30 by omega)
  unfold writeVtable
  simp only [hfill, hsized, hfull, Option.bind_eq_bind, Option.bind_some]
  exact ⟨_, rfl⟩

omit hmalloc in
theorem mapM_relativeField_returns {objectOffset : ℕ} {slots : List ℕ}
    (h : ∀ slot ∈ slots, slot ≠ 0 → slot < objectOffset ∧ objectOffset - slot < 0xFFFF) :
    ∃ entries, slots.mapM (relativeField objectOffset) = some entries ∧
      entries.length = slots.length := by
  induction slots with
  | nil => exact ⟨[], rfl, rfl⟩
  | cons slot slots ih =>
      obtain ⟨hslot, hslots⟩ := List.forall_mem_cons.mp h
      obtain ⟨entries, hentries, hlength⟩ := ih hslots
      obtain ⟨entry, hentry⟩ : ∃ entry, relativeField objectOffset slot = some entry := by
        unfold relativeField
        by_cases hzero : slot = 0
        · exact ⟨0, if_pos hzero⟩
        · rw [if_neg hzero]
          exact ⟨_, if_pos (hslot hzero)⟩
      refine ⟨entry :: entries, ?_, by rw [List.length_cons, List.length_cons, hlength]⟩
      rw [List.mapM_cons, hentry, hentries]
      rfl

/-- An object can be closed when its fields are not too far apart. -/
theorem nrFlatbuffersObjectEnd_returns (hvtables : VtablesIn fb.bytes fb.vtables)
    (hfar : ∀ slot ∈ fb.vtable, slot ≠ 0 →
      slot ≤ fb.bytes.length ∧ fb.bytes.length + 8 - slot < 0xFFFF)
    (h : fb.bytes.length + 4 * (fb.vtable.length + 5) < 2 ^ 30) :
    ∃ result, nrFlatbuffersObjectEnd malloc fb = some result := by
  unfold nrFlatbuffersObjectEnd
  by_cases hinside : fb.insideObject = true
  · rw [if_pos hinside]
    obtain ⟨prepended, hprepend, hlt⟩ := nrFlatbuffersPrepend_returns hmalloc .i32 0
      (show fb.bytes.length + 2 * 4 < 2 ^ 30 by omega)
    have hlt : prepended.bytes.length < fb.bytes.length + 2 * 4 := hlt
    obtain ⟨pad, _, hextends, _⟩ := nrFlatbuffersPrepend_spec hmalloc hprepend
    have hle : fb.bytes.length < prepended.bytes.length := by
      rw [hextends.length, List.length_append, length_uintLE]
      have := ScalarType.i32.size_pos
      omega
    have hplace : nrFlatbuffersLen prepended % 2 ^ 32 = prepended.bytes.length := by
      unfold nrFlatbuffersLen
      omega
    obtain ⟨entries, hentries, hcount⟩ :
        ∃ entries, prepended.vtable.mapM (relativeField (nrFlatbuffersLen prepended % 2 ^ 32)) =
          some entries ∧ entries.length = fb.vtable.length := by
      rw [hextends.vtable, hplace]
      apply mapM_relativeField_returns
      intro slot hslot hne
      obtain ⟨hslot_le, hslot_far⟩ := hfar slot hslot hne
      omega
    have hfind : ∃ v, nrFlatbuffersFindExistingVtable { prepended with vtable := entries } =
        some v := by
      rw [← hextends.vtables] at hvtables
      have hbytes : Flatbuffer.bytes { prepended with vtable := entries } = _ := hextends.bytes
      obtain ⟨v, hv, _⟩ := findVtable_spec hbytes hvtables
      exact ⟨v, hv⟩
    obtain ⟨existing, hexisting⟩ := hfind
    have hneed : prepended.bytes.length + 4 * (entries.length + 3) < 2 ^ 30 := by
      rw [hcount]
      omega
    obtain ⟨written, hwritten⟩ : ∃ written,
        writeVtable malloc { prepended with vtable := entries }
          (nrFlatbuffersLen prepended % 2 ^ 32) = some written := writeVtable_returns hmalloc hneed
    have hprependVtable : ∃ result, nrFlatbuffersPrependVtable malloc fb = some result := by
      unfold nrFlatbuffersPrependVtable
      simp only [hprepend, hentries, hexisting, hwritten, Option.bind_eq_bind, Option.bind_some]
      split <;> exact ⟨_, rfl⟩
    obtain ⟨⟨offset, closed⟩, hclosed⟩ := hprependVtable
    rw [hclosed]
    exact ⟨_, rfl⟩
  · rw [if_neg hinside]
    exact ⟨_, rfl⟩

end Returns

theorem setSlot_returns {fb fb' : Flatbuffer} {front : Bytes} {i : ℕ}
    (hextends : Extends fb fb' front) (hi : i < fb.vtable.length) :
    ∃ fb'', setSlot fb' i = some fb'' := by
  rw [← hextends.vtable] at hi
  exact ⟨_, if_pos hi⟩

end AxiomDaemon.Util

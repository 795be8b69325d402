import AxiomDaemon.Lib.Flatbuffers
import AxiomDaemon.Lib.FlatbuffersFormat

/-!
What the runtime reads of a buffer that keeps to the format: for each kind of field what
the accessor of this kind gives.

The runtime counts from the start of the buffer, in words of 32 bits, and the format from
the end. In a buffer of less than two gigabytes no sum of offsets wraps around.
-/

namespace AxiomDaemon.Lib.Flatbuffers

/-! ### Words -/

theorem or_shiftLeft_eq {k x y : ℕ} (h : x < 2 ^ k) : x ||| y <<< k = x + 2 ^ k * y := by
  rw [Nat.or_comm, Nat.shiftLeft_eq, Nat.mul_comm, ← Nat.two_pow_add_eq_or_of_lt h, Nat.add_comm]

theorem valueLE_cons (b : UInt8) (p : Bytes) : valueLE (b :: p) = b.toNat ||| valueLE p <<< 8 :=
  (or_shiftLeft_eq b.toNat_lt).symm

theorem toNat_shiftLeft_mod (b : UInt8) {k w : ℕ} (h : k + 8 ≤ w) :
    b.toNat <<< k % 2 ^ w = b.toNat <<< k := by
  apply Nat.mod_eq_of_lt
  rw [Nat.shiftLeft_eq]
  calc b.toNat * 2 ^ k
      < 2 ^ 8 * 2 ^ k := Nat.mul_lt_mul_of_pos_right b.toNat_lt (Nat.two_pow_pos k)
    _ = 2 ^ (k + 8) := by rw [Nat.add_comm, Nat.pow_add]
    _ ≤ 2 ^ w := Nat.pow_le_pow_right Nat.two_pos h

theorem readUintLE_eq_some {n v : ℕ} {buf : Bytes} (h : readUintLE n buf = some v) :
    n ≤ buf.length ∧ v = valueLE (buf.take n) := by
  unfold readUintLE at h
  split at h
  · next hle => exact ⟨hle, (Option.some.inj h).symm⟩
  · cases h

theorem getUint8_of_readUintLE {buf : Bytes} {v : ℕ} (h : readUintLE 1 buf = some v) :
    getUint8 buf = some (UInt8.ofNat v) := by
  obtain ⟨hle, rfl⟩ := readUintLE_eq_some h
  match buf, hle with
  | b :: rest, _ =>
      show some b = _
      congr 1
      apply UInt8.toNat_inj.mp
      simp [valueLE]

theorem valueLE_nil : valueLE [] = 0 := rfl

theorem getUint16_of_readUintLE {buf : Bytes} {v : ℕ} (h : readUintLE 2 buf = some v) :
    getUint16 buf = some (UInt16.ofNat v) := by
  obtain ⟨hle, rfl⟩ := readUintLE_eq_some h
  have hlt := valueLE_lt (buf.take 2)
  rw [List.length_take_of_le hle] at hlt
  match buf, hle with
  | b0 :: b1 :: rest, _ =>
      show some (b0.toUInt16 ||| b1.toUInt16 <<< 8) = _
      congr 1
      apply UInt16.toNat_inj.mp
      rw [UInt16.toNat_ofNat', Nat.mod_eq_of_lt hlt]
      simp only [List.take_succ_cons, List.take_zero, valueLE_cons, valueLE_nil, UInt16.toNat_or,
        UInt16.toNat_shiftLeft, UInt8.toNat_toUInt16, UInt16.reduceToNat, Nat.reduceMod,
        toNat_shiftLeft_mod b1 (show 8 + 8 ≤ 16 by decide), Nat.zero_shiftLeft, Nat.or_zero]

theorem getUint32_of_readUintLE {buf : Bytes} {v : ℕ} (h : readUintLE 4 buf = some v) :
    getUint32 buf = some (UInt32.ofNat v) := by
  obtain ⟨hle, rfl⟩ := readUintLE_eq_some h
  have hlt := valueLE_lt (buf.take 4)
  rw [List.length_take_of_le hle] at hlt
  match buf, hle with
  | b0 :: b1 :: b2 :: b3 :: rest, _ =>
      show some (b0.toUInt32 ||| b1.toUInt32 <<< 8 ||| b2.toUInt32 <<< 16 |||
        b3.toUInt32 <<< 24) = _
      congr 1
      apply UInt32.toNat_inj.mp
      rw [UInt32.toNat_ofNat', Nat.mod_eq_of_lt hlt]
      simp only [List.take_succ_cons, List.take_zero, valueLE_cons, valueLE_nil, UInt32.toNat_or,
        UInt32.toNat_shiftLeft, UInt8.toNat_toUInt32, UInt32.reduceToNat, Nat.reduceMod,
        toNat_shiftLeft_mod b1 (show 8 + 8 ≤ 32 by decide),
        toNat_shiftLeft_mod b2 (show 16 + 8 ≤ 32 by decide),
        toNat_shiftLeft_mod b3 (show 24 + 8 ≤ 32 by decide), Nat.zero_shiftLeft, Nat.or_zero,
        Nat.shiftLeft_or_distrib, ← Nat.shiftLeft_add, Nat.reduceAdd, Nat.or_assoc]

theorem toNat_toUInt64_shiftLeft (b : UInt8) {k : UInt64} (hk : k.toNat + 8 ≤ 64) :
    (b.toUInt64 <<< k).toNat = b.toNat <<< k.toNat := by
  have hmod : k.toNat % 64 = k.toNat := Nat.mod_eq_of_lt (by omega)
  rw [UInt64.toNat_shiftLeft, UInt8.toNat_toUInt64, hmod, toNat_shiftLeft_mod b hk]

theorem getUint64_of_readUintLE {buf : Bytes} {v : ℕ} (h : readUintLE 8 buf = some v) :
    getUint64 buf = some (UInt64.ofNat v) := by
  obtain ⟨hle, rfl⟩ := readUintLE_eq_some h
  have hlt := valueLE_lt (buf.take 8)
  rw [List.length_take_of_le hle] at hlt
  match buf, hle with
  | b0 :: b1 :: b2 :: b3 :: b4 :: b5 :: b6 :: b7 :: rest, _ =>
      have hor : (b0.toUInt64 ||| b1.toUInt64 <<< 8 ||| b2.toUInt64 <<< 16 |||
          b3.toUInt64 <<< 24 ||| b4.toUInt64 <<< 32 ||| b5.toUInt64 <<< 40 |||
          b6.toUInt64 <<< 48 ||| b7.toUInt64 <<< 56).toNat =
          valueLE [b0, b1, b2, b3, b4, b5, b6, b7] := by
        rw [UInt64.toNat_or, UInt64.toNat_or, UInt64.toNat_or, UInt64.toNat_or, UInt64.toNat_or,
          UInt64.toNat_or, UInt64.toNat_or, toNat_toUInt64_shiftLeft b1 (by decide),
          toNat_toUInt64_shiftLeft b2 (by decide), toNat_toUInt64_shiftLeft b3 (by decide),
          toNat_toUInt64_shiftLeft b4 (by decide), toNat_toUInt64_shiftLeft b5 (by decide),
          toNat_toUInt64_shiftLeft b6 (by decide), toNat_toUInt64_shiftLeft b7 (by decide)]
        simp only [valueLE_cons, valueLE_nil, UInt8.toNat_toUInt64, UInt64.reduceToNat,
          Nat.zero_shiftLeft, Nat.or_zero, Nat.shiftLeft_or_distrib, ← Nat.shiftLeft_add,
          Nat.reduceAdd, Nat.or_assoc]
      have hvalue : UInt64.ofNat (valueLE [b0, b1, b2, b3, b4, b5, b6, b7]) = _ :=
        congrArg UInt64.ofNat hor.symm
      rw [UInt64.ofNat_toNat] at hvalue
      exact congrArg some hvalue.symm

/-! ### Places from the start -/

theorem get_of_le {α : Type} {read : Bytes → Option α} {t : Table} {off : UInt32}
    (h : off.toNat ≤ t.bytes.length) : t.get read off = read (t.bytes.drop off.toNat) := by
  unfold Table.get sliceFrom
  rw [if_pos h]
  rfl

/-- A place, counted from the start of the buffer. -/
def fromFront (buf : Bytes) (place : ℕ) : UInt32 := UInt32.ofNat (buf.length - place)

/-- The table at a place. -/
def tableFrom (buf : Bytes) (place : ℕ) : Table := { bytes := buf, pos := fromFront buf place }

section Places

variable {buf : Bytes} (hbuf : buf.length < 2 ^ 31)

include hbuf

theorem toNat_fromFront (place : ℕ) : (fromFront buf place).toNat = buf.length - place := by
  unfold fromFront
  rw [UInt32.toNat_ofNat']
  omega

theorem fromFront_add {place target : ℕ} (hplace : place ≤ buf.length) (htarget : target ≤ place) :
    fromFront buf place + UInt32.ofNat (place - target) = fromFront buf target := by
  apply UInt32.toNat_inj.mp
  rw [UInt32.toNat_add, UInt32.toNat_ofNat', toNat_fromFront hbuf, toNat_fromFront hbuf]
  omega

theorem get_fromFront {α : Type} {read : Bytes → Option α} {place : ℕ} {a : α} {t : Table}
    (ht : t.bytes = buf) (h : read (buf.drop (buf.length - place)) = some a) :
    t.get read (fromFront buf place) = some a := by
  have hle : (fromFront buf place).toNat ≤ t.bytes.length := by
    rw [toNat_fromFront hbuf, ht]
    exact Nat.sub_le _ _
  rw [get_of_le hle, toNat_fromFront hbuf, ht]
  exact h

theorem get_reference {place target : ℕ} {t : Table} (ht : t.bytes = buf)
    (h : RefAt buf place target) :
    t.get getUint32 (fromFront buf place) = some (UInt32.ofNat (place - target)) := by
  have hle := h.1
  have hplace := h.2.1
  exact get_fromFront hbuf ht (getUint32_of_readUintLE (h.2.readUintLE (by omega)))

theorem follow_reference {place target : ℕ} (h : RefAt buf place target) :
    fromFront buf place + UInt32.ofNat (place - target) = fromFront buf target := by
  have hle := h.1
  exact fromFront_add hbuf h.2.1 (by omega)

end Places

/-! ### Fields -/

section Fields

variable {buf : Bytes} (hbuf : buf.length < 2 ^ 31) {place : ℕ} {fields : ℕ → Option Field}
  (h : TableAt buf place fields) {slot : UInt16} {i : ℕ} (hslot : slot.toNat = 2 * (2 + i))

include hbuf h hslot

theorem offset_tableFrom :
    ∃ entry, (tableFrom buf place).offset slot = some (UInt16.ofNat entry) ∧ entry < 2 ^ 16 ∧
      EntryFor buf place entry (fields i) := by
  obtain ⟨vtable, entries, hsoffset, hvtable, hentries⟩ := h
  have hplace := hsoffset.1
  have hle := hvtable.le_length
  have hread : (tableFrom buf place).get getUint32 (tableFrom buf place).pos =
      some (UInt32.ofNat (wordDiff vtable place)) :=
    get_fromFront hbuf rfl
      (getUint32_of_readUintLE (hsoffset.readUintLE (wordDiff_lt vtable place)))
  have hstart : ((tableFrom buf place).pos.toInt32 -
      (UInt32.ofNat (wordDiff vtable place)).toInt32).toUInt32 = fromFront buf vtable := by
    rw [Int32.toUInt32_sub, UInt32.toUInt32_toInt32, UInt32.toUInt32_toInt32]
    apply UInt32.toNat_inj.mp
    show (fromFront buf place - _).toNat = _
    rw [UInt32.toNat_sub, UInt32.toNat_ofNat', toNat_fromFront hbuf, toNat_fromFront hbuf]
    unfold wordDiff
    omega
  have hsize : (tableFrom buf place).get getUint16 (fromFront buf vtable) =
      some (UInt16.ofNat (2 * entries.length + 4)) :=
    get_fromFront hbuf rfl (getUint16_of_readUintLE hvtable.read_size)
  have hvsize := hvtable.size
  refine ⟨entries.getD i 0, ?_, ?_, hentries i⟩
  · unfold Table.offset
    simp only [hread, Option.bind_eq_bind, Option.bind_some, hstart, hsize]
    by_cases hi : i < entries.length
    · have hlt : slot < UInt16.ofNat (2 * entries.length + 4) := by
        rw [UInt16.lt_iff_toNat_lt, hslot, UInt16.toNat_ofNat']
        omega
      have hentry : (fromFront buf vtable + slot.toUInt32).toNat =
          buf.length - vtable + 2 * (2 + i) := by
        rw [UInt32.toNat_add, toNat_fromFront hbuf, UInt16.toNat_toUInt32, hslot]
        omega
      have hinside := hvtable.length_le
      rw [if_pos hlt, get_of_le (by rw [hentry]; show _ ≤ buf.length; omega), hentry]
      exact getUint16_of_readUintLE (hvtable.read_entry hi)
    · have hnot : ¬ slot < UInt16.ofNat (2 * entries.length + 4) := by
        rw [UInt16.lt_iff_toNat_lt, hslot, UInt16.toNat_ofNat']
        omega
      have hzero : entries.getD i 0 = 0 := by
        rw [List.getD_eq_getElem?_getD, List.getElem?_eq_none (Nat.not_lt.mp hi)]
        rfl
      rw [if_neg hnot, hzero]
      rfl
  · by_cases hi : i < entries.length
    · rw [List.getD_eq_getElem _ _ hi]
      exact hvtable.lt _ (List.getElem_mem hi)
    · rw [List.getD_eq_getElem?_getD, List.getElem?_eq_none (Nat.not_lt.mp hi)]
      decide

theorem field_absent (hfield : fields i = none) {α : Type} (default : α)
    (read : UInt32 → Option α) : (tableFrom buf place).field slot default read = some default := by
  obtain ⟨entry, hoffset, _, hentry⟩ := offset_tableFrom hbuf h hslot
  rw [hfield] at hentry
  obtain rfl : entry = 0 := hentry
  unfold Table.field
  rw [hoffset]
  rfl

theorem field_present {f : Field} (hfield : fields i = some f) :
    ∃ fieldPlace o, f.Holds buf fieldPlace ∧
      o + (tableFrom buf place).pos = fromFront buf fieldPlace ∧
      ∀ {α : Type} (default : α) (read : UInt32 → Option α),
        (tableFrom buf place).field slot default read = read o := by
  obtain ⟨entry, hoffset, hlt, hentry⟩ := offset_tableFrom hbuf h hslot
  rw [hfield] at hentry
  obtain ⟨fieldPlace, hfieldPlace, heq, hholds⟩ := hentry
  have hplace : place ≤ buf.length := by
    obtain ⟨_, _, hsoffset, _⟩ := h
    exact hsoffset.1
  have hentry : (UInt16.ofNat entry).toUInt32.toNat = entry := by
    rw [UInt16.toNat_toUInt32, UInt16.toNat_ofNat', Nat.mod_eq_of_lt hlt]
  have hne : (UInt16.ofNat entry).toUInt32 ≠ 0 := by
    intro hzero
    rw [hzero] at hentry
    have hentry : 0 = entry := hentry
    omega
  refine ⟨fieldPlace, (UInt16.ofNat entry).toUInt32, hholds, ?_, fun default read => ?_⟩
  · apply UInt32.toNat_inj.mp
    show ((UInt16.ofNat entry).toUInt32 + fromFront buf place).toNat = _
    rw [UInt32.toNat_add, hentry, toNat_fromFront hbuf, toNat_fromFront hbuf]
    omega
  · unfold Table.field
    rw [hoffset]
    show (if (UInt16.ofNat entry).toUInt32 ≠ 0 then read _ else some default) = _
    rw [if_pos hne]

theorem number_present {n v : ℕ} (hv : v < 2 ^ (8 * n))
    (hfield : fields i = some (.inline (uintLE n v))) {α : Type} {default a : α}
    {read : Bytes → Option α} (hread : ∀ buf, readUintLE n buf = some v → read buf = some a) :
    (tableFrom buf place).number slot default read = some a := by
  obtain ⟨fieldPlace, o, hholds, hplace, hget⟩ := field_present hbuf h hslot hfield
  unfold Table.number
  rw [hget, hplace]
  exact get_fromFront hbuf rfl (hread _ (At.readUintLE hholds hv))

/-! ### Texts, tables and vectors -/

omit h hslot in
theorem byteVector_content {t : Table} (ht : t.bytes = buf) {fieldPlace target : ℕ}
    {content rest : Bytes} (href : RefAt buf fieldPlace target)
    (hcontent : At buf target (uintLE 4 content.length ++ (content ++ rest))) :
    t.byteVector (fromFront buf fieldPlace) = some content := by
  have hle := hcontent.length_le
  rw [List.length_append, length_uintLE, List.length_append] at hle
  have htarget : target ≤ buf.length := hcontent.1
  have hlength : t.get getUint32 (fromFront buf target) = some (UInt32.ofNat content.length) :=
    get_fromFront hbuf ht (getUint32_of_readUintLE (hcontent.left.readUintLE (by omega)))
  have hstart : (fromFront buf target + 4).toNat = buf.length - (target - 4) := by
    rw [UInt32.toNat_add, toNat_fromFront hbuf]
    show (buf.length - target + 4) % 2 ^ 32 = _
    omega
  have hstop : (fromFront buf target + 4 + UInt32.ofNat content.length).toNat =
      buf.length - (target - 4) + content.length := by
    rw [UInt32.toNat_add, hstart, UInt32.toNat_ofNat']
    omega
  have hbytes : (buf.drop (buf.length - (target - 4))).take content.length = content := by
    have hright := hcontent.right
    rw [length_uintLE] at hright
    obtain ⟨more, hmore⟩ := hright.2
    rw [← hmore, List.append_assoc, List.take_left]
  have hinside : fromFront buf target + 4 ≤ fromFront buf target + 4 + UInt32.ofNat content.length ∧
      (fromFront buf target + 4 + UInt32.ofNat content.length).toNat ≤ t.bytes.length := by
    rw [UInt32.le_iff_toNat_le, hstart, hstop, ht]
    omega
  unfold Table.byteVector
  simp only [get_reference hbuf ht href, follow_reference hbuf href, hlength,
    Option.bind_eq_bind, Option.bind_some]
  unfold slice
  rw [if_pos hinside, hstart, hstop, ht, List.drop_take, Nat.add_sub_cancel_left, hbytes]

theorem text_present {target : ℕ} {content : Bytes} (hfield : fields i = some (.ref target))
    (hcontent : (Piece.text content).Holds buf target) :
    (tableFrom buf place).text slot = some (some content) := by
  obtain ⟨fieldPlace, o, hholds, hplace, hget⟩ := field_present hbuf h hslot hfield
  unfold Table.text
  rw [hget, hplace, byteVector_content hbuf rfl hholds hcontent]
  rfl

theorem child_present {target : ℕ} (hfield : fields i = some (.ref target)) :
    (tableFrom buf place).child slot = some (some (tableFrom buf target)) := by
  obtain ⟨fieldPlace, o, hholds, hplace, hget⟩ := field_present hbuf h hslot hfield
  have href : RefAt buf fieldPlace target := hholds
  unfold Table.child
  rw [hget, hplace]
  unfold Table.indirect
  rw [get_reference hbuf rfl href]
  simp only [Option.bind_eq_bind, Option.bind_some, follow_reference hbuf href]
  rfl

theorem length_present {target : ℕ} {targets : List ℕ} (hfield : fields i = some (.ref target))
    (hvector : (Piece.vector targets).Holds buf target) :
    (tableFrom buf place).length slot = some targets.length := by
  obtain ⟨fieldPlace, o, hholds, hplace, hget⟩ := field_present hbuf h hslot hfield
  have href : RefAt buf fieldPlace target := hholds
  have hle := hvector.1.length_le
  have htarget : target ≤ buf.length := hvector.1.1
  have hcount : 4 * targets.length ≤ target - 4 := hvector.2.length_le
  have hlength : (tableFrom buf place).get getUint32 (fromFront buf target) =
      some (UInt32.ofNat targets.length) :=
    get_fromFront hbuf rfl (getUint32_of_readUintLE (hvector.1.readUintLE (by omega)))
  have hnat : (UInt32.ofNat targets.length).toNat = targets.length := by
    rw [UInt32.toNat_ofNat']
    omega
  have hfollow : (tableFrom buf place).get getUint32 (fromFront buf fieldPlace) =
      some (UInt32.ofNat (fieldPlace - target)) := get_reference hbuf rfl href
  unfold Table.length
  rw [hget]
  unfold Table.vectorLen
  simp only [hplace, hfollow, follow_reference hbuf href, hlength, Option.bind_eq_bind,
    Option.bind_some, hnat]

theorem element_present {target j element : ℕ} {targets : List ℕ}
    (hfield : fields i = some (.ref target)) (hvector : (Piece.vector targets).Holds buf target)
    (hj : targets[j]? = some element) (obj : Table) :
    (tableFrom buf place).element slot obj j = some (tableFrom buf element) := by
  obtain ⟨fieldPlace, o, hholds, hplace, hget⟩ := field_present hbuf h hslot hfield
  have href : RefAt buf fieldPlace target := hholds
  have href' := hvector.2 j element hj
  have htarget : target ≤ buf.length := hvector.1.1
  have hcount : 4 * targets.length ≤ target - 4 := hvector.2.length_le
  have hlt : j < targets.length := (List.getElem?_eq_some_iff.mp hj).1
  have hat : fromFront buf target + 4 + UInt32.ofNat j * 4 = fromFront buf (target - 4 - 4 * j) := by
    have hnat : (UInt32.ofNat j * 4).toNat = 4 * j := by
      rw [UInt32.toNat_mul, UInt32.toNat_ofNat']
      show j % 2 ^ 32 * 4 % 2 ^ 32 = _
      omega
    apply UInt32.toNat_inj.mp
    rw [UInt32.toNat_add, UInt32.toNat_add, hnat, toNat_fromFront hbuf, toNat_fromFront hbuf]
    show ((buf.length - target + 4) % 2 ^ 32 + 4 * j) % 2 ^ 32 = _
    omega
  have hfollow : (tableFrom buf place).get getUint32 (fromFront buf fieldPlace) =
      some (UInt32.ofNat (fieldPlace - target)) := get_reference hbuf rfl href
  have hfollow' : (tableFrom buf place).get getUint32 (fromFront buf (target - 4 - 4 * j)) =
      some (UInt32.ofNat (target - 4 - 4 * j - element)) := get_reference hbuf rfl href'
  unfold Table.element
  rw [hget]
  unfold Table.vector Table.indirect
  simp only [hplace, hfollow, follow_reference hbuf href, hat, hfollow',
    follow_reference hbuf href', Option.bind_eq_bind, Option.bind_some]
  rfl

theorem inline_present {bytes : Bytes} (hfield : fields i = some (.inline bytes)) (obj : Table) :
    ∃ fieldPlace, At buf fieldPlace bytes ∧
      (tableFrom buf place).inline slot obj = some (tableFrom buf fieldPlace) := by
  obtain ⟨fieldPlace, o, hholds, hplace, hget⟩ := field_present hbuf h hslot hfield
  refine ⟨fieldPlace, hholds, ?_⟩
  unfold Table.inline
  rw [hget, hplace]
  rfl

end Fields

theorem get_member {buf : Bytes} (hbuf : buf.length < 2 ^ 31) {place n v : ℕ}
    {before rest : Bytes} (hv : v < 2 ^ (8 * n))
    (hplace : At buf place (before ++ (uintLE n v ++ rest)))
    {off : UInt32} (hoff : off.toNat = before.length) {α : Type} {a : α} {read : Bytes → Option α}
    (hread : ∀ buf, readUintLE n buf = some v → read buf = some a) :
    (tableFrom buf place).get read ((tableFrom buf place).pos + off) = some a := by
  have hle := hplace.length_le
  rw [List.length_append] at hle
  have hlength : place ≤ buf.length := hplace.1
  have hat : (tableFrom buf place).pos + off = fromFront buf (place - before.length) := by
    apply UInt32.toNat_inj.mp
    show (fromFront buf place + off).toNat = _
    rw [UInt32.toNat_add, toNat_fromFront hbuf, toNat_fromFront hbuf, hoff]
    omega
  rw [hat]
  exact get_fromFront hbuf rfl (hread _ (hplace.right.left.readUintLE hv))

theorem readElements_present {α : Type} {element : Table → ℕ → Option Table}
    {read : Table → Option α} {tables : List Table} {values : List α} {n : ℕ}
    (helement : ∀ j t, tables[j]? = some t → ∀ obj, element obj (n + j) = some t)
    (hread : List.Forall₂ (fun t a => read t = some a) tables values) (obj : Table) :
    readElements element read obj ((List.range tables.length).map (n + ·)) = some values := by
  induction hread generalizing n obj with
  | nil => rfl
  | @cons t a tables values hhead htail ih =>
      rw [List.length_cons, List.range_succ_eq_map, List.map_cons, List.map_map]
      have hrest := ih (n := n + 1) (fun j t ht obj => by
        rw [Nat.add_assoc, Nat.add_comm 1 j]
        exact helement (j + 1) t ht obj) t
      have hshift : ((n + ·) ∘ Nat.succ : ℕ → ℕ) = (n + 1 + ·) := by
        funext j
        show n + (j + 1) = n + 1 + j
        omega
      rw [hshift]
      unfold readElements
      simp only [helement 0 t rfl obj, hhead, hrest, Option.bind_eq_bind, Option.bind_some]

end AxiomDaemon.Lib.Flatbuffers

import AxiomDaemon.Lib.Text
import Mathlib.Data.List.Basic

/-!
Flatbuffers: how a program reads a buffer without checking it first, and when all of
these reads are inside the buffer.

A reading has no result if it leaves the buffer; in Go it panics. Offsets are words of
32 bits that wrap around. The first part of the file is the runtime that generated
accessors call, the second part says of tables, vectors and texts where they have to lie,
and that the reads succeed exactly in this case. Buffers are slices that cannot be
extended: their capacity is their length.
-/

namespace AxiomDaemon.Lib.Flatbuffers

/-! ### The runtime -/

/-- `buf[low:]`. -/
def sliceFrom (buf : Bytes) (low : UInt32) : Option Bytes :=
  if low.toNat ≤ buf.length then some (buf.drop low.toNat) else none

/-- `buf[low:high]`. -/
def slice (buf : Bytes) (low high : UInt32) : Option Bytes :=
  if low ≤ high ∧ high.toNat ≤ buf.length then some ((buf.take high.toNat).drop low.toNat)
  else none

/-- `GetUint8`, and `GetByte`. -/
def getUint8 : Bytes → Option UInt8
  | b0 :: _ => some b0
  | _ => none

/-- `GetUint16`. -/
def getUint16 : Bytes → Option UInt16
  | b0 :: b1 :: _ => some (b0.toUInt16 ||| b1.toUInt16 <<< 8)
  | _ => none

/-- `GetUint32`, and `GetInt32`: a signed word is given by its bits. -/
def getUint32 : Bytes → Option UInt32
  | b0 :: b1 :: b2 :: b3 :: _ =>
      some (b0.toUInt32 ||| b1.toUInt32 <<< 8 ||| b2.toUInt32 <<< 16 ||| b3.toUInt32 <<< 24)
  | _ => none

/-- `GetUint64`. -/
def getUint64 : Bytes → Option UInt64
  | b0 :: b1 :: b2 :: b3 :: b4 :: b5 :: b6 :: b7 :: _ =>
      some (b0.toUInt64 ||| b1.toUInt64 <<< 8 ||| b2.toUInt64 <<< 16 ||| b3.toUInt64 <<< 24 |||
        b4.toUInt64 <<< 32 ||| b5.toUInt64 <<< 40 ||| b6.toUInt64 <<< 48 ||| b7.toUInt64 <<< 56)
  | _ => none

/-- `GetFloat64`. -/
def getFloat64 (buf : Bytes) : Option Float := (getUint64 buf).map Float.ofBits

/-- `Table`. -/
structure Table where
  bytes : Bytes
  pos : UInt32

namespace Table

/-- `var t Table`. -/
def zero : Table := { bytes := [], pos := 0 }

/-- The getters of `Table`: reading at an offset. -/
def get {α : Type} (read : Bytes → Option α) (t : Table) (off : UInt32) : Option α := do
  read (← sliceFrom t.bytes off)

/-- `Offset`: the place of a field in its table; 0 for a field that is absent. -/
def offset (t : Table) (vtableOffset : UInt16) : Option UInt16 := do
  let soffset ← t.get getUint32 t.pos
  let vtable := (t.pos.toInt32 - soffset.toInt32).toUInt32
  if vtableOffset < (← t.get getUint16 vtable) then
    t.get getUint16 (vtable + vtableOffset.toUInt32)
  else some 0

/-- `Indirect`. -/
def indirect (t : Table) (off : UInt32) : Option UInt32 := do
  some (off + (← t.get getUint32 off))

/-- `ByteVector`. -/
def byteVector (t : Table) (off : UInt32) : Option Bytes := do
  let off := off + (← t.get getUint32 off)
  let start := off + 4
  let length ← t.get getUint32 off
  slice t.bytes start (start + length)

/-- `VectorLen`. -/
def vectorLen (t : Table) (off : UInt32) : Option ℕ := do
  let off := off + t.pos
  let off := off + (← t.get getUint32 off)
  some (← t.get getUint32 off).toNat

/-- `Vector`. -/
def vector (t : Table) (off : UInt32) : Option UInt32 := do
  let off := off + t.pos
  let x := off + (← t.get getUint32 off)
  some (x + 4)

/-- `Union`. -/
def union (t : Table) (off : UInt32) : Option Table := do
  let off := off + t.pos
  some { bytes := t.bytes, pos := off + (← t.get getUint32 off) }

/-! ### Accessors

The bodies that generated accessors have. -/

/-- `default` if the field is absent, else what is read at its place. -/
def field {α : Type} (t : Table) (slot : UInt16) (default : α) (read : UInt32 → Option α) :
    Option α := do
  let o := (← t.offset slot).toUInt32
  if o ≠ 0 then read o else some default

/-- A number. -/
def number {α : Type} (t : Table) (slot : UInt16) (default : α) (read : Bytes → Option α) :
    Option α :=
  t.field slot default fun o => t.get read (o + t.pos)

/-- A text, `nil` if it is absent. -/
def text (t : Table) (slot : UInt16) : Option (Option Bytes) :=
  t.field slot none fun o => (t.byteVector (o + t.pos)).map some

/-- A table that another one refers to, `nil` if it is absent. -/
def child (t : Table) (slot : UInt16) : Option (Option Table) :=
  t.field slot none fun o => do
    let x ← t.indirect (o + t.pos)
    some (some { bytes := t.bytes, pos := x })

/-- An inline structure; `obj` stays as it is if the field is absent. -/
def inline (t : Table) (slot : UInt16) (obj : Table) : Option Table :=
  t.field slot obj fun o => some { bytes := t.bytes, pos := o + t.pos }

/-- The length of a vector. -/
def length (t : Table) (slot : UInt16) : Option ℕ :=
  t.field slot 0 fun o => t.vectorLen o

/-- An element of a vector of tables; `obj` stays as it is if the field is absent. -/
def element (t : Table) (slot : UInt16) (obj : Table) (j : ℕ) : Option Table :=
  t.field slot obj fun o => do
    let x ← t.vector o
    let x := x + UInt32.ofNat j * 4
    let x ← t.indirect x
    some { bytes := t.bytes, pos := x }

end Table

/-- A loop over a vector of tables, with one variable for all of them. -/
def readElements {α : Type} (element : Table → ℕ → Option Table) (read : Table → Option α) :
    Table → List ℕ → Option (List α)
  | _, [] => some []
  | obj, j :: js => do
      let obj ← element obj j
      let a ← read obj
      let rest ← readElements element read obj js
      some (a :: rest)

/-! ### What lies where -/

/-- The buffer has `size` bytes at the offset. -/
structure InRange (buf : Bytes) (off : UInt32) (size : ℕ) : Prop where
  le : off.toNat + size ≤ buf.length

theorem inRange_iff {buf : Bytes} {off : UInt32} {size : ℕ} :
    InRange buf off size ↔ off.toNat + size ≤ buf.length := ⟨InRange.le, InRange.mk⟩

/-- The word at an offset. -/
def word (buf : Bytes) (off : UInt32) : UInt32 := (getUint32 (buf.drop off.toNat)).getD 0

/-- The byte at an offset. -/
def byte (buf : Bytes) (off : UInt32) : UInt8 := (getUint8 (buf.drop off.toNat)).getD 0

/-- The half word at an offset. -/
def half (buf : Bytes) (off : UInt32) : UInt16 := (getUint16 (buf.drop off.toNat)).getD 0

/-- What the offset at `off` refers to. -/
def target (buf : Bytes) (off : UInt32) : UInt32 := off + word buf off

/-- Where the vtable of the table at `pos` is. -/
def vtable (buf : Bytes) (pos : UInt32) : UInt32 := (pos.toInt32 - (word buf pos).toInt32).toUInt32

/-- The entry of a field in the vtable; 0 for a field that the vtable is too short for. -/
def entry (buf : Bytes) (pos : UInt32) (slot : UInt16) : UInt16 :=
  if slot < half buf (vtable buf pos) then half buf (vtable buf pos + slot.toUInt32) else 0

/-- The table has a vtable, and the entry of the field is in it if there is one. -/
structure HasEntry (buf : Bytes) (pos : UInt32) (slot : UInt16) : Prop where
  start : InRange buf pos 4
  size : InRange buf (vtable buf pos) 2
  entry : slot < half buf (vtable buf pos) → InRange buf (vtable buf pos + slot.toUInt32) 2

/-- The place of a field that is present. -/
def place (buf : Bytes) (pos : UInt32) (slot : UInt16) : UInt32 :=
  (entry buf pos slot).toUInt32 + pos

/-- Where the `j`th element is of a vector of offsets that starts at `start`. -/
def elementAt (start : UInt32) (j : ℕ) : UInt32 := start + 4 + UInt32.ofNat j * 4

/-- A condition on what is at an offset. -/
abbrev Verifier := Bytes → UInt32 → Prop

namespace Verifier

/-- A number of so many bytes, or a structure. -/
def number (size : ℕ) : Verifier := fun buf off => InRange buf off size

/-- The offset of a text: its length, and after it the text. -/
def text : Verifier := fun buf off =>
  InRange buf off 4 ∧ InRange buf (target buf off) 4 ∧
    InRange buf (target buf off) (4 + (word buf (target buf off)).toNat)

/-- The offset of something. -/
def child (verifier : Verifier) : Verifier := fun buf off =>
  InRange buf off 4 ∧ verifier buf (target buf off)

/-- The offset of something that begins with a length. -/
def head : Verifier := fun buf off => InRange buf off 4 ∧ InRange buf (target buf off) 4

/-- The offset of a vector: its length, and after it the offsets of its elements. -/
def vector (verifier : Verifier) : Verifier := fun buf off =>
  InRange buf off 4 ∧ InRange buf (target buf off) 4 ∧
    InRange buf (target buf off) (4 + 4 * (word buf (target buf off)).toNat) ∧
    ∀ j < (word buf (target buf off)).toNat,
      verifier buf (target buf (elementAt (target buf off) j))

/-- A field of a table: it is absent, or satisfies the condition. -/
def field (slot : UInt16) (verifier : Verifier) : Verifier := fun buf pos =>
  HasEntry buf pos slot ∧
    (entry buf pos slot ≠ 0 → verifier buf (place buf pos slot))

/-- A table, by its fields. -/
def table (fields : List (UInt16 × Verifier)) : Verifier := fun buf pos =>
  ∀ f ∈ fields, field f.1 f.2 buf pos

end Verifier

@[simp] theorem Verifier.table_nil {buf : Bytes} {pos : UInt32} :
    Verifier.table [] buf pos ↔ True := iff_of_true nofun trivial

@[simp] theorem Verifier.table_cons {f : UInt16 × Verifier} {fields : List (UInt16 × Verifier)}
    {buf : Bytes} {pos : UInt32} :
    Verifier.table (f :: fields) buf pos ↔
      Verifier.field f.1 f.2 buf pos ∧ Verifier.table fields buf pos := List.forall_mem_cons

/-! ### Reads in a buffer -/

theorem isSome_bind_iff {α β : Type} {x : Option α} {f : α → Option β} {p q : Prop}
    (hx : x.isSome = true ↔ p) (hf : ∀ a, x = some a → ((f a).isSome = true ↔ q)) :
    (x >>= f).isSome = true ↔ p ∧ q := by
  cases x with
  | none =>
      have hp : ¬ p := fun h => nomatch hx.mpr h
      exact iff_of_false nofun fun h => hp h.1
  | some a =>
      have hp : p := hx.mp rfl
      exact (hf a rfl).trans (and_iff_right hp).symm

theorem isSome_bind_some {α β : Type} {x : Option α} {f : α → β} :
    (x >>= fun a => some (f a)).isSome = true ↔ x.isSome = true := by
  cases x with
  | none => exact Iff.rfl
  | some a => exact iff_of_true rfl rfl

/-- A reading of `size` bytes needs nothing else. -/
def ReadsBytes {α : Type} (read : Bytes → Option α) (size : ℕ) : Prop :=
  ∀ buf, (read buf).isSome = true ↔ size ≤ buf.length

theorem readsBytes_uint8 : ReadsBytes getUint8 1
  | [] => by simp [getUint8]
  | _ :: _ => by simp [getUint8]

theorem readsBytes_uint16 : ReadsBytes getUint16 2
  | [] | [_] => by simp [getUint16]
  | _ :: _ :: _ => by simp [getUint16]

theorem readsBytes_uint32 : ReadsBytes getUint32 4
  | [] | [_] | [_, _] | [_, _, _] => by simp [getUint32]
  | _ :: _ :: _ :: _ :: _ => by simp [getUint32]

theorem readsBytes_uint64 : ReadsBytes getUint64 8
  | [] | [_] | [_, _] | [_, _, _] | [_, _, _, _] | [_, _, _, _, _] | [_, _, _, _, _, _]
  | [_, _, _, _, _, _, _] => by simp [getUint64]
  | _ :: _ :: _ :: _ :: _ :: _ :: _ :: _ :: _ => by simp [getUint64]

theorem readsBytes_float64 : ReadsBytes getFloat64 8 := by
  intro buf
  rw [getFloat64, Option.isSome_map]
  exact readsBytes_uint64 buf

section Reads

variable {α : Type} {t : Table}

theorem isSome_get {read : Bytes → Option α} {size : ℕ} (h : ReadsBytes read size)
    (off : UInt32) : (t.get read off).isSome = true ↔ InRange t.bytes off size := by
  have hslice : (sliceFrom t.bytes off).isSome = true ↔ off.toNat ≤ t.bytes.length := by
    unfold sliceFrom
    split
    · next hle => exact iff_of_true rfl hle
    · next hle => exact iff_of_false nofun hle
  have hread : ∀ buf, sliceFrom t.bytes off = some buf →
      ((read buf).isSome = true ↔ size ≤ t.bytes.length - off.toNat) := by
    intro buf hbuf
    unfold sliceFrom at hbuf
    split at hbuf
    · rw [h buf, ← Option.some.inj hbuf, List.length_drop]
    · cases hbuf
  rw [Table.get, isSome_bind_iff hslice hread, inRange_iff]
  omega

theorem get_eq {read : Bytes → Option α} {off : UInt32} {a : α} (h : t.get read off = some a) :
    read (t.bytes.drop off.toNat) = some a := by
  unfold Table.get sliceFrom at h
  split at h
  · exact h
  · cases h

theorem get_word {off a : UInt32} (h : t.get getUint32 off = some a) : a = word t.bytes off := by
  rw [word, get_eq h, Option.getD_some]

theorem get_half {off : UInt32} {a : UInt16} (h : t.get getUint16 off = some a) :
    a = half t.bytes off := by
  rw [half, get_eq h, Option.getD_some]

theorem isSome_offset (slot : UInt16) :
    (t.offset slot).isSome = true ↔ HasEntry t.bytes t.pos slot := by
  have hall : (t.offset slot).isSome = true ↔
      InRange t.bytes t.pos 4 ∧ InRange t.bytes (vtable t.bytes t.pos) 2 ∧
        (slot < half t.bytes (vtable t.bytes t.pos) →
          InRange t.bytes (vtable t.bytes t.pos + slot.toUInt32) 2) := by
    refine isSome_bind_iff (isSome_get readsBytes_uint32 _) fun soffset hsoffset => ?_
    rw [get_word hsoffset]
    refine isSome_bind_iff (isSome_get readsBytes_uint16 _) fun size hsize => ?_
    rw [get_half hsize]
    change Option.isSome (if slot < half t.bytes (vtable t.bytes t.pos) then _ else _) = true ↔ _
    split
    · next hlt => exact (isSome_get readsBytes_uint16 _).trans ⟨fun h _ => h, fun h => h hlt⟩
    · next hlt => exact iff_of_true rfl fun h => absurd h hlt
  exact hall.trans ⟨fun h => ⟨h.1, h.2.1, h.2.2⟩, fun h => ⟨h.start, h.size, h.entry⟩⟩

theorem offset_eq {slot o : UInt16} (h : t.offset slot = some o) :
    o = entry t.bytes t.pos slot := by
  obtain ⟨soffset, hsoffset, h⟩ := Option.bind_eq_some_iff.mp h
  obtain ⟨size, hsize, h⟩ := Option.bind_eq_some_iff.mp h
  rw [get_word hsoffset] at hsize h
  rw [get_half hsize] at h
  rw [entry]
  change (if slot < half t.bytes (vtable t.bytes t.pos) then _ else _) = some o at h
  split at h
  · next hlt =>
      rw [if_pos hlt]
      exact get_half h
  · next hlt =>
      rw [if_neg hlt]
      exact (Option.some.inj h).symm

theorem toUInt32_ne_zero {o : UInt16} : o.toUInt32 ≠ 0 ↔ o ≠ 0 := by
  rw [not_iff_not, ← UInt32.toNat_inj, ← UInt16.toNat_inj]
  rfl

/-- An accessor succeeds if the field has an entry, and is absent or can be read. -/
theorem isSome_field {slot : UInt16} {default : α} {read : UInt32 → Option α} {p : Prop}
    (h : entry t.bytes t.pos slot ≠ 0 →
      ((read (entry t.bytes t.pos slot).toUInt32).isSome = true ↔ p)) :
    (t.field slot default read).isSome = true ↔
      HasEntry t.bytes t.pos slot ∧ (entry t.bytes t.pos slot ≠ 0 → p) := by
  refine isSome_bind_iff (isSome_offset slot) fun o ho => ?_
  rw [offset_eq ho]
  dsimp only
  split
  · next hne =>
      have hpresent := toUInt32_ne_zero.mp hne
      exact (h hpresent).trans ⟨fun hp _ => hp, fun hp => hp hpresent⟩
  · next heq => exact iff_of_true rfl fun hne => absurd (toUInt32_ne_zero.mpr hne) heq

theorem isSome_number {slot : UInt16} {default : α} {read : Bytes → Option α} {size : ℕ}
    (h : ReadsBytes read size) :
    (t.number slot default read).isSome = true ↔
      Verifier.field slot (Verifier.number size) t.bytes t.pos :=
  isSome_field fun _ => isSome_get h _

theorem inRange_of_get {off a : UInt32} (h : t.get getUint32 off = some a) :
    InRange t.bytes off 4 := by
  rw [← isSome_get readsBytes_uint32 off, h]
  rfl

theorem toNat_add_four {buf : Bytes} (hbuf : buf.length < 2 ^ 32) {off : UInt32}
    (h : InRange buf off 4) : (off + 4).toNat = off.toNat + 4 := by
  have hlt : off.toNat + 4 < 2 ^ 32 := Nat.lt_of_le_of_lt h.le hbuf
  rw [UInt32.toNat_add]
  exact Nat.mod_eq_of_lt hlt

theorem isSome_slice {buf : Bytes} (hbuf : buf.length < 2 ^ 32) {off : UInt32}
    (h : InRange buf off 4) (length : UInt32) :
    (slice buf (off + 4) (off + 4 + length)).isSome = true ↔
      InRange buf off (4 + length.toNat) := by
  have hstart := toNat_add_four hbuf h
  have hlength := length.toNat_lt
  have hall : (off + 4 ≤ off + 4 + length ∧ (off + 4 + length).toNat ≤ buf.length) ↔
      InRange buf off (4 + length.toNat) := by
    rw [UInt32.le_iff_toNat_le, UInt32.toNat_add (off + 4), hstart, inRange_iff]
    -- a length that wraps around ends before the text starts
    rcases Nat.lt_or_ge (off.toNat + 4 + length.toNat) (2 ^ 32) with hlt | hge
    · rw [Nat.mod_eq_of_lt hlt]
      omega
    · have hoff := off.toNat_lt
      rw [Nat.mod_eq_sub_mod hge]
      have := Nat.mod_le (off.toNat + 4 + length.toNat - 2 ^ 32) (2 ^ 32)
      omega
  rw [← hall]
  unfold slice
  split
  · next hin => exact iff_of_true rfl hin
  · next hin => exact iff_of_false nofun hin

theorem isSome_byteVector (hbuf : t.bytes.length < 2 ^ 32) (off : UInt32) :
    (t.byteVector off).isSome = true ↔ Verifier.text t.bytes off := by
  refine isSome_bind_iff (isSome_get readsBytes_uint32 _) fun offset hoffset => ?_
  rw [get_word hoffset]
  refine isSome_bind_iff (isSome_get readsBytes_uint32 _) fun length hlength => ?_
  rw [get_word hlength]
  exact isSome_slice hbuf (inRange_of_get hlength) _

theorem byteVector_length (hbuf : t.bytes.length < 2 ^ 32) {off : UInt32} {b : Bytes}
    (h : t.byteVector off = some b) :
    b.length = (word t.bytes (target t.bytes off)).toNat := by
  obtain ⟨offset, hoffset, h⟩ := Option.bind_eq_some_iff.mp h
  rw [get_word hoffset, ← target] at h
  obtain ⟨length, hlength, h⟩ := Option.bind_eq_some_iff.mp h
  rw [get_word hlength] at h
  have hin := (isSome_slice hbuf (inRange_of_get hlength) _).mp (by rw [h]; rfl)
  have hstart := toNat_add_four hbuf (inRange_of_get hlength)
  have hend : (target t.bytes off + 4 + word t.bytes (target t.bytes off)).toNat =
      (target t.bytes off).toNat + 4 + (word t.bytes (target t.bytes off)).toNat := by
    have hle := hin.le
    rw [UInt32.toNat_add, hstart]
    exact Nat.mod_eq_of_lt (by omega)
  have hle := hin.le
  unfold slice at h
  split at h
  · rw [← Option.some.inj h, List.length_drop, List.length_take, hstart, hend]
    omega
  · cases h

theorem isSome_text (hbuf : t.bytes.length < 2 ^ 32) (slot : UInt16) :
    (t.text slot).isSome = true ↔ Verifier.field slot Verifier.text t.bytes t.pos := by
  refine isSome_field fun _ => ?_
  rw [Option.isSome_map]
  exact isSome_byteVector hbuf _

theorem isSome_inline (slot : UInt16) (obj : Table) :
    (t.inline slot obj).isSome = true ↔ HasEntry t.bytes t.pos slot :=
  (isSome_field fun _ => iff_of_true rfl trivial).trans (and_iff_left fun _ => trivial)

theorem field_eq {slot : UInt16} {default a : α} {read : UInt32 → Option α}
    (h : t.field slot default read = some a) :
    (entry t.bytes t.pos slot = 0 → a = default) ∧
      (entry t.bytes t.pos slot ≠ 0 →
        read (entry t.bytes t.pos slot).toUInt32 = some a) := by
  obtain ⟨o, ho, h⟩ := Option.bind_eq_some_iff.mp h
  rw [offset_eq ho] at h
  dsimp only at h
  constructor
  · intro hzero
    rw [hzero] at h
    exact (Option.some.inj h).symm
  · intro hne
    rwa [if_pos (toUInt32_ne_zero.mpr hne)] at h

theorem text_eq (hbuf : t.bytes.length < 2 ^ 32) {slot : UInt16} {b : Option Bytes}
    (h : t.text slot = some b) :
    (entry t.bytes t.pos slot = 0 → b = none) ∧
      (entry t.bytes t.pos slot ≠ 0 → (b.getD []).length =
        (word t.bytes (target t.bytes (place t.bytes t.pos slot))).toNat) := by
  refine ⟨(field_eq h).1, fun hne => ?_⟩
  obtain ⟨c, hc, hb⟩ := Option.map_eq_some_iff.mp ((field_eq h).2 hne)
  rw [← hb, Option.getD_some]
  exact byteVector_length hbuf hc

theorem getUint8_eq (t : Table) {slot : UInt16} {b : UInt8} (h : t.number slot 0 getUint8 = some b) :
    b = if entry t.bytes t.pos slot = 0 then 0 else byte t.bytes (place t.bytes t.pos slot) := by
  obtain ⟨habsent, hpresent⟩ := field_eq h
  split
  · next hzero => exact habsent hzero
  · next hne =>
      have hbyte := get_eq (hpresent hne)
      rw [byte, place, hbyte, Option.getD_some]

theorem inline_eq {slot : UInt16} {obj child : Table} (h : t.inline slot obj = some child) :
    (entry t.bytes t.pos slot = 0 → child = obj) ∧
      (entry t.bytes t.pos slot ≠ 0 → child = ⟨t.bytes, place t.bytes t.pos slot⟩) :=
  ⟨(field_eq h).1, fun hne => (Option.some.inj ((field_eq h).2 hne)).symm⟩

/-! ### Children and vectors -/

theorem isSome_indirect (off : UInt32) :
    (t.indirect off).isSome = true ↔ InRange t.bytes off 4 :=
  isSome_bind_some.trans (isSome_get readsBytes_uint32 off)

theorem indirect_eq {off x : UInt32} (h : t.indirect off = some x) : x = target t.bytes off := by
  obtain ⟨w, hw, h⟩ := Option.bind_eq_some_iff.mp h
  rw [← Option.some.inj h, get_word hw, target]

theorem isSome_vector (off : UInt32) :
    (t.vector off).isSome = true ↔ InRange t.bytes (off + t.pos) 4 :=
  isSome_bind_some.trans (isSome_get readsBytes_uint32 (off + t.pos))

theorem vector_eq {off x : UInt32} (h : t.vector off = some x) :
    x = target t.bytes (off + t.pos) + 4 := by
  obtain ⟨w, hw, h⟩ := Option.bind_eq_some_iff.mp h
  rw [← Option.some.inj h, get_word hw, target]

theorem isSome_child (slot : UInt16) :
    (t.child slot).isSome = true ↔ Verifier.field slot (Verifier.number 4) t.bytes t.pos :=
  isSome_field fun _ => isSome_bind_some.trans (isSome_indirect _)

theorem child_eq {slot : UInt16} {child : Option Table} (h : t.child slot = some child) :
    (entry t.bytes t.pos slot = 0 → child = none) ∧
      (entry t.bytes t.pos slot ≠ 0 →
        child = some ⟨t.bytes, target t.bytes (place t.bytes t.pos slot)⟩) := by
  refine ⟨(field_eq h).1, fun hne => ?_⟩
  obtain ⟨x, hx, hsome⟩ := Option.bind_eq_some_iff.mp ((field_eq h).2 hne)
  rw [← Option.some.inj hsome, indirect_eq hx]
  rfl

theorem isSome_readChild {slot : UInt16} {read : Table → Option α} {verifier : Verifier}
    (h : ∀ pos, (read ⟨t.bytes, pos⟩).isSome = true ↔ verifier t.bytes pos) :
    (t.child slot >>= fun child => child.mapM read : Option (Option α)).isSome = true ↔
      Verifier.field slot (Verifier.child verifier) t.bytes t.pos := by
  have hread : ∀ child, t.child slot = some child →
      ((child.mapM read : Option (Option α)).isSome = true ↔
        (entry t.bytes t.pos slot ≠ 0 →
          verifier t.bytes (target t.bytes (place t.bytes t.pos slot)))) := by
    intro child hchild
    obtain ⟨habsent, hpresent⟩ := child_eq hchild
    by_cases hzero : entry t.bytes t.pos slot = 0
    · rw [habsent hzero]
      exact iff_of_true rfl fun hne => absurd hzero hne
    · rw [hpresent hzero, forall_prop_of_true hzero, ← h]
      exact iff_of_eq (congrArg (· = true) Option.isSome_map)
  rw [isSome_bind_iff (isSome_child slot) hread, Verifier.field, Verifier.field, Verifier.child,
    Verifier.number]
  tauto

theorem isSome_length (slot : UInt16) :
    (t.length slot).isSome = true ↔ Verifier.field slot Verifier.head t.bytes t.pos := by
  refine isSome_field fun _ => ?_
  refine isSome_bind_iff (isSome_get readsBytes_uint32 _) fun offset hoffset => ?_
  rw [get_word hoffset]
  refine (isSome_bind_iff (isSome_get readsBytes_uint32 _)
    fun _ _ => iff_of_true rfl trivial).trans (and_iff_left trivial)

theorem length_eq {slot : UInt16} {n : ℕ} (h : t.length slot = some n) :
    (entry t.bytes t.pos slot = 0 → n = 0) ∧
      (entry t.bytes t.pos slot ≠ 0 →
        n = (word t.bytes (target t.bytes (place t.bytes t.pos slot))).toNat) := by
  refine ⟨(field_eq h).1, fun hne => ?_⟩
  obtain ⟨offset, hoffset, h⟩ := Option.bind_eq_some_iff.mp ((field_eq h).2 hne)
  obtain ⟨n, hn, h⟩ := Option.bind_eq_some_iff.mp h
  rw [get_word hoffset] at hn
  rw [← Option.some.inj h, get_word hn]
  rfl

theorem isSome_element (t : Table) {slot : UInt16} (hentry : HasEntry t.bytes t.pos slot)
    (hne : entry t.bytes t.pos slot ≠ 0) (hplace : InRange t.bytes (place t.bytes t.pos slot) 4)
    (obj : Table) (j : ℕ) :
    (t.element slot obj j).isSome = true ↔
      InRange t.bytes (elementAt (target t.bytes (place t.bytes t.pos slot)) j) 4 := by
  have hread : ∀ obj, (t.element slot obj j).isSome = true ↔ HasEntry t.bytes t.pos slot ∧
      (entry t.bytes t.pos slot ≠ 0 → InRange t.bytes (place t.bytes t.pos slot) 4 ∧
        InRange t.bytes (elementAt (target t.bytes (place t.bytes t.pos slot)) j) 4) := by
    intro obj
    refine isSome_field fun _ => ?_
    refine isSome_bind_iff (isSome_vector _) fun x hx => ?_
    refine isSome_bind_some.trans ?_
    rw [vector_eq hx]
    exact isSome_indirect _
  rw [hread]
  tauto

theorem element_eq {slot : UInt16} {obj child : Table} {j : ℕ}
    (h : t.element slot obj j = some child) (hne : entry t.bytes t.pos slot ≠ 0) :
    child = ⟨t.bytes, target t.bytes
      (elementAt (target t.bytes (place t.bytes t.pos slot)) j)⟩ := by
  obtain ⟨x, hx, h⟩ := Option.bind_eq_some_iff.mp ((field_eq h).2 hne)
  obtain ⟨y, hy, h⟩ := Option.bind_eq_some_iff.mp h
  rw [vector_eq hx] at hy
  rw [← Option.some.inj h, indirect_eq hy]
  rfl

theorem isSome_readElements (t : Table) {slot : UInt16} {read : Table → Option α} {verifier : Verifier}
    (h : ∀ pos, (read ⟨t.bytes, pos⟩).isSome = true ↔ verifier t.bytes pos)
    (hentry : HasEntry t.bytes t.pos slot) (hne : entry t.bytes t.pos slot ≠ 0)
    (hplace : InRange t.bytes (place t.bytes t.pos slot) 4) (obj : Table) (js : List ℕ) :
    let start := target t.bytes (place t.bytes t.pos slot)
    (readElements (t.element slot) read obj js).isSome = true ↔
      ∀ j ∈ js, InRange t.bytes (elementAt start j) 4 ∧
        verifier t.bytes (target t.bytes (elementAt start j)) := by
  intro start
  induction js generalizing obj with
  | nil => exact iff_of_true rfl nofun
  | cons j js ih =>
      have hfirst := isSome_element t hentry hne hplace obj j
      rw [List.forall_mem_cons, and_assoc]
      refine isSome_bind_iff hfirst fun child hchild => ?_
      rw [element_eq hchild hne]
      exact isSome_bind_iff (h _) fun a _ => isSome_bind_some.trans (ih _)

theorem forall_inRange_elementAt {buf : Bytes} (hbuf : buf.length < 2 ^ 32) {start : UInt32}
    (hstart : InRange buf start 4) (n : ℕ) :
    (∀ j < n, InRange buf (elementAt start j) 4) ↔ InRange buf start (4 + 4 * n) := by
  have hoff := toNat_add_four hbuf hstart
  have hat : ∀ j, start.toNat + 4 + 4 * j ≤ buf.length →
      (elementAt start j).toNat = start.toNat + 4 + 4 * j := by
    intro j hj
    rw [elementAt, UInt32.toNat_add, UInt32.toNat_mul, hoff, UInt32.toNat_ofNat']
    have hfour : (4 : UInt32).toNat = 4 := rfl
    have hmod : (j % 2 ^ 32 * 4) % 2 ^ 32 = 4 * j := by
      rw [Nat.mod_eq_of_lt (show j < 2 ^ 32 by omega)]
      omega
    rw [hfour, hmod]
    exact Nat.mod_eq_of_lt (by omega)
  have hle := hstart.le
  simp only [inRange_iff]
  constructor
  · intro hall
    by_contra hlt
    -- the first element that is not in the buffer: its place does not wrap around yet
    have hj : (buf.length - (start.toNat + 4)) / 4 < n := by omega
    have hin := hall _ hj
    rw [hat _ (by omega)] at hin
    omega
  · intro hin j hj
    rw [hat j (by omega)]
    omega

theorem field_vector_iff {buf : Bytes} (hbuf : buf.length < 2 ^ 32) {pos : UInt32} {slot : UInt16}
    {verifier : Verifier} :
    Verifier.field slot (Verifier.vector verifier) buf pos ↔
      Verifier.field slot Verifier.head buf pos ∧
        (entry buf pos slot ≠ 0 →
          ∀ j < (word buf (target buf (place buf pos slot))).toNat,
            InRange buf (elementAt (target buf (place buf pos slot)) j) 4 ∧
              verifier buf (target buf (elementAt (target buf (place buf pos slot)) j))) := by
  have hvector : ∀ off, Verifier.vector verifier buf off ↔ Verifier.head buf off ∧
      ∀ j < (word buf (target buf off)).toNat, InRange buf (elementAt (target buf off) j) 4 ∧
        verifier buf (target buf (elementAt (target buf off) j)) := by
    intro off
    rw [Verifier.vector, Verifier.head, and_assoc]
    refine and_congr_right fun _ => and_congr_right fun hstart => ?_
    rw [← forall_inRange_elementAt hbuf hstart, ← forall₂_and]
  rw [Verifier.field, Verifier.field, hvector, imp_and, and_assoc]

theorem isSome_vectorLoop (t : Table) {slot : UInt16} {loop : ℕ → Option α} {p : Prop}
    (hzero : (loop 0).isSome = true)
    (hloop : HasEntry t.bytes t.pos slot → entry t.bytes t.pos slot ≠ 0 →
      InRange t.bytes (place t.bytes t.pos slot) 4 →
      ((loop (word t.bytes (target t.bytes (place t.bytes t.pos slot))).toNat).isSome = true ↔
        p)) :
    (t.length slot >>= loop).isSome = true ↔
      Verifier.field slot Verifier.head t.bytes t.pos ∧ (entry t.bytes t.pos slot ≠ 0 → p) := by
  refine isSome_bind_iff (isSome_length slot) fun n hn => ?_
  obtain ⟨habsent, hpresent⟩ := length_eq hn
  have hhead : Verifier.field slot Verifier.head t.bytes t.pos := by
    rw [← isSome_length, hn]
    rfl
  by_cases hne : entry t.bytes t.pos slot = 0
  · rw [habsent hne]
    exact iff_of_true hzero fun h => absurd hne h
  · rw [hpresent hne, forall_prop_of_true hne]
    exact hloop hhead.1 hne (hhead.2 hne).1

theorem isSome_readVector {slot : UInt16} {read : Table → Option α} {verifier : Verifier}
    (hbuf : t.bytes.length < 2 ^ 32)
    (h : ∀ pos, (read ⟨t.bytes, pos⟩).isSome = true ↔ verifier t.bytes pos) (obj : Table) :
    (t.length slot >>= fun n => readElements (t.element slot) read obj (List.range n)).isSome =
        true ↔
      Verifier.field slot (Verifier.vector verifier) t.bytes t.pos := by
  rw [field_vector_iff hbuf]
  refine isSome_vectorLoop t rfl fun hentry hne hplace => ?_
  refine (isSome_readElements t h hentry hne hplace obj _).trans ?_
  simp only [List.mem_range]

end Reads

end AxiomDaemon.Lib.Flatbuffers

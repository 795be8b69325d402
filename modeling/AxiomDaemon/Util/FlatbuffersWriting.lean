import AxiomDaemon.Lib.Growth
import AxiomDaemon.Util.FlatbuffersReturns

/-!
Functions that write one thing after the other to a buffer.

There is a rule for each call: what it needs, that it returns then, how much it adds at
most, and what the buffer has from then on, whatever is put in front of it.
-/

namespace AxiomDaemon.Util

open AxiomDaemon.Lib AxiomDaemon.Lib.Flatbuffers

/-! ### What a call may add -/

/-- A call has added no more than `n` bytes, and asks for no alignment that no scalar has. -/
structure Grew (fb fb' : Flatbuffer) (n : ℕ) : Prop where
  length : fb'.bytes.length ≤ fb.bytes.length + n
  minAlign : fb.minAlign ≤ 8 → fb'.minAlign ≤ 8

namespace Grew

variable {fb fb₁ fb₂ : Flatbuffer} {m n : ℕ}

theorem refl (fb : Flatbuffer) : Grew fb fb 0 := ⟨Nat.le_refl _, id⟩

theorem trans (h : Grew fb fb₁ m) (h' : Grew fb₁ fb₂ n) : Grew fb fb₂ (m + n) := by
  refine ⟨?_, fun hle => h'.minAlign (h.minAlign hle)⟩
  have := h.length
  have := h'.length
  omega

theorem mono (h : Grew fb fb₁ m) (hle : m ≤ n) : Grew fb fb₁ n :=
  ⟨h.length.trans (Nat.add_le_add_left hle _), h.minAlign⟩

theorem put {bytes : Bytes} (h : fb.put bytes = some fb₁) : Grew fb fb₁ bytes.length := by
  have hlength := (put_spec h).1.length
  unfold Flatbuffer.put at h
  split at h
  · obtain rfl := Option.some.inj h
    exact ⟨by omega, id⟩
  · cases h

theorem foldlM {α : Type} {f : Flatbuffer → α → Option Flatbuffer}
    (hf : ∀ fb fb' x, f fb x = some fb' → Grew fb fb' n) {l : List α}
    (h : l.foldlM f fb = some fb₁) : Grew fb fb₁ (n * l.length) := by
  induction l generalizing fb with
  | nil =>
      obtain rfl := Option.some.inj h
      exact .refl fb
  | cons x l ih =>
      rw [List.foldlM_cons] at h
      obtain ⟨next, hnext, hrest⟩ := Option.bind_eq_some_iff.mp h
      apply ((hf _ _ _ hnext).trans (ih hrest)).mono
      rw [List.length_cons, Nat.mul_add, Nat.mul_one, Nat.add_comm]

end Grew

theorem growWhile_minAlign {malloc : ℕ → ℕ} {need fuel : ℕ} {fb fb' : Flatbuffer}
    (h : growWhile malloc need fuel fb = some fb') : fb'.minAlign = fb.minAlign := by
  induction fuel generalizing fb with
  | zero =>
      obtain rfl := Option.some.inj h
      rfl
  | succ fuel ih =>
      rw [growWhile] at h
      split at h
      · obtain ⟨grown, hgrown, hrest⟩ := Option.bind_eq_some_iff.mp h
        rw [ih hrest]
        unfold nrFlatbuffersGrow at hgrown
        dsimp only at hgrown
        split at hgrown
        · cases hgrown
        · obtain rfl := Option.some.inj hgrown
          rfl
      · obtain rfl := Option.some.inj h
        rfl

section Grew

variable {malloc : ℕ → ℕ} (hmalloc : ∀ n, 4 ∣ malloc n) {fb fb' : Flatbuffer}

include hmalloc

theorem Grew.prep {size additionalBytes : ℕ} (hsize : 0 < size) (hle : size ≤ 8)
    (h : nrFlatbuffersPrep malloc fb size additionalBytes = some fb') : Grew fb fb' size := by
  obtain ⟨pad, hpad, hextends, _⟩ := nrFlatbuffersPrep_spec hmalloc hsize h
  refine ⟨?_, fun halign => ?_⟩
  · rw [hextends.length, List.length_replicate]
    omega
  · unfold nrFlatbuffersPrep at h
    obtain ⟨grown, hgrown, hput⟩ := Option.bind_eq_some_iff.mp h
    have hgrew := (Grew.put hput).minAlign
    rw [growWhile_minAlign hgrown] at hgrew
    apply hgrew
    split
    · exact hle
    · exact halign

theorem Grew.prepend {ty : ScalarType} {x : ty.Value}
    (h : nrFlatbuffersPrepend malloc ty fb x = some fb') : Grew fb fb' (2 * ty.size) := by
  obtain ⟨prepared, hprep, hput⟩ := Option.bind_eq_some_iff.mp h
  have hle : ty.size ≤ 8 := by
    cases ty <;> decide
  apply ((Grew.prep hmalloc ty.size_pos hle hprep).trans (Grew.put hput)).mono
  rw [length_uintLE]
  omega

theorem Grew.prependU16 {x : ℕ} (h : nrFlatbuffersPrependU16 malloc fb x = some fb') :
    Grew fb fb' 4 := by
  obtain ⟨prepared, hprep, hput⟩ := Option.bind_eq_some_iff.mp h
  apply ((Grew.prep hmalloc (by decide) (by decide) hprep).trans (Grew.put hput)).mono
  rw [length_uintLE]

theorem Grew.prependUoffset {x : ℕ} (h : nrFlatbuffersPrependUoffset malloc fb x = some fb') :
    Grew fb fb' 8 := by
  obtain ⟨prepared, hprep, hrest⟩ := Option.bind_eq_some_iff.mp h
  split at hrest
  · apply ((Grew.prep hmalloc (by decide) (by decide) hprep).trans (Grew.put hrest)).mono
    rw [length_uintLE]
  · cases hrest

theorem Grew.prependOffsets {offsets : List ℕ} {offset : ℕ}
    (h : prependOffsets malloc fb offsets = some (offset, fb')) :
    Grew fb fb' (8 * offsets.length + 12) := by
  obtain ⟨begun, hbegin, hrest⟩ := Option.bind_eq_some_iff.mp h
  obtain ⟨filled, hfill, hend⟩ := Option.bind_eq_some_iff.mp hrest
  obtain ⟨prepared, hprep, hprep'⟩ := Option.bind_eq_some_iff.mp hbegin
  obtain ⟨ended, hput, hlast⟩ := Option.bind_eq_some_iff.mp hend
  obtain ⟨rfl, rfl⟩ := Prod.mk.inj (Option.some.inj hlast)
  have hbegun := (Grew.prep hmalloc (by decide) (by decide) hprep).trans
    (Grew.prep hmalloc (by decide) (by decide) hprep')
  have hfilled := Grew.foldlM (fun _ _ _ => Grew.prependUoffset hmalloc) hfill
  apply ((hbegun.trans hfilled).trans (Grew.put hput)).mono
  rw [length_uintLE, List.length_reverse]
  omega

theorem Grew.writeVtable {objectOffset : ℕ} (hoffset : 4 ≤ objectOffset)
    (hle : objectOffset ≤ fb.bytes.length)
    (h : writeVtable malloc fb objectOffset = some fb') :
    Grew fb fb' (4 * fb.vtable.length + 8) := by
  obtain ⟨filled, hfill, hrest⟩ := Option.bind_eq_some_iff.mp h
  obtain ⟨sized, hsized, hrest⟩ := Option.bind_eq_some_iff.mp hrest
  obtain ⟨full, hfull, hrest⟩ := Option.bind_eq_some_iff.mp hrest
  obtain ⟨_, hextends⟩ := foldlM_extends (fun _ _ _ => nrFlatbuffersPrependU16_extends hmalloc) hfill
  obtain ⟨_, hextends'⟩ := nrFlatbuffersPrependU16_extends hmalloc hsized
  obtain ⟨_, hextends''⟩ := nrFlatbuffersPrependU16_extends hmalloc hfull
  have hfull_le := ((hextends.trans hextends').trans hextends'').length_le
  have hfilled := Grew.foldlM (fun _ _ _ => Grew.prependU16 hmalloc) hfill
  have hgrew := (hfilled.trans (Grew.prependU16 hmalloc hsized)).trans
    (Grew.prependU16 hmalloc hfull)
  obtain rfl := Option.some.inj hrest
  refine ⟨?_, hgrew.minAlign⟩
  show (blockCopy full.bytes (full.bytes.length - objectOffset) _).length ≤ _
  have hfits : full.bytes.length - objectOffset + (uintLE 4
      (wordDiff (nrFlatbuffersLen full) objectOffset)).length ≤ full.bytes.length := by
    rw [length_uintLE]
    omega
  rw [length_blockCopy hfits]
  have hlength := hgrew.length
  rw [List.length_reverse] at hlength
  omega

theorem Grew.objectEnd {offset : ℕ} (hlt : fb.bytes.length + 8 < 2 ^ 32)
    (h : nrFlatbuffersObjectEnd malloc fb = some (offset, fb')) :
    Grew fb fb' (4 * fb.vtable.length + 16) := by
  unfold nrFlatbuffersObjectEnd at h
  split at h
  · obtain ⟨⟨place, ended⟩, hended, hrest⟩ := Option.bind_eq_some_iff.mp h
    obtain ⟨rfl, rfl⟩ := Prod.mk.inj (Option.some.inj hrest)
    obtain ⟨prepended, hprepend, hrest⟩ := Option.bind_eq_some_iff.mp hended
    obtain ⟨entries, hentries, hrest⟩ := Option.bind_eq_some_iff.mp hrest
    obtain ⟨existing, hexisting, hrest⟩ := Option.bind_eq_some_iff.mp hrest
    have hgrew := Grew.prepend hmalloc hprepend
    have hlength : prepended.bytes.length ≤ fb.bytes.length + 8 := hgrew.length
    obtain ⟨pad, _, hextends, _⟩ := nrFlatbuffersPrepend_spec hmalloc hprepend
    have hfour : 4 ≤ prepended.bytes.length := by
      rw [hextends.length, List.length_append, length_uintLE]
      show 4 ≤ 4 + _ + _
      omega
    have hplace : nrFlatbuffersLen prepended % 2 ^ 32 = prepended.bytes.length := by
      unfold nrFlatbuffersLen
      omega
    have hcount : entries.length = fb.vtable.length := by
      rw [← hextends.vtable]
      exact (mapM_relativeField hentries).1
    dsimp only at hrest
    by_cases hzero : existing = 0
    · rw [if_pos hzero] at hrest
      obtain ⟨written, hwritten, hlast⟩ := Option.bind_eq_some_iff.mp hrest
      obtain ⟨rfl, rfl⟩ := Prod.mk.inj (Option.some.inj hlast)
      rw [hplace] at hwritten
      have hwrite : Grew { prepended with vtable := entries } written (4 * entries.length + 8) :=
        Grew.writeVtable hmalloc hfour (Nat.le_refl _) hwritten
      refine ⟨?_, fun hle => hwrite.minAlign (hgrew.minAlign hle)⟩
      have hwrote : written.bytes.length ≤ prepended.bytes.length + (4 * entries.length + 8) :=
        hwrite.length
      show written.bytes.length ≤ _
      omega
    · rw [if_neg hzero] at hrest
      obtain ⟨rfl, rfl⟩ := Prod.mk.inj (Option.some.inj hrest)
      refine ⟨?_, hgrew.minAlign⟩
      show (blockCopy prepended.bytes (prepended.bytes.length - _) _).length ≤ _
      rw [hplace, length_blockCopy]
      · omega
      · rw [length_uintLE]
        omega
  · obtain ⟨rfl, rfl⟩ := Prod.mk.inj (Option.some.inj h)
    exact (Grew.refl fb).mono (Nat.zero_le _)

end Grew

/-! ### The calls, as programs -/

/-- A function that writes to a buffer. -/
abbrev Writing (α : Type) := StateT Flatbuffer Option α

/-- Buffers grow at their front, and are seen when they are finished. -/
def writing : Growth Flatbuffer Bytes where
  size fb := fb.bytes.length
  View fb buf := fb.bytes <:+ buf

/-- A call that returns nothing. -/
def Writing.step (f : Flatbuffer → Option Flatbuffer) : Writing Unit :=
  fun fb => (f fb).map fun fb => ((), fb)

section Calls

variable (malloc : ℕ → ℕ)

def prependString (s : Option Bytes) : Writing ℕ := fun fb => nrFlatbuffersPrependString malloc fb s

def objectBegin (numFields : ℕ) : Writing Unit :=
  .step fun fb => some (nrFlatbuffersObjectBegin fb numFields).2

def objectPrepend (ty : ScalarType) (i : ℕ) (x d : ty.Value) : Writing Unit :=
  .step fun fb => nrFlatbuffersObjectPrepend malloc ty fb i x d

def objectPrependUoffset (i x d : ℕ) : Writing Unit :=
  .step fun fb => nrFlatbuffersObjectPrependUoffset malloc fb i x d

def objectPrependBool (i : ℕ) (x d : Bool) : Writing Unit :=
  .step fun fb => nrFlatbuffersObjectPrependBool malloc fb i x d

def objectEnd : Writing ℕ := nrFlatbuffersObjectEnd malloc

/-- A vector of offsets. -/
def vectorOf (offsets : List ℕ) : Writing ℕ := fun fb => prependOffsets malloc fb offsets

def finish (rootTable : ℕ) : Writing Unit := .step fun fb => nrFlatbuffersFinish malloc fb rootTable

end Calls

/-- A call that writes a field of the object that is open. The default is 0 in all calls. -/
inductive FieldWrite
  | uoffset (i x : ℕ)
  | scalar (i : ℕ) (ty : ScalarType) (x : ty.Value)
  | bool (i : ℕ) (x : Bool)

namespace FieldWrite

def run (malloc : ℕ → ℕ) : FieldWrite → Writing Unit
  | uoffset i x => objectPrependUoffset malloc i x 0
  | scalar i ty x => objectPrepend malloc ty i x 0
  | bool i x => objectPrependBool malloc i x false

def index : FieldWrite → ℕ
  | uoffset i _ => i
  | scalar i _ _ => i
  | bool i _ => i

/-- The offset that it refers to. -/
def offset : FieldWrite → ℕ
  | uoffset _ x => x
  | _ => 0

/-- How much it adds at most. -/
def cost : FieldWrite → ℕ
  | uoffset _ _ => 8
  | scalar _ ty _ => 2 * ty.size
  | bool _ _ => 2

end FieldWrite

theorem objectPrependBool_eq (malloc : ℕ → ℕ) (i : ℕ) (x d : Bool) :
    objectPrependBool malloc i x d =
      objectPrepend malloc .u8 i (if x then 1 else 0) (if d then 1 else 0) := by
  cases x <;> cases d <;> rfl

/-- An object, from its beginning to its end. -/
def object (malloc : ℕ → ℕ) (numFields : ℕ) (fields : List FieldWrite) : Writing ℕ := do
  objectBegin numFields
  fields.forM (FieldWrite.run malloc)
  objectEnd malloc

/-- An object that there may be. -/
def optionalObject {α : Type} (write : α → Writing ℕ) : Option α → Writing ℕ
  | none => pure 0
  | some x => write x

/-- Objects, one after the other, and a vector of them. -/
def objectsInOrder {α : Type} (malloc : ℕ → ℕ) (write : α → Writing ℕ) : List α → Writing ℕ
  | [] => pure 0
  | x :: xs => do
      let offsets ← (x :: xs).mapM write
      vectorOf malloc offsets

/-- The same, but the offsets are put in front of each other as they come: what was written
last is the first in the vector. -/
def objectsReversed {α : Type} (malloc : ℕ → ℕ) (write : α → Writing ℕ) : List α → Writing ℕ
  | [] => pure 0
  | x :: xs => do
      let offsets ← (x :: xs).mapM write
      vectorOf malloc offsets.reverse

/-! ### The rules -/

/-- The buffer between two objects. -/
structure Ready (fb : Flatbuffer) : Prop where
  outside : fb.insideObject = false
  aligned : fb.Aligned
  vtables : VtablesIn fb.bytes fb.vtables

/-- The fields of an object, as they were written one after the other. -/
def fieldsOf (written : List (ℕ × Option Field)) (i : ℕ) : Option Field :=
  (written.find? fun p => p.1 = i).bind Prod.snd

/-- The buffer while an object of so many fields is written, that began at `start`, with the
fields that it has so far. -/
structure Writes (start numFields : ℕ) (written : List (ℕ × Option Field)) (fb : Flatbuffer) :
    Prop where
  inside : fb.insideObject = true
  aligned : fb.Aligned
  vtables : VtablesIn fb.bytes fb.vtables
  slots : Slots fb.bytes fb.vtable (fieldsOf written)
  numFields : fb.vtable.length = numFields
  recent : ∀ slot ∈ fb.vtable, slot ≠ 0 → start < slot
  start_le : start ≤ fb.bytes.length
  minAlign : fb.minAlign ≤ 8

/-- The text at an offset; there is none at the offset 0. -/
def TextIs (buf : Bytes) (off : ℕ) : Option Bytes → Prop
  | none => off = 0
  | some s => (Piece.text s).Holds buf off

/-- How much a text adds at most. -/
def textCost : Option Bytes → ℕ
  | none => 0
  | some s => s.length + 9

/-- A reference, unless the offset says that there is nothing. -/
def refField (off : ℕ) : Option Field := if off ≠ 0 then some (.ref off) else none

/-- The bytes of a scalar. -/
def scalarField (ty : ScalarType) (x : ty.Value) : Field := .inline (uintLE ty.size x.toNat)

/-- A scalar, unless it is the default. -/
def numberField (ty : ScalarType) (x d : ty.Value) : Option Field :=
  if ty.differs x d then some (scalarField ty x) else none

/-- The field that a call writes. -/
def FieldWrite.entry : FieldWrite → ℕ × Option Field
  | .uoffset i x => (i, refField x)
  | .scalar i ty x => (i, numberField ty x 0)
  | .bool i x => (i, numberField .u8 (if x then 1 else 0) 0)

/-- The object at an offset; there is none at the offset 0. -/
def ObjectIs {α : Type} (holds : α → ℕ → Bytes → Prop) : Option α → ℕ → Bytes → Prop
  | none, off, _ => off = 0
  | some x, off, buf => holds x off buf

/-- The vector of objects at an offset; there is none at the offset 0. -/
def ObjectsAre {α : Type} (holds : α → ℕ → Bytes → Prop) : List α → ℕ → Bytes → Prop
  | [], off, _ => off = 0
  | x :: xs, off, buf => ∃ offsets, List.Forall₂ (fun x o => holds x o buf) (x :: xs) offsets ∧
      (Piece.vector offsets).Holds buf off

/-- How much objects and their vector add at most. -/
def objectsCost {α : Type} (cost : α → ℕ) (objects : List α) : ℕ :=
  (objects.map cost).sum + (8 * objects.length + 16)

theorem fieldsOf_cons_self (i : ℕ) (f : Option Field) (written : List (ℕ × Option Field)) :
    fieldsOf ((i, f) :: written) i = f := by
  unfold fieldsOf
  rw [List.find?_cons_of_pos]
  · rfl
  · exact decide_eq_true rfl

theorem fieldsOf_cons_ne {i j : ℕ} (h : i ≠ j) (f : Option Field)
    (written : List (ℕ × Option Field)) :
    fieldsOf ((i, f) :: written) j = fieldsOf written j := by
  unfold fieldsOf
  rw [List.find?_cons_of_neg]
  exact fun heq => h (of_decide_eq_true heq)

theorem fieldsOf_cons_some (i : ℕ) (f : Field) (written : List (ℕ × Option Field)) :
    fieldsOf ((i, some f) :: written) = Function.update (fieldsOf written) i (some f) := by
  funext j
  by_cases hj : j = i
  · subst hj
    rw [fieldsOf_cons_self, Function.update_self]
  · rw [fieldsOf_cons_ne (Ne.symm hj), Function.update_of_ne hj]

theorem fieldsOf_cons_none {i : ℕ} {written : List (ℕ × Option Field)}
    (h : ∀ p ∈ written, p.1 ≠ i) : fieldsOf ((i, none) :: written) = fieldsOf written := by
  funext j
  by_cases hj : i = j
  · subst hj
    rw [fieldsOf_cons_self]
    unfold fieldsOf
    rw [List.find?_eq_none.mpr]
    · rfl
    · exact fun p hp heq => h p hp (of_decide_eq_true heq)
  · rw [fieldsOf_cons_ne hj]

theorem Ready.extend {fb fb' : Flatbuffer} {front : Bytes} (h : Ready fb)
    (hextends : Extends fb fb' front) : Ready fb' where
  outside := hextends.insideObject.trans h.outside
  aligned := hextends.aligned h.aligned
  vtables := by
    rw [hextends.bytes, hextends.vtables]
    exact h.vtables.prepend front

theorem ready_create (malloc : ℕ → ℕ) :
    Ready (nrFlatbuffersCreate malloc 0) where
  outside := rfl
  aligned := ⟨Nat.dvd_zero 4, .inl (Nat.dvd_zero 4), Nat.one_pos⟩
  vtables := by
    intro v hv
    cases hv

/-- Memory that starts at pages. -/
def pageMalloc (n : ℕ) : ℕ := 4096 * (n + 1)

theorem four_dvd_pageMalloc (n : ℕ) : 4 ∣ pageMalloc n :=
  Dvd.dvd.mul_right (by decide) _

namespace Writes

variable {start numFields i : ℕ} {written : List (ℕ × Option Field)} {fb prepended fb' : Flatbuffer}

theorem skip (h : Writes start numFields written fb) (hnew : ∀ p ∈ written, p.1 ≠ i) :
    Writes start numFields ((i, none) :: written) fb where
  inside := h.inside
  aligned := h.aligned
  vtables := h.vtables
  slots := by
    rw [fieldsOf_cons_none hnew]
    exact h.slots
  numFields := h.numFields
  recent := h.recent
  start_le := h.start_le
  minAlign := h.minAlign

theorem field (h : Writes start numFields written fb) {front : Bytes} {n : ℕ} {f : Field}
    (hextends : Extends fb prepended front) (hgrew : Grew fb prepended n)
    (hf : f.Holds prepended.bytes prepended.bytes.length)
    (hlt : fb.bytes.length < prepended.bytes.length) (hlength : prepended.bytes.length < 2 ^ 31)
    (hslot : setSlot prepended i = some fb') :
    Writes start numFields ((i, some f) :: written) fb' ∧ fb'.bytes = prepended.bytes := by
  unfold setSlot at hslot
  split at hslot
  · next hi =>
      obtain rfl := Option.some.inj hslot
      have hplace : nrFlatbuffersLen prepended % 2 ^ 32 = prepended.bytes.length := by
        unfold nrFlatbuffersLen
        omega
      have hstart := h.start_le
      have ha := hextends.aligned h.aligned
      refine ⟨⟨hextends.insideObject.trans h.inside, ⟨ha.front, ha.capacity, ha.minAlign⟩, ?_, ?_,
        ?_, ?_, ?_, hgrew.minAlign h.minAlign⟩, rfl⟩
      · show VtablesIn prepended.bytes prepended.vtables
        rw [hextends.bytes, hextends.vtables]
        exact h.vtables.prepend front
      · show Slots prepended.bytes (prepended.vtable.set i (nrFlatbuffersLen prepended % 2 ^ 32)) _
        rw [hplace, fieldsOf_cons_some]
        refine Slots.set ?_ hi (by omega) hf
        rw [hextends.bytes, hextends.vtable]
        exact h.slots.prepend front
      · show (prepended.vtable.set i _).length = numFields
        rw [List.length_set, hextends.vtable]
        exact h.numFields
      · show ∀ slot ∈ prepended.vtable.set i _, slot ≠ 0 → start < slot
        intro slot hmem hne
        obtain hmem | rfl := List.mem_or_eq_of_mem_set hmem
        · rw [hextends.vtable] at hmem
          exact h.recent slot hmem hne
        · rw [hplace]
          omega
      · show start ≤ prepended.bytes.length
        omega
  · cases hslot

end Writes

section Rules

variable {malloc : ℕ → ℕ} (hmalloc : ∀ n, 4 ∣ malloc n) {fb : Flatbuffer}

theorem reaches_piece {m : Writing ℕ} {fb' : Flatbuffer} {off cost : ℕ} {front : Bytes}
    {p : Piece} (h : Ready fb) (hrun : m fb = some (off, fb')) (hextends : Extends fb fb' front)
    (hp : p.Holds fb'.bytes fb'.bytes.length) (hoff : off = fb'.bytes.length % 2 ^ 32)
    (hcost : fb'.bytes.length ≤ fb.bytes.length + cost)
    (hlt : fb.bytes.length + cost < 2 ^ 30) :
    writing.Reaches (fb.bytes.length + cost) fb m
      (fun off fb' => Ready fb' ∧ off ≤ fb'.bytes.length) fun off buf => p.Holds buf off := by
  have hplace : off = fb'.bytes.length := by omega
  refine ⟨off, fb', hrun, hextends.length_le, hcost, ⟨h.extend hextends, hplace.le⟩,
    fun buf hbuf => ⟨?_, ?_⟩⟩
  · exact (hextends.bytes ▸ List.suffix_append front fb.bytes).trans hbuf
  · rw [hplace]
    exact hp.suffix hbuf

include hmalloc

theorem reaches_prependString (h : Ready fb) (s : Option Bytes)
    (hlt : fb.bytes.length + textCost s < 2 ^ 30) :
    writing.Reaches (fb.bytes.length + textCost s) fb (prependString malloc s)
      (fun off fb' => Ready fb' ∧ off ≤ fb'.bytes.length) fun off buf => TextIs buf off s := by
  cases s with
  | none => exact ⟨0, fb, rfl, Nat.le_refl _, Nat.le_add_right _ _, ⟨h, Nat.zero_le _⟩,
      fun buf hbuf => ⟨hbuf, rfl⟩⟩
  | some s =>
      have hcost : textCost (some s) = s.length + 9 := rfl
      rw [hcost] at hlt ⊢
      have hneed : fb.bytes.length + (2 * 4 + (s.length + 1)) < 2 ^ 30 := by omega
      obtain ⟨⟨off, fb'⟩, hrun⟩ := nrFlatbuffersPrependString_returns hmalloc hneed
      obtain ⟨hoff, pad, hpad, hextends⟩ := nrFlatbuffersPrependString_spec hmalloc hrun
      refine reaches_piece (p := .text s) h hrun hextends
        hextends.at_front.left hoff ?_ hlt
      rw [hextends.length]
      simp only [List.length_append, length_uintLE, List.length_singleton]
      omega

omit hmalloc in
theorem reaches_part {α : Type} {m : Writing ℕ} {made : ℕ → Bytes → Prop} {cost top : ℕ}
    (hm : fb.bytes.length + cost < 2 ^ 30 → writing.Reaches (fb.bytes.length + cost) fb m
      (fun off fb' => Ready fb' ∧ off ≤ fb'.bytes.length) made)
    (htop : fb.bytes.length + cost ≤ top) (hlt : top < 2 ^ 30) {k : ℕ → Writing α}
    {post : α → Flatbuffer → Prop} {leaves : α → Bytes → Prop}
    (hk : ∀ off fb', Ready fb' → off ≤ fb'.bytes.length → fb.bytes.length ≤ fb'.bytes.length →
      fb'.bytes.length ≤ fb.bytes.length + cost →
      writing.Reaches top fb' (k off) post fun a buf => made off buf → leaves a buf) :
    writing.Reaches top fb (m >>= k) post leaves :=
  (hm (htop.trans_lt hlt)).bind fun off fb' ⟨hready, hoff⟩ hle hle' => hk off fb' hready hoff hle hle'

theorem reaches_prependString_bind {α : Type} (h : Ready fb) (s : Option Bytes) {top : ℕ}
    (htop : fb.bytes.length + textCost s ≤ top) (hlt : top < 2 ^ 30) {k : ℕ → Writing α}
    {post : α → Flatbuffer → Prop} {leaves : α → Bytes → Prop}
    (hk : ∀ off fb', Ready fb' → off ≤ fb'.bytes.length → fb.bytes.length ≤ fb'.bytes.length →
      fb'.bytes.length ≤ fb.bytes.length + textCost s →
      writing.Reaches top fb' (k off) post fun a buf => TextIs buf off s → leaves a buf) :
    writing.Reaches top fb (prependString malloc s >>= k) post leaves :=
  reaches_part (reaches_prependString hmalloc h s) htop hlt hk

theorem reaches_vectorOf (h : Ready fb) {offsets : List ℕ}
    (hoffsets : ∀ x ∈ offsets, x ≤ fb.bytes.length)
    (hlt : fb.bytes.length + (8 * offsets.length + 16) < 2 ^ 30) :
    writing.Reaches (fb.bytes.length + (8 * offsets.length + 16)) fb (vectorOf malloc offsets)
      (fun off fb' => Ready fb' ∧ off ≤ fb'.bytes.length)
      fun off buf => (Piece.vector offsets).Holds buf off := by
  obtain ⟨⟨off, fb'⟩, hrun⟩ := prependOffsets_returns hmalloc h.aligned hoffsets (by omega)
  obtain ⟨hoff, front, hextends⟩ := prependOffsets_extends hmalloc hrun
  have hgrew := (Grew.prependOffsets hmalloc hrun).length
  exact reaches_piece h hrun hextends (prependOffsets_spec hmalloc h.aligned hrun) hoff
    (by omega) hlt

omit hmalloc in
theorem reaches_objectBegin (h : Ready fb) {numFields : ℕ} :
    writing.Reaches fb.bytes.length fb (objectBegin numFields)
      (fun _ fb' => Writes fb.bytes.length numFields [] fb' ∧ fb'.bytes = fb.bytes)
      fun _ _ => True := by
  have hbegin : nrFlatbuffersObjectBegin fb numFields = (true, { fb with
      insideObject := true
      objectEnd := nrFlatbuffersLen fb
      minAlign := 1
      vtable := List.replicate numFields 0 }) := by
    unfold nrFlatbuffersObjectBegin
    rw [h.outside]
    rfl
  refine ⟨(), (nrFlatbuffersObjectBegin fb numFields).2, rfl, ?_, ?_, ⟨?_, ?_⟩, fun buf hbuf => ?_⟩
  · rw [hbegin]
    exact Nat.le_refl _
  · rw [hbegin]
    exact Nat.le_refl _
  · rw [hbegin]
    refine ⟨rfl, ⟨h.aligned.front, h.aligned.capacity, Nat.one_pos⟩, h.vtables,
      slots_replicate fb.bytes numFields, List.length_replicate, ?_, Nat.le_refl _, ?_⟩
    · intro slot hslot hne
      exact absurd (List.eq_of_mem_replicate hslot) hne
    · show 1 ≤ 8
      decide
  · rw [hbegin]
  · rw [hbegin] at hbuf
    exact ⟨hbuf, trivial⟩

section Fields

variable {start numFields i : ℕ} {written : List (ℕ × Option Field)}
  (h : Writes start numFields written fb) (hnew : ∀ p ∈ written, p.1 ≠ i)

omit hmalloc in
include h hnew in
theorem reaches_skip {f : Flatbuffer → Option Flatbuffer} (hrun : f fb = some fb) (cost : ℕ) :
    writing.Reaches (fb.bytes.length + cost) fb (Writing.step f)
      (fun _ fb' => Writes start numFields ((i, none) :: written) fb') fun _ _ => True := by
  refine ⟨(), fb, ?_, Nat.le_refl _, Nat.le_add_right _ _, h.skip hnew, fun buf hbuf =>
    ⟨hbuf, trivial⟩⟩
  unfold Writing.step
  rw [hrun]
  rfl

omit hmalloc in
include h in
theorem reaches_field {f : Flatbuffer → Option Flatbuffer} {prepended : Flatbuffer}
    {front : Bytes} {cost : ℕ} {field : Field} (hi : i < numFields)
    (hrun : f fb = setSlot prepended i) (hextends : Extends fb prepended front)
    (hgrew : Grew fb prepended cost)
    (hf : field.Holds prepended.bytes prepended.bytes.length) (hfront : 0 < front.length)
    (hlt : fb.bytes.length + cost < 2 ^ 30) :
    writing.Reaches (fb.bytes.length + cost) fb (Writing.step f)
      (fun _ fb' => Writes start numFields ((i, some field) :: written) fb') fun _ _ => True := by
  have hgrown := hgrew.length
  have hlength := hextends.length
  obtain ⟨fb', hslot⟩ : ∃ fb', setSlot prepended i = some fb' := by
    apply setSlot_returns hextends
    rw [h.numFields]
    exact hi
  obtain ⟨hwrites, hbytes⟩ := h.field hextends hgrew hf (by omega) (by omega) hslot
  refine ⟨(), fb', ?_, ?_, ?_, hwrites, fun buf hbuf => ⟨?_, trivial⟩⟩
  · unfold Writing.step
    rw [hrun, hslot]
    rfl
  · show fb.bytes.length ≤ fb'.bytes.length
    rw [hbytes]
    exact hextends.length_le
  · show fb'.bytes.length ≤ _
    rw [hbytes]
    exact hgrown
  · have hbuf : fb'.bytes <:+ buf := hbuf
    rw [hbytes, hextends.bytes] at hbuf
    exact (List.suffix_append front fb.bytes).trans hbuf

include h hnew

theorem reaches_objectPrependUoffset (hi : i < numFields) {x : ℕ} (hx : x ≤ fb.bytes.length)
    (hlt : fb.bytes.length + 8 < 2 ^ 30) :
    writing.Reaches (fb.bytes.length + 8) fb (objectPrependUoffset malloc i x 0)
      (fun _ fb' => Writes start numFields ((i, refField x) :: written) fb') fun _ _ => True := by
  unfold objectPrependUoffset refField
  by_cases hzero : x ≠ 0
  · rw [if_pos hzero]
    obtain ⟨prepended, hprepend, _⟩ := nrFlatbuffersPrependUoffset_returns hmalloc hx hlt
    obtain ⟨href, pad, _, hextends, _⟩ := nrFlatbuffersPrependUoffset_spec hmalloc hprepend
    have href : (Field.ref x).Holds prepended.bytes prepended.bytes.length := href
    refine reaches_field h hi ?_ hextends (Grew.prependUoffset hmalloc hprepend) href ?_ hlt
    · unfold nrFlatbuffersObjectPrependUoffset
      rw [if_pos hzero, hprepend]
      rfl
    · rw [List.length_append, length_uintLE]
      exact Nat.lt_of_lt_of_le (by decide) (Nat.le_add_right 4 _)
  · rw [if_neg hzero]
    apply reaches_skip h hnew
    unfold nrFlatbuffersObjectPrependUoffset
    rw [if_neg hzero]

theorem reaches_objectPrepend (hi : i < numFields) (ty : ScalarType) (x d : ty.Value)
    (hlt : fb.bytes.length + 2 * ty.size < 2 ^ 30) :
    writing.Reaches (fb.bytes.length + 2 * ty.size) fb (objectPrepend malloc ty i x d)
      (fun _ fb' => Writes start numFields ((i, numberField ty x d) :: written) fb')
      fun _ _ => True := by
  unfold objectPrepend numberField
  cases hdiffers : ty.differs x d with
  | true =>
      obtain ⟨prepended, hprepend, _⟩ := nrFlatbuffersPrepend_returns hmalloc ty x hlt
      obtain ⟨pad, _, hextends, _⟩ := nrFlatbuffersPrepend_spec hmalloc hprepend
      have hfield : (scalarField ty x).Holds prepended.bytes prepended.bytes.length :=
        hextends.at_front.left
      refine reaches_field h hi ?_ hextends (Grew.prepend hmalloc hprepend) hfield ?_ hlt
      · unfold nrFlatbuffersObjectPrepend
        rw [if_pos hdiffers, hprepend]
        rfl
      · rw [List.length_append, length_uintLE]
        have := ty.size_pos
        omega
  | false =>
      apply reaches_skip h hnew
      unfold nrFlatbuffersObjectPrepend
      rw [hdiffers]
      rfl

omit hnew in
theorem reaches_fieldWrite {w : FieldWrite} (hnew : ∀ p ∈ written, p.1 ≠ w.index)
    (hi : w.index < numFields) (hx : w.offset ≤ fb.bytes.length)
    (hlt : fb.bytes.length + w.cost < 2 ^ 30) :
    writing.Reaches (fb.bytes.length + w.cost) fb (w.run malloc)
      (fun _ fb' => Writes start numFields (w.entry :: written) fb') fun _ _ => True := by
  cases w with
  | uoffset i x => exact reaches_objectPrependUoffset hmalloc h hnew hi hx hlt
  | scalar i ty x => exact reaches_objectPrepend hmalloc h hnew hi ty x 0 hlt
  | bool i x =>
      show writing.Reaches _ fb (objectPrependBool malloc i x false) _ _
      rw [objectPrependBool_eq]
      exact reaches_objectPrepend hmalloc h hnew hi .u8 (if x then 1 else 0) 0 hlt

omit h hnew in
theorem reaches_fieldWrites {fields : List FieldWrite} {fb : Flatbuffer}
    (h : Writes start numFields written fb)
    (hnew : ∀ w ∈ fields, ∀ p ∈ written, p.1 ≠ w.index)
    (hnodup : (fields.map FieldWrite.index).Nodup) (hi : ∀ w ∈ fields, w.index < numFields)
    (hx : ∀ w ∈ fields, w.offset ≤ fb.bytes.length)
    (hlt : fb.bytes.length + (fields.map FieldWrite.cost).sum < 2 ^ 30) :
    writing.Reaches (fb.bytes.length + (fields.map FieldWrite.cost).sum) fb
      (fields.forM (FieldWrite.run malloc))
      (fun _ fb' => Writes start numFields ((fields.map FieldWrite.entry).reverse ++ written) fb')
      fun _ _ => True := by
  induction fields generalizing fb written with
  | nil => exact Growth.Reaches.pure (Nat.le_add_right _ _) h fun _ => trivial
  | cons w fields ih =>
      rw [List.map_cons, List.sum_cons] at hlt ⊢
      rw [List.map_cons, List.nodup_cons] at hnodup
      have hentry : w.entry.1 = w.index := by
        cases w <;> rfl
      obtain ⟨hw, hfields⟩ := List.forall_mem_cons.mp hnew
      obtain ⟨hwi, hi⟩ := List.forall_mem_cons.mp hi
      obtain ⟨hwx, hx⟩ := List.forall_mem_cons.mp hx
      show writing.Reaches _ fb (w.run malloc >>= fun _ => fields.forM (FieldWrite.run malloc)) _ _
      have hfirst := reaches_fieldWrite hmalloc h hw hwi hwx (by omega)
      refine hfirst.bind fun _ fb' hwrites hle hle' => ?_
      have hle : fb.bytes.length ≤ fb'.bytes.length := hle
      have hle' : fb'.bytes.length ≤ fb.bytes.length + w.cost := hle'
      have hnew' : ∀ v ∈ fields, ∀ p ∈ w.entry :: written, p.1 ≠ v.index := by
        intro v hv p hp
        obtain rfl | hp := List.mem_cons.mp hp
        · rw [hentry]
          exact fun heq => hnodup.1 (heq ▸ List.mem_map_of_mem hv)
        · exact hfields v hv p hp
      have hrest := ih hwrites hnew' hnodup.2 hi (fun v hv => (hx v hv).trans hle) (by omega)
      refine hrest.mono (by omega) (fun _ fb'' _ hwrites' => ?_) fun _ _ _ _ => trivial
      rw [List.map_cons, List.reverse_cons, List.append_assoc]
      exact hwrites'

omit hnew in
theorem reaches_objectEnd (hcount : numFields ≤ 32765)
    (hshort : fb.bytes.length + 8 < start + 0xFFFF)
    (hlt : fb.bytes.length + (4 * numFields + 20) < 2 ^ 30) :
    writing.Reaches (fb.bytes.length + (4 * numFields + 20)) fb (objectEnd malloc)
      (fun off fb' => Ready fb' ∧ off ≤ fb'.bytes.length ∧ fb.bytes.length + 4 ≤ off ∧
        fb'.minAlign ≤ 8 ∧ 2 * numFields + 4 ≤ fb'.bytes.length)
      fun off buf => (Piece.table (fieldsOf written)).Holds buf off := by
  have hfar : ∀ slot ∈ fb.vtable, slot ≠ 0 →
      slot ≤ fb.bytes.length ∧ fb.bytes.length + 8 - slot < 0xFFFF := by
    intro slot hslot hne
    have hstart := h.recent slot hslot hne
    exact ⟨h.slots.slot_le hslot, by omega⟩
  have hneed : fb.bytes.length + 4 * (fb.vtable.length + 5) < 2 ^ 30 := by
    rw [h.numFields]
    omega
  obtain ⟨⟨off, fb'⟩, hrun⟩ := nrFlatbuffersObjectEnd_returns hmalloc h.vtables hfar hneed
  have hgrew := Grew.objectEnd hmalloc (by omega) hrun
  have hgrown := hgrew.length
  rw [h.numFields] at hgrown
  have hcount : fb.vtable.length ≤ 32765 := h.numFields.trans_le hcount
  obtain ⟨hclosed, houtside⟩ := nrFlatbuffersObjectEnd_spec hmalloc h.aligned h.inside h.slots
    h.vtables hcount hrun (by omega)
  have htable : (Piece.table (fieldsOf written)).Holds fb'.bytes off := hclosed.table
  obtain ⟨front, hbytes⟩ := hclosed.bytes
  have hsuffix : fb.bytes <:+ fb'.bytes := hbytes ▸ List.suffix_append front fb.bytes
  refine ⟨off, fb', hrun, hsuffix.length_le, hgrown.trans (by omega),
    ⟨⟨houtside, hclosed.aligned, hclosed.vtables⟩, htable.le_length, hclosed.offset_le,
      hgrew.minAlign h.minAlign, h.numFields ▸ hclosed.vtable_le⟩,
    fun buf hbuf => ⟨hsuffix.trans hbuf, htable.suffix hbuf⟩⟩

end Fields

theorem reaches_object (h : Ready fb) (numFields : ℕ) (indexes : List ℕ) (cost : ℕ)
    {fields : List FieldWrite} (hcount : numFields ≤ 32765)
    (hindexes : fields.map FieldWrite.index = indexes) (hnodup : indexes.Nodup)
    (hi : ∀ i ∈ indexes, i < numFields) (hcost : (fields.map FieldWrite.cost).sum = cost)
    (hshort : cost + 8 < 0xFFFF) (hx : ∀ w ∈ fields, w.offset ≤ fb.bytes.length)
    (hlt : fb.bytes.length + (cost + (4 * numFields + 20)) < 2 ^ 30) :
    writing.Reaches (fb.bytes.length + (cost + (4 * numFields + 20))) fb
      (object malloc numFields fields)
      (fun off fb' => Ready fb' ∧ off ≤ fb'.bytes.length ∧ fb.bytes.length + 4 ≤ off ∧
        fb'.minAlign ≤ 8 ∧ 2 * numFields + 4 ≤ fb'.bytes.length)
      fun off buf =>
        (Piece.table (fieldsOf (fields.map FieldWrite.entry).reverse)).Holds buf off := by
  subst hindexes hcost
  have hi : ∀ w ∈ fields, w.index < numFields := fun w hw => hi _ (List.mem_map_of_mem hw)
  refine (reaches_objectBegin h).bind fun _ begun ⟨hbegun, hbytes⟩ _ _ => ?_
  have hlength : begun.bytes.length = fb.bytes.length := congrArg List.length hbytes
  rw [← hlength] at hx hlt ⊢
  have hfields := reaches_fieldWrites hmalloc hbegun (fun _ _ _ hp => nomatch hp) hnodup hi hx
    (by omega)
  refine hfields.bind fun _ filled hfilled hle hle' => ?_
  have hle' : filled.bytes.length ≤ begun.bytes.length + (fields.map FieldWrite.cost).sum := hle'
  have hle : begun.bytes.length ≤ filled.bytes.length := hle
  have hend := reaches_objectEnd hmalloc hfilled hcount (by omega) (by omega)
  rw [List.append_nil] at hend
  refine hend.mono (by omega) (fun off fb' _ ⟨hready, hoff, hstart, hrest⟩ =>
    ⟨hready, hoff, by omega, hrest⟩) fun _ _ htable _ _ => htable

section Objects

variable {α : Type} {write : α → Writing ℕ} {cost : α → ℕ} {holds : α → ℕ → Bytes → Prop}
  (hwrite : ∀ x fb, Ready fb → fb.bytes.length + cost x < 2 ^ 30 →
    writing.Reaches (fb.bytes.length + cost x) fb (write x)
      (fun off fb' => Ready fb' ∧ off ≤ fb'.bytes.length) (holds x))

omit hmalloc in
theorem reaches_noObjects (h : Ready fb) (more : ℕ) :
    writing.Reaches (fb.bytes.length + more) fb (pure 0)
      (fun off fb' => Ready fb' ∧ off ≤ fb'.bytes.length) fun off _ => off = 0 :=
  Growth.Reaches.pure (Nat.le_add_right _ _) ⟨h, Nat.zero_le _⟩ fun _ => rfl

include hwrite

omit hmalloc in
theorem reaches_objectOffsets (h : Ready fb) (objects : List α)
    (hlt : fb.bytes.length + (objects.map cost).sum < 2 ^ 30) :
    writing.Reaches (fb.bytes.length + (objects.map cost).sum) fb (objects.mapM write)
      (fun offsets fb' => (Ready fb' ∧ offsets.length = objects.length) ∧
        ∀ off ∈ offsets, off ≤ fb'.bytes.length)
      fun offsets buf => List.Forall₂ (fun x off => holds x off buf) objects offsets := by
  have hobjects := Growth.reaches_mapM (g := writing) Ready (fun off n => off ≤ n)
    (fun hle hle' => hle.trans hle') (l := objects)
    (fun x _ fb' hready hlt' => hwrite x fb' hready hlt') h hlt
  refine hobjects.knows.mono (Nat.le_refl _) (fun offsets fb' _ ⟨⟨hready, hle⟩, hholds⟩ => ?_)
    fun _ _ hall => hall
  exact ⟨⟨hready, (hholds fb'.bytes List.suffix_rfl).length_eq.symm⟩, hle⟩

omit hmalloc in
theorem reaches_optionalObject (h : Ready fb) (o : Option α)
    (hlt : fb.bytes.length + (o.map cost).getD 0 < 2 ^ 30) :
    writing.Reaches (fb.bytes.length + (o.map cost).getD 0) fb (optionalObject write o)
      (fun off fb' => Ready fb' ∧ off ≤ fb'.bytes.length) (ObjectIs holds o) := by
  cases o with
  | none => exact reaches_noObjects h _
  | some x => exact hwrite x fb h hlt

theorem reaches_objectsInOrder (h : Ready fb) (objects : List α)
    (hlt : fb.bytes.length + objectsCost cost objects < 2 ^ 30) :
    writing.Reaches (fb.bytes.length + objectsCost cost objects) fb
      (objectsInOrder malloc write objects) (fun off fb' => Ready fb' ∧ off ≤ fb'.bytes.length)
      (ObjectsAre holds objects) := by
  cases objects with
  | nil => exact reaches_noObjects h _
  | cons x xs =>
      unfold objectsCost at hlt ⊢
      have hobjects := reaches_objectOffsets hwrite h (x :: xs) (by omega)
      refine hobjects.bind fun offsets fb' ⟨⟨hready, hcount⟩, hoffsets⟩ _ hle => ?_
      have hle : fb'.bytes.length ≤ fb.bytes.length + ((x :: xs).map cost).sum := hle
      have hvector := reaches_vectorOf hmalloc hready hoffsets (by rw [hcount]; omega)
      rw [hcount] at hvector
      exact hvector.mono (by omega) (fun _ _ _ hpost => hpost)
        fun off buf hpiece hall => ⟨offsets, hall, hpiece⟩

theorem reaches_objectsReversed (h : Ready fb) (objects : List α)
    (hlt : fb.bytes.length + objectsCost cost objects < 2 ^ 30) :
    writing.Reaches (fb.bytes.length + objectsCost cost objects) fb
      (objectsReversed malloc write objects) (fun off fb' => Ready fb' ∧ off ≤ fb'.bytes.length)
      (ObjectsAre holds objects.reverse) := by
  cases objects with
  | nil => exact reaches_noObjects h _
  | cons x xs =>
      unfold objectsCost at hlt ⊢
      have hobjects := reaches_objectOffsets hwrite h (x :: xs) (by omega)
      refine hobjects.bind fun offsets fb' ⟨⟨hready, hcount⟩, hoffsets⟩ _ hle => ?_
      have hle : fb'.bytes.length ≤ fb.bytes.length + ((x :: xs).map cost).sum := hle
      have hvector := reaches_vectorOf hmalloc hready
        (fun off hoff => hoffsets off (List.mem_reverse.mp hoff))
        (by rw [List.length_reverse, hcount]; omega)
      rw [List.length_reverse, hcount] at hvector
      refine hvector.mono (by omega) (fun _ _ _ hpost => hpost) fun off buf hpiece hall => ?_
      have hreversed := List.forall₂_reverse_iff.mpr hall
      cases hobjects : (x :: xs).reverse with
      | nil => exact absurd (List.reverse_eq_nil_iff.mp hobjects) (List.cons_ne_nil x xs)
      | cons y ys =>
          rw [hobjects] at hreversed
          exact ⟨offsets.reverse, hreversed, hpiece⟩

end Objects

theorem reaches_finish (h : Ready fb) (hminAlign : fb.minAlign ≤ 8) {root : ℕ}
    (hroot : root ≤ fb.bytes.length) (hlt : fb.bytes.length + 20 < 2 ^ 30) :
    writing.Reaches (fb.bytes.length + 20) fb (finish malloc root)
      (fun _ fb' => RefAt fb'.bytes fb'.bytes.length root) fun _ _ => True := by
  have hpos := h.aligned.minAlign
  obtain ⟨prepared, hprep, _, hlt'⟩ := nrFlatbuffersPrep_returns hmalloc hpos
    (show fb.bytes.length + (2 * fb.minAlign + 4) < 2 ^ 30 by omega)
  obtain ⟨_, hextends⟩ := nrFlatbuffersPrep_extends hmalloc hprep
  obtain ⟨fb', hfb', _, hlt''⟩ := nrFlatbuffersPrependUoffset_returns hmalloc
    (hroot.trans hextends.length_le) (by omega)
  have hrun : nrFlatbuffersFinish malloc fb root = some fb' :=
    Option.bind_eq_some_iff.mpr ⟨prepared, hprep, hfb'⟩
  obtain ⟨href, front, hextends'⟩ := nrFlatbuffersFinish_spec hmalloc hrun
  refine ⟨(), fb', ?_, hextends'.length_le, ?_, href, fun buf hbuf => ⟨?_, trivial⟩⟩
  · show (nrFlatbuffersFinish malloc fb root).map _ = _
    rw [hrun]
    rfl
  · show fb'.bytes.length ≤ _
    omega
  · exact (hextends'.bytes ▸ List.suffix_append front fb.bytes).trans hbuf

end Rules

end AxiomDaemon.Util

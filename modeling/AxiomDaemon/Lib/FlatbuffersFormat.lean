import AxiomDaemon.Lib.ByteOrder
import AxiomDaemon.Lib.Text
import Mathlib.Data.List.GetD

/-!
The format of flatbuffers, as far as it is independent of who writes or reads.

A buffer is written from its end to its front. What was written stays where it
is if places are counted from the end, and everything in it refers to other
things by differences of such places. So a place is the number of bytes from
there to the end.
-/

namespace AxiomDaemon.Lib.Flatbuffers

/-! ### Places -/

/-- The buffer has these bytes at a place. -/
def At (buf : Bytes) (place : ℕ) (bytes : Bytes) : Prop :=
  place ≤ buf.length ∧ bytes <+: buf.drop (buf.length - place)

section At

variable {buf bytes a b : Bytes} {place : ℕ}

theorem At.prepend (h : At buf place bytes) (front : Bytes) : At (front ++ buf) place bytes := by
  refine ⟨?_, ?_⟩
  · rw [List.length_append]
    exact h.1.trans (Nat.le_add_left _ _)
  · have hplace : (front ++ buf).length - place = front.length + (buf.length - place) := by
      rw [List.length_append]
      have := h.1
      omega
    rw [hplace, ← List.drop_drop, List.drop_left]
    exact h.2

theorem at_front (bytes buf : Bytes) : At (bytes ++ buf) (bytes ++ buf).length bytes := by
  refine ⟨Nat.le_refl _, ?_⟩
  rw [Nat.sub_self, List.drop_zero]
  exact List.prefix_append bytes buf

theorem At.left (h : At buf place (a ++ b)) : At buf place a :=
  ⟨h.1, (List.prefix_append a b).trans h.2⟩

theorem At.length_le (h : At buf place bytes) : bytes.length ≤ place := by
  have hle := h.2.length_le
  rw [List.length_drop] at hle
  have := h.1
  omega

theorem At.right (h : At buf place (a ++ b)) : At buf (place - a.length) b := by
  have hle := h.length_le
  rw [List.length_append] at hle
  obtain ⟨rest, hrest⟩ := h.2
  have hplace := h.1
  refine ⟨by omega, rest, ?_⟩
  have hdrop : buf.length - (place - a.length) = buf.length - place + a.length := by omega
  rw [hdrop, ← List.drop_drop, ← hrest, List.append_assoc, List.drop_left]

theorem At.readUintLE {n v : ℕ} (h : At buf place (uintLE n v)) (hv : v < 2 ^ (8 * n)) :
    readUintLE n (buf.drop (buf.length - place)) = some v := by
  obtain ⟨rest, hrest⟩ := h.2
  rw [← hrest, readUintLE_append, Nat.mod_eq_of_lt hv]

end At

/-! ### What is in a buffer -/

/-- What a table has for a field: bytes, or a reference to a place. -/
inductive Field
  | inline (bytes : Bytes)
  | ref (target : ℕ)

/-- What is referred to. A text ends in a zero that its length does not count. -/
inductive Piece
  | text (content : Bytes)
  | vector (targets : List ℕ)
  | table (fields : ℕ → Option Field)

/-- A reference says how far its target is behind it. -/
def RefAt (buf : Bytes) (place target : ℕ) : Prop :=
  target + 4 ≤ place ∧ At buf place (uintLE 4 (place - target))

/-- References that follow each other. -/
def RefsAt (buf : Bytes) (place : ℕ) (targets : List ℕ) : Prop :=
  ∀ j target, targets[j]? = some target → RefAt buf (place - 4 * j) target

def Field.Holds (buf : Bytes) (place : ℕ) : Field → Prop
  | .inline bytes => At buf place bytes
  | .ref target => RefAt buf place target

/-- A vtable: its size, the size of the table that it was written for, and for each field how
far it is behind the start of the table. -/
structure VtableAt (buf : Bytes) (place : ℕ) (entries : List ℕ) : Prop where
  size : 2 * entries.length + 4 < 2 ^ 16
  lt : ∀ e ∈ entries, e < 2 ^ 16
  bytes : ∃ tableSize, At buf place
    (uintLE 2 (2 * entries.length + 4) ++ uintLE 2 tableSize ++ entries.flatMap (uintLE 2))

/-- A field of a table, by its entry in the vtable. -/
def EntryFor (buf : Bytes) (place entry : ℕ) : Option Field → Prop
  | none => entry = 0
  | some field => ∃ fieldPlace, fieldPlace < place ∧ entry = place - fieldPlace ∧
      field.Holds buf fieldPlace

/-- A table refers to its vtable by a signed difference. -/
def TableAt (buf : Bytes) (place : ℕ) (fields : ℕ → Option Field) : Prop :=
  ∃ vtable entries, At buf place (uintLE 4 (wordDiff vtable place)) ∧
    VtableAt buf vtable entries ∧ ∀ i, EntryFor buf place (entries.getD i 0) (fields i)

def Piece.Holds (buf : Bytes) (place : ℕ) : Piece → Prop
  | .text content => At buf place (uintLE 4 content.length ++ (content ++ [0]))
  | .vector targets =>
      At buf place (uintLE 4 targets.length) ∧ RefsAt buf (place - 4) targets
  | .table fields => TableAt buf place fields

/-! ### Writing in front of a buffer -/

section Prepend

variable {buf : Bytes} {place entry : ℕ}

theorem RefAt.prepend {target : ℕ} (h : RefAt buf place target) (front : Bytes) :
    RefAt (front ++ buf) place target := ⟨h.1, h.2.prepend front⟩

theorem RefsAt.prepend {targets : List ℕ} (h : RefsAt buf place targets) (front : Bytes) :
    RefsAt (front ++ buf) place targets := fun j target hj => (h j target hj).prepend front

theorem refsAt_nil : RefsAt buf place [] := by
  intro j target hj
  rw [List.getElem?_nil] at hj
  cases hj

theorem RefsAt.cons {target : ℕ} {targets : List ℕ} (hhead : RefAt buf place target)
    (htail : RefsAt buf (place - 4) targets) : RefsAt buf place (target :: targets) := by
  intro j other hj
  cases j with
  | zero =>
      rw [List.getElem?_cons_zero] at hj
      obtain rfl := Option.some.inj hj
      exact hhead
  | succ j =>
      rw [List.getElem?_cons_succ] at hj
      have hplace : place - 4 * (j + 1) = place - 4 - 4 * j := by omega
      rw [hplace]
      exact htail j other hj

theorem RefsAt.length_le {targets : List ℕ} (h : RefsAt buf place targets) :
    4 * targets.length ≤ place := by
  cases htargets : targets with
  | nil => exact Nat.zero_le place
  | cons target rest =>
      have hlast := h rest.length
      rw [htargets, List.getElem?_eq_getElem (by simp)] at hlast
      have hle := (hlast _ rfl).1
      rw [List.length_cons]
      omega

theorem Field.Holds.prepend {field : Field} (h : field.Holds buf place) (front : Bytes) :
    field.Holds (front ++ buf) place := by
  cases field with
  | inline bytes => exact At.prepend h front
  | ref target => exact RefAt.prepend h front

theorem VtableAt.prepend {entries : List ℕ} (h : VtableAt buf place entries) (front : Bytes) :
    VtableAt (front ++ buf) place entries := by
  obtain ⟨tableSize, hbytes⟩ := h.bytes
  exact ⟨h.size, h.lt, tableSize, hbytes.prepend front⟩

theorem EntryFor.prepend {field : Option Field} (h : EntryFor buf place entry field)
    (front : Bytes) : EntryFor (front ++ buf) place entry field := by
  cases field with
  | none => exact h
  | some field =>
      obtain ⟨fieldPlace, hlt, hentry, hholds⟩ := h
      exact ⟨fieldPlace, hlt, hentry, hholds.prepend front⟩

theorem Piece.Holds.prepend {piece : Piece} (h : piece.Holds buf place) (front : Bytes) :
    piece.Holds (front ++ buf) place := by
  cases piece with
  | text content => exact At.prepend h front
  | vector targets =>
      exact ⟨h.1.prepend front, h.2.prepend front⟩
  | table fields =>
      obtain ⟨vtable, entries, hoffset, hvtable, hentries⟩ := h
      exact ⟨vtable, entries, hoffset.prepend front, hvtable.prepend front,
        fun i => (hentries i).prepend front⟩

theorem Piece.Holds.le_length {p : Piece} (h : p.Holds buf place) : place ≤ buf.length := by
  cases p with
  | text content => exact And.left (show At _ _ _ from h)
  | vector targets => exact h.1.1
  | table fields =>
      obtain ⟨_, _, hoffset, _⟩ := h
      exact hoffset.1

theorem Piece.Holds.suffix {p : Piece} {later : Bytes} (h : p.Holds buf place)
    (hsuffix : buf <:+ later) : p.Holds later place := by
  obtain ⟨front, rfl⟩ := hsuffix
  exact h.prepend front

end Prepend

/-! ### Reading a vtable -/

theorem length_flatMap_uintLE (n : ℕ) (entries : List ℕ) :
    (entries.flatMap (uintLE n)).length = n * entries.length := by
  induction entries with
  | nil => rfl
  | cons e entries ih =>
      rw [List.flatMap_cons, List.length_append, length_uintLE, ih, List.length_cons]
      ring

theorem flatMap_uintLE_split {n i : ℕ} {entries : List ℕ} (hi : i < entries.length) :
    ∃ rest, entries.flatMap (uintLE n) =
      (entries.take i).flatMap (uintLE n) ++ (uintLE n (entries.getD i 0) ++ rest) := by
  refine ⟨(entries.drop (i + 1)).flatMap (uintLE n), ?_⟩
  have hsplit : entries = entries.take i ++ (entries.getD i 0 :: entries.drop (i + 1)) := by
    rw [List.getD_eq_getElem _ _ hi, ← List.drop_eq_getElem_cons hi, List.take_append_drop]
  conv_lhs => rw [hsplit]
  rw [List.flatMap_append, List.flatMap_cons]

namespace VtableAt

variable {buf : Bytes} {place : ℕ} {entries : List ℕ} (h : VtableAt buf place entries)

include h

theorem le_length : place ≤ buf.length := by
  obtain ⟨_, hbytes⟩ := h.bytes
  exact hbytes.1

theorem length_le : 2 * entries.length + 4 ≤ place := by
  obtain ⟨_, hbytes⟩ := h.bytes
  have hle := hbytes.length_le
  simp only [List.length_append, length_uintLE, length_flatMap_uintLE] at hle
  omega

theorem read_size :
    readUintLE 2 (buf.drop (buf.length - place)) = some (2 * entries.length + 4) := by
  obtain ⟨_, hbytes⟩ := h.bytes
  exact hbytes.left.left.readUintLE h.size

theorem read_entry {i : ℕ} (hi : i < entries.length) :
    readUintLE 2 (buf.drop (buf.length - place + 2 * (2 + i))) = some (entries.getD i 0) := by
  obtain ⟨tableSize, hbytes⟩ := h.bytes
  obtain ⟨rest, hrest⟩ := flatMap_uintLE_split (n := 2) hi
  have hentries := hbytes.right
  rw [hrest] at hentries
  have hentry := hentries.right.left
  have hlt : entries.getD i 0 < 2 ^ (8 * 2) := by
    rw [List.getD_eq_getElem _ _ hi]
    exact h.lt _ (List.getElem_mem hi)
  have hread := hentry.readUintLE hlt
  have hlength := h.length_le
  have hplace := h.le_length
  simp only [List.length_append, length_uintLE, length_flatMap_uintLE, List.length_take] at hread
  have hdrop : buf.length - (place - (2 + 2) - 2 * min i entries.length) =
      buf.length - place + 2 * (2 + i) := by omega
  rw [hdrop] at hread
  exact hread

end VtableAt

end AxiomDaemon.Lib.Flatbuffers

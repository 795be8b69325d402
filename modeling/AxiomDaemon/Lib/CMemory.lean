import AxiomDaemon.Lib.Block
import AxiomDaemon.Lib.CText
import Mathlib.Algebra.Ring.Int.Defs

/-!
The functions of C that move bytes within a block and into it, with the faults
they can have, and the arithmetic of `int`. A copy faults where it reads
outside of its source or writes outside of the block; what a sum comes to
outside of the range of `int` is a fault as well, while a conversion to `int`
keeps the lowest 32 bits.
-/

namespace AxiomDaemon.Lib.CMemory

open CText

/-- What arithmetic on `int` comes to. -/
def int (x : ℤ) : Checked ℤ := if -2 ^ 31 ≤ x ∧ x < 2 ^ 31 then .ok x else .error .range

/-- A `size_t` that is stored as an `int`. -/
def sizeToInt (n : ℕ) : ℤ := Int.bmod n (2 ^ 32)

/-- An `int` that is stored as a `size_t`. -/
def intToSize (x : ℤ) : ℕ := (x % 2 ^ 64).toNat

theorem int_of_range {x : ℤ} (hlo : -2 ^ 31 ≤ x) (hhi : x < 2 ^ 31) : int x = .ok x :=
  if_pos ⟨hlo, hhi⟩

theorem int_of_le {x : ℤ} (hx : 2 ^ 31 ≤ x) : int x = .error .range :=
  if_neg fun h => not_lt_of_ge hx h.2

theorem sizeToInt_of_lt {n : ℕ} (hn : n < 2 ^ 31) : sizeToInt n = n :=
  Int.bmod_eq_of_le (by omega) (by omega)

theorem intToSize_of_lt {n : ℕ} (hn : n < 2 ^ 64) : intToSize n = n := by
  rw [intToSize, Int.emod_eq_of_lt (by omega) (by omega)]
  rfl

/-- The length of a text as an `int`, which is what `nr_strlen` says of it. -/
def nrStrlen (text : Bytes) : ℤ := sizeToInt text.length

/-- `nr_strlen` through a pointer. -/
def nrStrlenAt (str : Bytes) : Checked ℤ := (fun n => sizeToInt n) <$> strlen str

theorem nrStrlen_of_lt {text : Bytes} (hlen : text.length < 2 ^ 31) :
    nrStrlen text = text.length :=
  sizeToInt_of_lt hlen

theorem nrStrlenAt_terminated {text : Bytes} (hzero : 0 ∉ text) :
    nrStrlenAt (terminated text) = .ok (nrStrlen text) := by
  rw [nrStrlenAt, strlen_terminated hzero, map_ok, nrStrlen]

/-- `memmove (b + dst, b + src, n)`. -/
def memmove (b : Bytes) (dst src n : ℕ) : Checked Bytes :=
  if b.length < src + n then .error .read
  else if b.length < dst + n then .error .write
  else .ok (blockMove b dst src n)

/-- `memcpy (b + dst, source, n)`. -/
def memcpy (b : Bytes) (dst : ℕ) (source : Bytes) (n : ℕ) : Checked Bytes :=
  if source.length < n then .error .read
  else if b.length < dst + n then .error .write
  else .ok (blockCopy b dst (source.take n))

/-- `memcpy (dest, b + src, n)`, where `dest` has room for so many bytes: what
is in `dest` then. -/
def memcpyOut (room : ℕ) (b : Bytes) (src n : ℕ) : Checked Bytes :=
  if b.length < src + n then .error .read
  else if room < n then .error .write
  else .ok ((b.drop src).take n)

theorem memmove_of_le {b : Bytes} {dst src n : ℕ} (hsrc : src + n ≤ b.length)
    (hdst : dst + n ≤ b.length) : memmove b dst src n = .ok (blockMove b dst src n) := by
  rw [memmove, if_neg (Nat.not_lt.mpr hsrc), if_neg (Nat.not_lt.mpr hdst)]

theorem memcpy_of_le {b source : Bytes} {dst n : ℕ} (hsource : n ≤ source.length)
    (hdst : dst + n ≤ b.length) : memcpy b dst source n = .ok (blockCopy b dst (source.take n)) := by
  rw [memcpy, if_neg (Nat.not_lt.mpr hsource), if_neg (Nat.not_lt.mpr hdst)]

theorem memcpyOut_of_le {room : ℕ} {b : Bytes} {src n : ℕ} (hsrc : src + n ≤ b.length)
    (hroom : n ≤ room) : memcpyOut room b src n = .ok ((b.drop src).take n) := by
  rw [memcpyOut, if_neg (Nat.not_lt.mpr hsrc), if_neg (Nat.not_lt.mpr hroom)]

end AxiomDaemon.Lib.CMemory

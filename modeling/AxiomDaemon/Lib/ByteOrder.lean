import Mathlib.Data.Int.Notation
import Mathlib.Data.List.Basic
import Mathlib.Tactic.Ring

/-!
Little-endian words, and reading from a finite byte stream.
-/

namespace AxiomDaemon.Lib

/-- The four little-endian bytes of `v mod 2^32`. -/
def uint32LE (v : ℕ) : List UInt8 :=
  [UInt8.ofNat v, UInt8.ofNat (v / 2 ^ 8), UInt8.ofNat (v / 2 ^ 16), UInt8.ofNat (v / 2 ^ 24)]

/-- The word in the first four bytes; missing bytes count as 0. -/
def readUint32LE (p : List UInt8) : ℕ :=
  (p.getD 0 0).toNat + 2 ^ 8 * (p.getD 1 0).toNat + 2 ^ 16 * (p.getD 2 0).toNat +
    2 ^ 24 * (p.getD 3 0).toNat

@[simp] theorem length_uint32LE (v : ℕ) : (uint32LE v).length = 4 := rfl

theorem readUint32LE_append (v : ℕ) (rest : List UInt8) :
    readUint32LE (uint32LE v ++ rest) = v % 2 ^ 32 := by
  simp only [readUint32LE, uint32LE, List.cons_append, List.nil_append, List.getD_cons_zero,
    List.getD_cons_succ, UInt8.toNat_ofNat']
  omega

/-! ### Words of any width -/

/-- The `n` little-endian bytes of `v mod 2^(8 n)`. -/
def uintLE : ℕ → ℕ → List UInt8
  | 0, _ => []
  | n + 1, v => UInt8.ofNat v :: uintLE n (v / 2 ^ 8)

/-- The number that the bytes are, the lowest ones first. -/
def valueLE : List UInt8 → ℕ
  | [] => 0
  | b :: p => b.toNat + 2 ^ 8 * valueLE p

@[simp] theorem length_uintLE (n v : ℕ) : (uintLE n v).length = n := by
  induction n generalizing v with
  | zero => rfl
  | succ n ih => rw [uintLE, List.length_cons, ih]

theorem valueLE_uintLE (n v : ℕ) : valueLE (uintLE n v) = v % 2 ^ (8 * n) := by
  induction n generalizing v with
  | zero => rw [uintLE, valueLE, Nat.mul_zero, Nat.pow_zero, Nat.mod_one]
  | succ n ih =>
      have hpow : 2 ^ (8 * (n + 1)) = 2 ^ 8 * 2 ^ (8 * n) := by ring
      rw [uintLE, valueLE, ih, UInt8.toNat_ofNat', hpow, Nat.mod_mul]

theorem valueLE_lt (p : List UInt8) : valueLE p < 2 ^ (8 * p.length) := by
  induction p with
  | nil => exact Nat.one_pos
  | cons b p ih =>
      have hpow : 2 ^ (8 * (b :: p).length) = 2 ^ 8 * 2 ^ (8 * p.length) := by
        rw [List.length_cons]
        ring
      have hb : b.toNat < 2 ^ 8 := b.toNat_lt
      rw [valueLE, hpow]
      calc b.toNat + 2 ^ 8 * valueLE p
          < 2 ^ 8 * (valueLE p + 1) := by omega
        _ ≤ 2 ^ 8 * 2 ^ (8 * p.length) := Nat.mul_le_mul_left _ ih

/-- The word of `n` bytes that a buffer starts with. -/
def readUintLE (n : ℕ) (p : List UInt8) : Option ℕ :=
  if n ≤ p.length then some (valueLE (p.take n)) else none

theorem readUintLE_append (n v : ℕ) (rest : List UInt8) :
    readUintLE n (uintLE n v ++ rest) = some (v % 2 ^ (8 * n)) := by
  have hlength : n ≤ (uintLE n v ++ rest).length := by
    rw [List.length_append, length_uintLE]
    omega
  have htake : (uintLE n v ++ rest).take n = uintLE n v := List.take_left' (length_uintLE n v)
  rw [readUintLE, if_pos hlength, htake, valueLE_uintLE]

/-- The difference of two words of 32 bits. -/
def wordDiff (a b : ℕ) : ℕ := (((a : ℤ) - b) % 2 ^ 32).toNat

theorem wordDiff_lt (a b : ℕ) : wordDiff a b < 2 ^ 32 := by
  unfold wordDiff
  omega

/-! ### Streams -/

/-- How a read of exactly `n` bytes fails: nothing was left, or too little. -/
inductive ShortRead
  | empty
  | unexpectedEnd
  deriving DecidableEq

/-- Read exactly `n` bytes; the rest of the stream comes second. -/
def readFull (n : ℕ) (stream : List UInt8) : Except ShortRead (List UInt8 × List UInt8) :=
  if n ≤ stream.length then .ok (stream.take n, stream.drop n)
  else if stream = [] then .error .empty
  else .error .unexpectedEnd

theorem readFull_append {n : ℕ} {p : List UInt8} (h : p.length = n) (rest : List UInt8) :
    readFull n (p ++ rest) = .ok (p, rest) := by
  subst h
  simp [readFull]

theorem readFull_ok {n : ℕ} {stream p rest : List UInt8}
    (h : readFull n stream = .ok (p, rest)) : stream = p ++ rest ∧ p.length = n := by
  unfold readFull at h
  split at h
  · next hn =>
      injection h with h
      obtain ⟨rfl, rfl⟩ := Prod.mk.inj h
      exact ⟨(List.take_append_drop n stream).symm, by simpa using hn⟩
  · split at h <;> cases h

theorem readFull_short {n : ℕ} {stream : List UInt8} (h : stream.length < n) :
    ∃ e, readFull n stream = .error e := by
  unfold readFull
  rw [if_neg (Nat.not_le.mpr h)]
  split
  · exact ⟨_, rfl⟩
  · exact ⟨_, rfl⟩

/-- A prefix of two pieces ends in the first one or in the second one. -/
theorem prefix_ends_in_either {p l m : List UInt8} (h : p <+: l ++ m) :
    p <+: l ∨ ∃ q, p = l ++ q ∧ q <+: m := by
  rcases List.prefix_or_prefix_of_prefix h (List.prefix_append l m) with hp | ⟨q, rfl⟩
  · exact .inl hp
  · exact .inr ⟨q, rfl, (List.prefix_append_right_inj l).mp h⟩

end AxiomDaemon.Lib

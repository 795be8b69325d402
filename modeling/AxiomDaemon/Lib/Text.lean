import Mathlib.Data.List.TakeWhile
import Mathlib.Data.Nat.Digits.Defs
import Mathlib.Data.Nat.Notation

/-!
Texts as sequences of bytes, and how their characters are found in them.

What a text says is a sequence of UTF-16 code units, which is how a JSON
string counts its characters. Bytes give code units by way of UTF-8; an
escape gives a code unit directly. A text in which both occur is a list of
items.
-/

namespace AxiomDaemon.Lib

/-- The bytes of a C string, without the terminator. -/
abbrev Bytes := List UInt8

instance instLawfulBEqBytes : LawfulBEq Bytes := List.instLawfulBEq

/-- The bytes of a literal of the source; only used for ASCII. -/
def ascii (s : String) : Bytes := s.toList.map Char.toUInt8

theorem takeWhile_ne_zero {s : Bytes} (h : 0 ∉ s) : s.takeWhile (· ≠ 0) = s := by
  rw [List.takeWhile_eq_self_iff]
  intro b hb
  simpa using ne_of_mem_of_not_mem hb h

/-! ### UTF-8 -/

/-- A byte that stands for itself, or a code unit written as an escape. -/
inductive Item
  | lit (b : UInt8)
  | unit (u : ℕ)
  deriving DecidableEq

/-- `10xxxxxx`. -/
def isContinuation (b : UInt8) : Bool := 0x80 ≤ b.toNat && b.toNat < 0xc0

/-- The code point of a two byte sequence, if the bytes are one. -/
def codePoint2 (b₀ b₁ : UInt8) : Option ℕ :=
  let c := b₀.toNat % 0x20 * 0x40 + b₁.toNat % 0x40
  if 0xc0 ≤ b₀.toNat ∧ b₀.toNat < 0xe0 ∧ isContinuation b₁ ∧ 0x80 ≤ c then some c else none

/-- The code point of a three byte sequence: not one that fits in two bytes
and not half of a surrogate pair. -/
def codePoint3 (b₀ b₁ b₂ : UInt8) : Option ℕ :=
  let c := (b₀.toNat % 0x10 * 0x40 + b₁.toNat % 0x40) * 0x40 + b₂.toNat % 0x40
  if 0xe0 ≤ b₀.toNat ∧ b₀.toNat < 0xf0 ∧ isContinuation b₁ ∧ isContinuation b₂ ∧
      0x800 ≤ c ∧ ¬(0xd800 ≤ c ∧ c < 0xe000) then some c
  else none

/-- The code point of a four byte sequence, up to the last one of Unicode. -/
def codePoint4 (b₀ b₁ b₂ b₃ : UInt8) : Option ℕ :=
  let c := ((b₀.toNat % 8 * 0x40 + b₁.toNat % 0x40) * 0x40 + b₂.toNat % 0x40) * 0x40 +
    b₃.toNat % 0x40
  if 0xf0 ≤ b₀.toNat ∧ b₀.toNat < 0xf8 ∧ isContinuation b₁ ∧ isContinuation b₂ ∧
      isContinuation b₃ ∧ 0x10000 ≤ c ∧ c < 0x110000 then some c
  else none

/-- The surrogate pair of a code point beyond the basic multilingual plane. -/
def surrogates (c : ℕ) : List ℕ :=
  [0xd800 + (c - 0x10000) / 0x400 % 0x400, 0xdc00 + (c - 0x10000) % 0x400]

/-- The code units of a list of items; none if the bytes are not UTF-8. -/
def unitsOf : List Item → Option (List ℕ)
  | [] => some []
  | .unit u :: items => (unitsOf items).map (u :: ·)
  | .lit b₀ :: items =>
      if b₀.toNat < 0x80 then (unitsOf items).map (b₀.toNat :: ·)
      else
        match items with
        | .lit b₁ :: items =>
            match codePoint2 b₀ b₁ with
            | some c => (unitsOf items).map (c :: ·)
            | none =>
                match items with
                | .lit b₂ :: items =>
                    match codePoint3 b₀ b₁ b₂ with
                    | some c => (unitsOf items).map (c :: ·)
                    | none =>
                        match items with
                        | .lit b₃ :: items =>
                            match codePoint4 b₀ b₁ b₂ b₃ with
                            | some c => (unitsOf items).map (surrogates c ++ ·)
                            | none => none
                        | _ => none
                | _ => none
        | _ => none

/-- The text a string of bytes stands for, in code units. -/
def utf16 (bs : Bytes) : Option (List ℕ) := unitsOf (bs.map .lit)

theorem utf16_nil : utf16 [] = some [] := rfl

theorem utf16_of_ascii {bs : Bytes} (h : ∀ b ∈ bs, b.toNat < 0x80) :
    utf16 bs = some (bs.map UInt8.toNat) := by
  induction bs with
  | nil => rfl
  | cons b bs ih =>
      have hrec := ih fun c hc => h c (by simp [hc])
      have hb : b.toNat < 0x80 := h b (by simp)
      rw [utf16] at hrec ⊢
      rw [List.map_cons, unitsOf.eq_def]
      simp [hb, hrec]

/-- The first character of a text: one, two, three or four bytes. -/
theorem utf16_cons_eq_some {b : UInt8} {bs : Bytes} {units : List ℕ}
    (h : utf16 (b :: bs) = some units) :
    (b.toNat < 0x80 ∧ ∃ vs, utf16 bs = some vs ∧ units = b.toNat :: vs) ∨
    (∃ b₁ cs c vs, bs = b₁ :: cs ∧ codePoint2 b b₁ = some c ∧ utf16 cs = some vs ∧
      units = c :: vs) ∨
    (∃ b₁ b₂ cs c vs, bs = b₁ :: b₂ :: cs ∧ codePoint3 b b₁ b₂ = some c ∧
      utf16 cs = some vs ∧ units = c :: vs) ∨
    ∃ b₁ b₂ b₃ cs c vs, bs = b₁ :: b₂ :: b₃ :: cs ∧ codePoint4 b b₁ b₂ b₃ = some c ∧
      utf16 cs = some vs ∧ units = surrogates c ++ vs := by
  rw [utf16, List.map_cons, unitsOf.eq_def] at h
  simp only at h
  split at h
  · next hascii =>
      obtain ⟨vs, hvs, rfl⟩ := Option.map_eq_some_iff.mp h
      exact Or.inl ⟨hascii, vs, hvs, rfl⟩
  right
  obtain _ | ⟨b₁, bs⟩ := bs
  · simp at h
  simp only [List.map_cons] at h
  cases h₂ : codePoint2 b b₁ with
  | some c =>
      simp only [h₂] at h
      obtain ⟨vs, hvs, rfl⟩ := Option.map_eq_some_iff.mp h
      exact Or.inl ⟨b₁, bs, c, vs, rfl, h₂, hvs, rfl⟩
  | none =>
      right
      simp only [h₂] at h
      obtain _ | ⟨b₂, bs⟩ := bs
      · simp at h
      simp only [List.map_cons] at h
      cases h₃ : codePoint3 b b₁ b₂ with
      | some c =>
          simp only [h₃] at h
          obtain ⟨vs, hvs, rfl⟩ := Option.map_eq_some_iff.mp h
          exact Or.inl ⟨b₁, b₂, bs, c, vs, rfl, h₃, hvs, rfl⟩
      | none =>
          right
          simp only [h₃] at h
          obtain _ | ⟨b₃, bs⟩ := bs
          · simp at h
          simp only [List.map_cons] at h
          cases h₄ : codePoint4 b b₁ b₂ b₃ with
          | some c =>
              simp only [h₄] at h
              obtain ⟨vs, hvs, rfl⟩ := Option.map_eq_some_iff.mp h
              exact ⟨b₁, b₂, b₃, bs, c, vs, rfl, h₄, hvs, rfl⟩
          | none => simp [h₄] at h

theorem codePoint2_eq_some {b₀ b₁ : UInt8} {c : ℕ} (h : codePoint2 b₀ b₁ = some c) :
    (0xc0 ≤ b₀.toNat ∧ b₀.toNat < 0xe0 ∧ isContinuation b₁ ∧ 0x80 ≤ c) ∧
      c = b₀.toNat % 0x20 * 0x40 + b₁.toNat % 0x40 := by
  simp only [codePoint2] at h
  split at h
  · next hcond =>
      obtain rfl := Option.some.inj h
      exact ⟨hcond, rfl⟩
  · simp at h

theorem codePoint3_eq_some {b₀ b₁ b₂ : UInt8} {c : ℕ} (h : codePoint3 b₀ b₁ b₂ = some c) :
    (0xe0 ≤ b₀.toNat ∧ b₀.toNat < 0xf0 ∧ isContinuation b₁ ∧ isContinuation b₂ ∧ 0x800 ≤ c ∧
      ¬(0xd800 ≤ c ∧ c < 0xe000)) ∧
      c = (b₀.toNat % 0x10 * 0x40 + b₁.toNat % 0x40) * 0x40 + b₂.toNat % 0x40 := by
  simp only [codePoint3] at h
  split at h
  · next hcond =>
      obtain rfl := Option.some.inj h
      exact ⟨hcond, rfl⟩
  · simp at h

theorem codePoint4_eq_some {b₀ b₁ b₂ b₃ : UInt8} {c : ℕ}
    (h : codePoint4 b₀ b₁ b₂ b₃ = some c) :
    (0xf0 ≤ b₀.toNat ∧ b₀.toNat < 0xf8 ∧ isContinuation b₁ ∧ isContinuation b₂ ∧
      isContinuation b₃ ∧ 0x10000 ≤ c ∧ c < 0x110000) ∧
      c = ((b₀.toNat % 8 * 0x40 + b₁.toNat % 0x40) * 0x40 + b₂.toNat % 0x40) * 0x40 +
        b₃.toNat % 0x40 := by
  simp only [codePoint4] at h
  split at h
  · next hcond =>
      obtain rfl := Option.some.inj h
      exact ⟨hcond, rfl⟩
  · simp at h

/-! ### The first character of a list of items -/

theorem unitsOf_ascii {b : UInt8} (h : b.toNat < 0x80) (items : List Item) :
    unitsOf (.lit b :: items) = (unitsOf items).map (b.toNat :: ·) := by
  rw [unitsOf.eq_def]
  simp only [if_pos h]

theorem unitsOf_two {b₀ b₁ : UInt8} {c : ℕ} (h : codePoint2 b₀ b₁ = some c) (items : List Item) :
    unitsOf (.lit b₀ :: .lit b₁ :: items) = (unitsOf items).map (c :: ·) := by
  obtain ⟨⟨hlo, -⟩, -⟩ := codePoint2_eq_some h
  rw [unitsOf.eq_def]
  simp only [if_neg (show ¬b₀.toNat < 0x80 by omega), h]

theorem unitsOf_three {b₀ b₁ b₂ : UInt8} {c : ℕ} (h : codePoint3 b₀ b₁ b₂ = some c)
    (items : List Item) :
    unitsOf (.lit b₀ :: .lit b₁ :: .lit b₂ :: items) = (unitsOf items).map (c :: ·) := by
  obtain ⟨⟨hlo, -⟩, -⟩ := codePoint3_eq_some h
  have hnone : codePoint2 b₀ b₁ = none := by
    simp only [codePoint2]
    rw [if_neg (by omega)]
  rw [unitsOf.eq_def]
  simp only [if_neg (show ¬b₀.toNat < 0x80 by omega), hnone, h]

theorem unitsOf_four {b₀ b₁ b₂ b₃ : UInt8} {c : ℕ} (h : codePoint4 b₀ b₁ b₂ b₃ = some c)
    (items : List Item) :
    unitsOf (.lit b₀ :: .lit b₁ :: .lit b₂ :: .lit b₃ :: items) =
      (unitsOf items).map (surrogates c ++ ·) := by
  obtain ⟨⟨hlo, -⟩, -⟩ := codePoint4_eq_some h
  have hnone : codePoint2 b₀ b₁ = none := by
    simp only [codePoint2]
    rw [if_neg (by omega)]
  have hnone' : codePoint3 b₀ b₁ b₂ = none := by
    simp only [codePoint3]
    rw [if_neg (by omega)]
  rw [unitsOf.eq_def]
  simp only [if_neg (show ¬b₀.toNat < 0x80 by omega), hnone, hnone', h]

theorem utf16_cons_ascii {b : UInt8} (h : b.toNat < 0x80) (bs : Bytes) :
    utf16 (b :: bs) = (utf16 bs).map (b.toNat :: ·) :=
  unitsOf_ascii h _

/-! ### Numbers -/

/-- `0` to `9`. -/
def isDigit (b : UInt8) : Bool := 0x30 ≤ b.toNat && b.toNat ≤ 0x39

/-- A number in decimal, as `printf` writes an unsigned integer. -/
def decimal (n : ℕ) : Bytes :=
  if n = 0 then [0x30] else (Nat.digits 10 n).reverse.map fun d => UInt8.ofNat (0x30 + d)

theorem decimal_ne_nil (n : ℕ) : decimal n ≠ [] := by
  rw [decimal]
  split
  · exact List.cons_ne_nil _ _
  · next hn => simpa [Nat.digits_ne_nil_iff_ne_zero] using hn

end AxiomDaemon.Lib

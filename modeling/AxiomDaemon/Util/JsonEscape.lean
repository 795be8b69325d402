import AxiomDaemon.Lib.JsonText

/-!
Escaping a string for JSON, `nr_json_escape` of `util_json.c`. Characters
beyond ASCII are decoded from UTF-8 and written as one or two escapes; a byte
that is not part of a character is written as the escape of the code unit
with its value.
-/

namespace AxiomDaemon.Util

open AxiomDaemon.Lib AxiomDaemon.Lib.Json

/-- A digit as `%x` writes it. -/
def hexDigit (d : ℕ) : UInt8 := UInt8.ofNat (if d < 10 then 0x30 + d else 0x61 + (d - 10))

/-- `\u%04x` of a number of 16 bits. -/
def escapeUnit (u : ℕ) : Bytes :=
  [backslash, 0x75, hexDigit (u / 4096 % 16), hexDigit (u / 256 % 16), hexDigit (u / 16 % 16),
    hexDigit (u % 16)]

/-- The arm `fault`: the byte alone, as `\u00%02x`. -/
def escapeFault (b : UInt8) : Bytes := escapeUnit b.toNat

/-- The two surrogates of a code point of 21 bits; the subtraction is one of
unsigned 32-bit numbers. -/
def escapePair (codePoint : ℕ) : Bytes :=
  let c := (codePoint + 2 ^ 32 - 0x10000) % 2 ^ 32
  escapeUnit (0xd800 + c / 0x400 % 0x400) ++ escapeUnit (0xdc00 + c % 0x400)

/-- The character after the backslash for the bytes that have one. -/
def escapeChar (b : UInt8) : Option UInt8 :=
  if b = quote then some quote
  else if b = 0x0a then some 0x6e
  else if b = 0x0d then some 0x72
  else if b = 0x0c then some 0x66
  else if b = 0x08 then some 0x62
  else if b = 0x09 then some 0x74
  else if b = backslash then some backslash
  else if b = slash then some slash
  else none

/-- The loop of `nr_json_escape`. Bytes from `0xc0` on lead a character: the
number of bytes that follow is told by their value, and characters of five or
six bytes are treated as faults. -/
def escapeLoop : Bytes → Bytes
  | [] => []
  | b :: bs =>
      match escapeChar b with
      | some e => backslash :: e :: escapeLoop bs
      | none =>
          if b.toNat < 0xc0 then
            if b.toNat ≤ 0x1f ∨ b.toNat ≥ 0x7f then escapeFault b ++ escapeLoop bs
            else b :: escapeLoop bs
          else if b.toNat < 0xe0 then
            match bs with
            | b₁ :: cs =>
                if isContinuation b₁ then
                  escapeUnit (b.toNat % 0x20 * 0x40 + b₁.toNat % 0x40) ++ escapeLoop cs
                else escapeFault b ++ escapeLoop (b₁ :: cs)
            | [] => escapeFault b
          else if b.toNat < 0xf0 then
            match bs with
            | b₁ :: b₂ :: cs =>
                if isContinuation b₁ && isContinuation b₂ then
                  escapeUnit ((b.toNat % 0x10 * 0x40 + b₁.toNat % 0x40) * 0x40 +
                    b₂.toNat % 0x40) ++ escapeLoop cs
                else escapeFault b ++ escapeLoop (b₁ :: b₂ :: cs)
            | bs => escapeFault b ++ escapeLoop bs
          else if b.toNat < 0xf8 then
            match bs with
            | b₁ :: b₂ :: b₃ :: cs =>
                if isContinuation b₁ && isContinuation b₂ && isContinuation b₃ then
                  escapePair (((b.toNat % 8 * 0x40 + b₁.toNat % 0x40) * 0x40 +
                    b₂.toNat % 0x40) * 0x40 + b₃.toNat % 0x40) ++ escapeLoop cs
                else escapeFault b ++ escapeLoop (b₁ :: b₂ :: b₃ :: cs)
            | bs => escapeFault b ++ escapeLoop bs
          else escapeFault b ++ escapeLoop bs

def nrJsonEscape (json : Bytes) : Bytes := quote :: (escapeLoop json ++ [quote])

/-! ### What the escapes spell -/

theorem hexValue_hexDigit {d : ℕ} (h : d < 16) : hexValue (hexDigit d) = some d := by
  have hall : ∀ d : Fin 16, hexValue (hexDigit d) = some d.val := by decide
  exact hall ⟨d, h⟩

theorem spells_escapeUnit {body : Bytes} {units : List ℕ} (h : Spells body units) {u : ℕ}
    (hu : u < 2 ^ 16) : Spells (escapeUnit u ++ body) (u :: units) := by
  refine h.hex ?_
  simp only [hexUnit, hexValue_hexDigit (show u / 4096 % 16 < 16 by omega),
    hexValue_hexDigit (show u / 256 % 16 < 16 by omega),
    hexValue_hexDigit (show u / 16 % 16 < 16 by omega),
    hexValue_hexDigit (show u % 16 < 16 by omega)]
  congr 1
  omega

theorem spells_escapeFault {body : Bytes} {units : List ℕ} (h : Spells body units) (b : UInt8) :
    Spells (escapeFault b ++ body) (b.toNat :: units) :=
  spells_escapeUnit h (by have := b.toNat_lt; omega)

theorem spells_escapePair {body : Bytes} {units : List ℕ} (h : Spells body units) (c : ℕ) :
    Spells (escapePair c ++ body)
      ((0xd800 + (c + 2 ^ 32 - 0x10000) % 2 ^ 32 / 0x400 % 0x400) ::
        (0xdc00 + (c + 2 ^ 32 - 0x10000) % 2 ^ 32 % 0x400) :: units) := by
  simp only [escapePair, List.append_assoc]
  exact spells_escapeUnit (spells_escapeUnit h (by omega)) (by omega)

/-- The bytes with an escape of their own: what follows the backslash stands
for the byte again. -/
theorem escapeChar_eq_some {b e : UInt8} (h : escapeChar b = some e) :
    unescape e = some b.toNat ∧ b.toNat < 0x80 := by
  simp only [escapeChar] at h
  split_ifs at h with h₁ h₂ h₃ h₄ h₅ h₆ h₇ h₈ <;> obtain rfl := Option.some.inj h <;> subst b <;>
    decide

theorem isPlain_of_escapeChar_eq_none {b : UInt8} (h : escapeChar b = none)
    (hcontrol : ¬(b.toNat ≤ 0x1f ∨ b.toNat ≥ 0x7f)) : isPlain b = true := by
  have hquote : b ≠ quote := by
    rintro rfl
    exact absurd h (by decide)
  have hbackslash : b ≠ backslash := by
    rintro rfl
    exact absurd h (by decide)
  simp only [isPlain, hquote, hbackslash, ne_eq, not_false_eq_true, decide_true, Bool.true_and,
    Bool.not_eq_true', decide_eq_false_iff_not]
  omega

/-- Whatever the bytes, the result is the inside of a JSON string. -/
theorem exists_spells_escapeLoop (json : Bytes) : ∃ units, Spells (escapeLoop json) units := by
  fun_induction escapeLoop json with
  | case1 => exact ⟨[], spells_nil⟩
  | case2 b bs e he ih =>
      obtain ⟨units, h⟩ := ih
      exact ⟨_, h.escape (escapeChar_eq_some he).1⟩
  | case3 b bs he hb hcontrol ih =>
      obtain ⟨units, h⟩ := ih
      exact ⟨_, spells_escapeFault h b⟩
  | case4 b bs he hb hcontrol ih =>
      obtain ⟨units, h⟩ := ih
      exact ⟨_, h.plain (isPlain_of_escapeChar_eq_none he hcontrol) (by omega)⟩
  | case5 b he hb hb' b₁ cs hcont ih =>
      obtain ⟨units, h⟩ := ih
      exact ⟨_, spells_escapeUnit h (by omega)⟩
  | case6 b he hb hb' b₁ cs hcont ih =>
      obtain ⟨units, h⟩ := ih
      exact ⟨_, spells_escapeFault h b⟩
  | case7 b he hb hb' =>
      have h := spells_escapeFault spells_nil b
      rw [List.append_nil] at h
      exact ⟨_, h⟩
  | case8 b he hb hb' hb'' b₁ b₂ cs hcont ih =>
      obtain ⟨units, h⟩ := ih
      exact ⟨_, spells_escapeUnit h (by omega)⟩
  | case9 b he hb hb' hb'' b₁ b₂ cs hcont ih =>
      obtain ⟨units, h⟩ := ih
      exact ⟨_, spells_escapeFault h b⟩
  | case10 b he hb hb' hb'' bs hshort ih =>
      obtain ⟨units, h⟩ := ih
      exact ⟨_, spells_escapeFault h b⟩
  | case11 b he hb hb' hb'' hb''' b₁ b₂ b₃ cs hcont ih =>
      obtain ⟨units, h⟩ := ih
      exact ⟨_, spells_escapePair h _⟩
  | case12 b he hb hb' hb'' hb''' b₁ b₂ b₃ cs hcont ih =>
      obtain ⟨units, h⟩ := ih
      exact ⟨_, spells_escapeFault h b⟩
  | case13 b he hb hb' hb'' hb''' bs hshort ih =>
      obtain ⟨units, h⟩ := ih
      exact ⟨_, spells_escapeFault h b⟩
  | case14 b bs he hb hb' hb'' hb''' ih =>
      obtain ⟨units, h⟩ := ih
      exact ⟨_, spells_escapeFault h b⟩

theorem escapeChar_eq_none {b : UInt8} (h : 0x80 ≤ b.toNat) : escapeChar b = none := by
  cases hb : escapeChar b with
  | none => rfl
  | some e =>
      have hascii := (escapeChar_eq_some hb).2
      omega

/-- A byte of ASCII comes out as one code unit, in one of three ways. -/
theorem spells_escapeLoop_ascii {b : UInt8} (hb : b.toNat < 0x80) {bs : Bytes} {units : List ℕ}
    (h : Spells (escapeLoop bs) units) : Spells (escapeLoop (b :: bs)) (b.toNat :: units) := by
  rw [escapeLoop.eq_def]
  cases he : escapeChar b with
  | some e =>
      simp only [he]
      exact h.escape (escapeChar_eq_some he).1
  | none =>
      simp only [he]
      rw [if_pos (by omega)]
      split
      · exact spells_escapeFault h b
      · next hcontrol => exact h.plain (isPlain_of_escapeChar_eq_none he hcontrol) hb

theorem spells_escapeLoop {json : Bytes} {units : List ℕ} (h : utf16 json = some units) :
    Spells (escapeLoop json) units := by
  induction hlen : json.length using Nat.strong_induction_on generalizing json units with
  | _ n ih =>
      subst hlen
      cases json with
      | nil =>
          obtain rfl : [] = units := by simpa [utf16_nil] using h
          exact spells_nil
      | cons b bs =>
          rcases utf16_cons_eq_some h with ⟨hb, vs, hvs, rfl⟩ |
            ⟨b₁, cs, c, vs, rfl, hc, hvs, rfl⟩ | ⟨b₁, b₂, cs, c, vs, rfl, hc, hvs, rfl⟩ |
            ⟨b₁, b₂, b₃, cs, c, vs, rfl, hc, hvs, rfl⟩
          · exact spells_escapeLoop_ascii hb (ih _ (by simp) hvs rfl)
          · obtain ⟨⟨hlo, hhi, hcont, -⟩, rfl⟩ := codePoint2_eq_some hc
            have hrec := ih cs.length (by simp only [List.length_cons]; omega) hvs rfl
            rw [escapeLoop.eq_def]
            simp only [escapeChar_eq_none (show 0x80 ≤ b.toNat by omega)]
            rw [if_neg (by omega), if_pos (by omega), if_pos hcont]
            exact spells_escapeUnit hrec (by omega)
          · obtain ⟨⟨hlo, hhi, hcont₁, hcont₂, -⟩, rfl⟩ := codePoint3_eq_some hc
            have hrec := ih cs.length (by simp only [List.length_cons]; omega) hvs rfl
            rw [escapeLoop.eq_def]
            simp only [escapeChar_eq_none (show 0x80 ≤ b.toNat by omega)]
            rw [if_neg (by omega), if_neg (by omega), if_pos (by omega),
              if_pos (by rw [hcont₁, hcont₂]; rfl)]
            exact spells_escapeUnit hrec (by omega)
          · obtain ⟨⟨hlo, hhi, hcont₁, hcont₂, hcont₃, hclo, hchi⟩, hceq⟩ :=
              codePoint4_eq_some hc
            have hrec := ih cs.length (by simp only [List.length_cons]; omega) hvs rfl
            rw [escapeLoop.eq_def]
            simp only [escapeChar_eq_none (show 0x80 ≤ b.toNat by omega)]
            rw [if_neg (by omega), if_neg (by omega), if_neg (by omega), if_pos (by omega),
              if_pos (by rw [hcont₁, hcont₂, hcont₃]; rfl), ← hceq]
            -- a code point beyond the basic plane is not changed by the 32-bit subtraction
            have hsub : (c + 2 ^ 32 - 0x10000) % 2 ^ 32 = c - 0x10000 := by omega
            have hpair := spells_escapePair hrec c
            rw [hsub] at hpair
            exact hpair

theorem exists_reads_nrJsonEscape (json : Bytes) :
    ∃ units, Reads (nrJsonEscape json) (.str units) := by
  obtain ⟨units, h⟩ := exists_spells_escapeLoop json
  exact ⟨units, reads_str h⟩

theorem reads_nrJsonEscape {json : Bytes} {units : List ℕ} (h : utf16 json = some units) :
    Reads (nrJsonEscape json) (.str units) :=
  reads_str (spells_escapeLoop h)

end AxiomDaemon.Util

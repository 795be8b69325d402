import AxiomDaemon.Util.ObjectJson

/-!
An object that is written as JSON is read back as it was, and written again
gives the same text. The reader takes every JSON string for what it says, as
long as it says nothing beyond the basic multilingual plane: this is shown
first, of all strings, and then used for the ones that are escaped.
-/

namespace AxiomDaemon.Util.ObjectJson

open AxiomDaemon.Lib
open AxiomDaemon.Lib.Json (quote comma minus dot slash colon lbracket rbracket lbrace rbrace
  backslash zero hexValue hexUnit unescape scanString Spells)

/-! ### Strings -/

/-- The bytes that are stored for an item of a JSON string. -/
def storedItem : Item → Bytes
  | .lit b => [b]
  | .unit u => transcode u

theorem hexValue_lt {b : UInt8} {d : ℕ} (h : hexValue b = some d) : d < 16 := by
  rw [hexValue] at h
  split_ifs at h with hdigit hlower hupper
  · have hrange : 0x30 ≤ b.toNat ∧ b.toNat ≤ 0x39 := by simpa [isDigit] using hdigit
    have := Option.some.inj h
    omega
  · have := Option.some.inj h
    omega
  · have := Option.some.inj h
    omega

theorem hexDigit_facts {b : UInt8} {d : ℕ} (h : hexValue b = some d) :
    isSpace b = false ∧ b ≠ minus ∧ b ≠ 0x2b ∧ b ≠ 0x78 ∧ b ≠ 0x58 := by
  have hrange : 0x30 ≤ b.toNat ∧ b.toNat ≤ 0x39 ∨ 0x41 ≤ b.toNat ∧ b.toNat ≤ 0x46 ∨
      0x61 ≤ b.toNat ∧ b.toNat ≤ 0x66 := by
    rw [hexValue] at h
    split_ifs at h with hdigit hlower hupper
    · left
      simpa [isDigit] using hdigit
    · exact Or.inr (Or.inr hlower)
    · exact Or.inr (Or.inl hupper)
  refine ⟨?_, ?_, ?_, ?_, ?_⟩
  · simp only [isSpace, Bool.or_eq_false_iff, decide_eq_false_iff_not, Bool.and_eq_false_iff]
    refine ⟨?_, ?_⟩
    · rintro rfl
      exact absurd hrange (by decide)
    · right
      omega
  all_goals
    rintro rfl
    exact absurd hrange (by decide)

theorem hexUnit_digits {w x y z : UInt8} {u : ℕ} (h : hexUnit w x y z = some u) :
    (∃ d, hexValue w = some d) ∧ (∃ d, hexValue x = some d) ∧ (∃ d, hexValue y = some d) ∧
      ∃ d, hexValue z = some d := by
  rw [hexUnit] at h
  split at h
  · next hw hx hy hz => exact ⟨⟨_, hw⟩, ⟨_, hx⟩, ⟨_, hy⟩, ⟨_, hz⟩⟩
  · exact absurd h (by simp)

theorem scanHex4_eq {w x y z : UInt8} {u : ℕ} (h : hexUnit w x y z = some u) (bs : Bytes) :
    scanHex4 (w :: x :: y :: z :: bs) = some u := by
  rw [hexUnit] at h
  split at h
  case h_2 => exact absurd h (by simp)
  case h_1 dw dx dy dz hw hx hy hz =>
    obtain rfl := Option.some.inj h
    obtain ⟨hspace, hminus, hplus, -⟩ := hexDigit_facts hw
    obtain ⟨-, -, -, hlower, hupper⟩ := hexDigit_facts hx
    have hspan : spanDigits 16 [w, x, y, z] = ([dw, dx, dy, dz], []) := by
      simp [spanDigits, hw, hx, hy, hz, hexValue_lt hw, hexValue_lt hx, hexValue_lt hy,
        hexValue_lt hz]
    have hnumber : numberOf 16 [dw, dx, dy, dz] = ((dw * 16 + dx) * 16 + dy) * 16 + dz := by
      simp only [numberOf, List.reverse_cons, List.reverse_nil, List.nil_append, List.cons_append,
        Nat.ofDigits_cons, Nat.ofDigits_nil]
      omega
    rw [scanHex4, List.dropWhile_cons_of_neg (ne_true_of_eq_false hspace)]
    simp only [List.take_succ_cons, List.take_zero, readSign, if_neg hminus, if_neg hplus,
      hlower, hupper, or_self, and_false, if_false, hspan, hnumber]
    rfl

theorem escapedByte_eq {e : UInt8} {u : ℕ} (h : unescape e = some u) (hu : e ≠ 0x75) :
    u < 0x80 ∧ UInt8.ofNat u = escapedByte e := by
  rw [unescape] at h
  split_ifs at h with h₁ h₂ h₃ h₄ h₅ h₆
  · obtain rfl := Option.some.inj h
    rcases h₁ with rfl | rfl | rfl <;> decide
  all_goals
    obtain rfl := Option.some.inj h
    subst e
    decide

theorem hasClosingQuote_quote (bs : Bytes) : hasClosingQuote (quote :: bs) = true := by
  rw [hasClosingQuote.eq_def]
  rfl

theorem hasClosingQuote_escape (c : UInt8) (bs : Bytes) :
    hasClosingQuote (backslash :: c :: bs) = hasClosingQuote bs := by
  rw [hasClosingQuote.eq_def]
  rfl

theorem hasClosingQuote_plain {b : UInt8} (hquote : b ≠ quote) (hbackslash : b ≠ backslash)
    (hcontrol : ¬b.toNat < 0x20) (bs : Bytes) : hasClosingQuote (b :: bs) = hasClosingQuote bs := by
  rw [hasClosingQuote.eq_def]
  simp only [if_neg hquote, if_neg hbackslash, if_neg hcontrol]

/-- The digits of an escape are no characters of their own to the first loop. -/
theorem hasClosingQuote_hexDigit {b : UInt8} {d : ℕ} (h : hexValue b = some d) (bs : Bytes) :
    hasClosingQuote (b :: bs) = hasClosingQuote bs := by
  obtain ⟨hquote, hbackslash, hcontrol⟩ : b ≠ quote ∧ b ≠ backslash ∧ ¬b.toNat < 0x20 := by
    refine ⟨?_, ?_, ?_⟩
    · rintro rfl
      rw [show hexValue quote = none by decide] at h
      exact absurd h (by simp)
    · rintro rfl
      rw [show hexValue backslash = none by decide] at h
      exact absurd h (by simp)
    · intro hlt
      rw [hexValue] at h
      have hdigit : isDigit b = false := by
        simp only [isDigit, Bool.and_eq_false_iff, decide_eq_false_iff_not]
        omega
      rw [if_neg (ne_true_of_eq_false hdigit), if_neg (by omega), if_neg (by omega)] at h
      exact absurd h (by simp)
  exact hasClosingQuote_plain hquote hbackslash hcontrol bs

theorem copyString_quote (unset : Bytes → ℕ) (bs : Bytes) :
    copyString unset (quote :: bs) = ([], quote :: bs) := by
  rw [copyString.eq_def]
  rfl

theorem copyString_escape (unset : Bytes → ℕ) {c : UInt8} (h : c ≠ 0x75) (cs : Bytes) :
    copyString unset (backslash :: c :: cs) =
      (escapedByte c :: (copyString unset cs).1, (copyString unset cs).2) := by
  rw [copyString.eq_def]
  simp only [if_neg (show ¬(backslash = quote ∨ backslash.toNat ≤ 31) by decide), if_true,
    if_neg h]

theorem copyString_unit (unset : Bytes → ℕ) (w x y z : UInt8) (ds : Bytes) :
    copyString unset (backslash :: 0x75 :: w :: x :: y :: z :: ds) =
      (transcode ((scanHex4 (w :: x :: y :: z :: ds)).getD (unset (w :: x :: y :: z :: ds))) ++
        (copyString unset ds).1, (copyString unset ds).2) := by
  rw [copyString.eq_def]
  simp only [if_neg (show ¬(backslash = quote ∨ backslash.toNat ≤ 31) by decide), if_true]

theorem copyString_plain (unset : Bytes → ℕ) {b : UInt8} (hquote : b ≠ quote)
    (hbackslash : b ≠ backslash) (hcontrol : ¬b.toNat < 0x20) (bs : Bytes) :
    copyString unset (b :: bs) = (b :: (copyString unset bs).1, (copyString unset bs).2) := by
  have hstop : ¬(b = quote ∨ b.toNat ≤ 31) := by
    rintro (h | h)
    · exact hquote h
    · omega
  rw [copyString.eq_def]
  simp only [if_neg hstop, if_neg hbackslash]

theorem transcode_ascii {u : ℕ} (h : u < 0x80) : transcode u = [UInt8.ofNat u] := by
  rw [transcode, if_pos h]

theorem copyString_of_scanString (unset : Bytes → ℕ) {bs : Bytes} {items : List Item} {rest : Bytes}
    (h : scanString bs = some (items, rest)) :
    hasClosingQuote bs = true ∧
      copyString unset bs = (items.flatMap storedItem, quote :: rest) := by
  fun_induction scanString bs generalizing items rest with
  | case1 => simp at h
  | case2 bs =>
      obtain ⟨rfl, rfl⟩ : [] = items ∧ bs = rest := by simpa using h
      exact ⟨hasClosingQuote_quote bs, copyString_quote unset bs⟩
  | case3 => simp at h
  | case4 w x y z cs u hu hquote ih =>
      obtain ⟨⟨items', rest'⟩, hrec, heq⟩ := Option.map_eq_some_iff.mp h
      obtain ⟨rfl, rfl⟩ := Prod.mk.inj heq
      obtain ⟨hclosing, hcopy⟩ := ih hrec
      refine ⟨?_, ?_⟩
      · obtain ⟨⟨_, hw⟩, ⟨_, hx⟩, ⟨_, hy⟩, ⟨_, hz⟩⟩ := hexUnit_digits hu
        rw [hasClosingQuote_escape, hasClosingQuote_hexDigit hw, hasClosingQuote_hexDigit hx,
          hasClosingQuote_hexDigit hy, hasClosingQuote_hexDigit hz, hclosing]
      · rw [copyString_unit, scanHex4_eq hu, hcopy]
        rfl
  | case5 => simp at h
  | case6 => simp at h
  | case7 e cs he u hu hquote ih =>
      obtain ⟨⟨items', rest'⟩, hrec, heq⟩ := Option.map_eq_some_iff.mp h
      obtain ⟨rfl, rfl⟩ := Prod.mk.inj heq
      obtain ⟨hclosing, hcopy⟩ := ih hrec
      obtain ⟨hascii, hbyte⟩ := escapedByte_eq hu he
      refine ⟨by rw [hasClosingQuote_escape, hclosing], ?_⟩
      rw [copyString_escape unset he, hcopy, List.flatMap_cons, storedItem,
        transcode_ascii hascii, hbyte]
      rfl
  | case8 => simp at h
  | case9 => simp at h
  | case10 b bs hquote hbackslash hcontrol ih =>
      obtain ⟨⟨items', rest'⟩, hrec, heq⟩ := Option.map_eq_some_iff.mp h
      obtain ⟨rfl, rfl⟩ := Prod.mk.inj heq
      obtain ⟨hclosing, hcopy⟩ := ih hrec
      refine ⟨by rw [hasClosingQuote_plain hquote hbackslash hcontrol, hclosing], ?_⟩
      rw [copyString_plain unset hquote hbackslash hcontrol, hcopy]
      rfl

/-- No code unit is half of a surrogate pair. -/
def IsBasic (units : List ℕ) : Prop := ∀ u ∈ units, ¬(0xd800 ≤ u ∧ u < 0xe000)

theorem IsBasic.tail {u : ℕ} {units : List ℕ} (h : IsBasic (u :: units)) : IsBasic units :=
  fun v hv => h v (List.mem_cons_of_mem u hv)

theorem surrogates_not_basic (c : ℕ) (units : List ℕ) : ¬IsBasic (surrogates c ++ units) := by
  intro h
  refine h (0xd800 + (c - 0x10000) / 0x400 % 0x400) (by simp [surrogates]) ⟨by omega, by omega⟩

theorem isContinuation_range {b : UInt8} (h : isContinuation b = true) :
    0x80 ≤ b.toNat ∧ b.toNat < 0xc0 := by
  simpa [isContinuation] using h

theorem ofNat_eq {b : UInt8} {n : ℕ} (h : n = b.toNat) : UInt8.ofNat n = b := by
  rw [h, UInt8.ofNat_toNat]

theorem or_mark_two {n : ℕ} (h : n < 0x20) : n ||| 0xc0 = n + 0xc0 := by
  have hall : ∀ n : Fin 0x20, n.val ||| 0xc0 = n.val + 0xc0 := by decide
  exact hall ⟨n, h⟩

theorem or_mark_three {n : ℕ} (h : n < 0x10) : n ||| 0xe0 = n + 0xe0 := by
  have hall : ∀ n : Fin 0x10, n.val ||| 0xe0 = n.val + 0xe0 := by decide
  exact hall ⟨n, h⟩

theorem transcode_two {b₀ b₁ : UInt8} {c : ℕ} (h : codePoint2 b₀ b₁ = some c) :
    transcode c = [b₀, b₁] := by
  obtain ⟨⟨hlo, hhi, hcont, hc⟩, rfl⟩ := codePoint2_eq_some h
  obtain ⟨hlo₁, hhi₁⟩ := isContinuation_range hcont
  rw [transcode, if_neg (by omega), if_pos (by omega), or_mark_two (by omega),
    ofNat_eq (b := b₀) (by omega), ofNat_eq (b := b₁) (by omega)]

theorem transcode_three {b₀ b₁ b₂ : UInt8} {c : ℕ} (h : codePoint3 b₀ b₁ b₂ = some c) :
    transcode c = [b₀, b₁, b₂] := by
  obtain ⟨⟨hlo, hhi, hcont₁, hcont₂, hc, -⟩, rfl⟩ := codePoint3_eq_some h
  obtain ⟨hlo₁, hhi₁⟩ := isContinuation_range hcont₁
  obtain ⟨hlo₂, hhi₂⟩ := isContinuation_range hcont₂
  rw [transcode, if_neg (by omega), if_neg (by omega), or_mark_three (by omega),
    ofNat_eq (b := b₀) (by omega), ofNat_eq (b := b₁) (by omega), ofNat_eq (b := b₂) (by omega)]

/-- The bytes that are stored depend on the code units only, not on how they are
written in the string. -/
theorem stored_eq_transcode {items : List Item} {units : List ℕ} (h : unitsOf items = some units)
    (hbasic : IsBasic units) : items.flatMap storedItem = units.flatMap transcode := by
  fun_induction unitsOf items generalizing units with
  | case1 =>
      obtain rfl := Option.some.inj h
      rfl
  | case2 u items ih =>
      obtain ⟨vs, hvs, rfl⟩ := Option.map_eq_some_iff.mp h
      rw [List.flatMap_cons, List.flatMap_cons, ih hvs hbasic.tail]
      rfl
  | case3 b items hb ih =>
      obtain ⟨vs, hvs, rfl⟩ := Option.map_eq_some_iff.mp h
      rw [List.flatMap_cons, List.flatMap_cons, ih hvs hbasic.tail, transcode_ascii hb,
        UInt8.ofNat_toNat]
      rfl
  | case4 b₀ hb b₁ items c hc ih =>
      obtain ⟨vs, hvs, rfl⟩ := Option.map_eq_some_iff.mp h
      rw [List.flatMap_cons, List.flatMap_cons, List.flatMap_cons, ih hvs hbasic.tail,
        transcode_two hc]
      rfl
  | case5 b₀ hb b₁ hnone b₂ items c hc ih =>
      obtain ⟨vs, hvs, rfl⟩ := Option.map_eq_some_iff.mp h
      rw [List.flatMap_cons, List.flatMap_cons, List.flatMap_cons, List.flatMap_cons,
        ih hvs hbasic.tail, transcode_three hc]
      rfl
  | case6 b₀ hb b₁ hnone b₂ hnone' b₃ items c hc ih =>
      obtain ⟨vs, hvs, rfl⟩ := Option.map_eq_some_iff.mp h
      exact absurd hbasic (surrogates_not_basic c vs)
  | _ => simp at h

theorem flatMap_lit (bs : Bytes) : (bs.map Item.lit).flatMap storedItem = bs := by
  induction bs with
  | nil => rfl
  | cons b bs ih => rw [List.map_cons, List.flatMap_cons, ih]; rfl

/-- A string of the basic multilingual plane: UTF-8 without a zero byte. -/
def IsBmpString (s : Bytes) : Prop := (∃ units, utf16 s = some units ∧ IsBasic units) ∧ 0 ∉ s

theorem parseString_nrJsonEscape (unset : Bytes → ℕ) {s : Bytes} (h : IsBmpString s) (ext : Bytes) :
    parseString unset (nrJsonEscape s ++ ext) = some (s, ext) := by
  obtain ⟨⟨units, hunits, hbasic⟩, hzero⟩ := h
  obtain ⟨items, hscan, hitems⟩ := spells_escapeLoop hunits
  obtain ⟨hclosing, hcopy⟩ := copyString_of_scanString unset (hscan ext)
  have hstored : items.flatMap storedItem = s := by
    rw [stored_eq_transcode hitems hbasic, ← stored_eq_transcode hunits hbasic, flatMap_lit]
  rw [nrJsonEscape, List.cons_append, List.append_assoc, List.singleton_append, parseString,
    if_pos ⟨rfl, hclosing⟩, hcopy, hstored]
  simp only [takeWhile_ne_zero hzero, List.head?_cons, if_true, List.tail_cons]

/-! ### Values -/

/-- What may follow a value: nothing, or a byte that the containers look for. -/
def EndsValue (ext : Bytes) : Prop :=
  ∀ b bs, ext = b :: bs → b = comma ∨ b = rbracket ∨ b = rbrace

theorem endsValue_nil : EndsValue [] := by
  intro b bs h
  exact absurd h (by simp)

theorem endsValue_cons {b : UInt8} (h : b = comma ∨ b = rbracket ∨ b = rbrace) (bs : Bytes) :
    EndsValue (b :: bs) := by
  intro c cs hext
  obtain ⟨rfl, -⟩ := List.cons.inj hext
  exact h

theorem EndsValue.endsNumber {ext : Bytes} (h : EndsValue ext) : EndsNumber ext := by
  intro b bs hext
  rcases h b bs hext with rfl | rfl | rfl <;> decide

theorem EndsValue.head?_ne {ext : Bytes} (h : EndsValue ext) {b : UInt8}
    (hb : b ≠ comma ∧ b ≠ rbracket ∧ b ≠ rbrace) : ext.head? ≠ some b := by
  intro hhead
  cases ext with
  | nil => exact absurd hhead (by simp)
  | cons c cs =>
      obtain rfl := Option.some.inj hhead
      rcases h c cs rfl with rfl | rfl | rfl
      · exact hb.1 rfl
      · exact hb.2.1 rfl
      · exact hb.2.2 rfl

/-- The object that an integer is read as. -/
def readInteger (i : ℤ) : NrObj := if i ≤ -2 ^ 31 ∨ 2 ^ 31 - 1 ≤ i then .long i else .int i

theorem parseNumber_signedDecimal {i : ℤ} (hlo : -2 ^ 63 ≤ i) (hhi : i < 2 ^ 63) {ext : Bytes}
    (hext : EndsValue ext) : parseNumber (signedDecimal i ++ ext) = (readInteger i, ext) := by
  have hplain : ¬(ext.head? = some dot ∨ ext.head? = some 0x65 ∨ ext.head? = some 0x45) := by
    rintro (h | h | h)
    · exact hext.head?_ne (by decide) h
    · exact hext.head?_ne (by decide) h
    · exact hext.head?_ne (by decide) h
  simp only [parseNumber, strtol_signedDecimal hlo hhi hext.endsNumber, if_neg hplain, readInteger]
  split_ifs <;> rfl

/-- The first bytes of `null`, `false` and `true`. -/
def startsWord (b : UInt8) : Bool := b = 0x6e || b = 0x66 || b = 0x74

theorem isPrefixOf_of_startsWord {b : UInt8} (h : startsWord b = false) (bs : Bytes) :
    (ascii "null").isPrefixOf (b :: bs) = false ∧ (ascii "false").isPrefixOf (b :: bs) = false ∧
      (ascii "true").isPrefixOf (b :: bs) = false := by
  have hnull : ascii "null" = 0x6e :: ascii "ull" := by decide
  have hfalse : ascii "false" = 0x66 :: ascii "alse" := by decide
  have htrue : ascii "true" = 0x74 :: ascii "rue" := by decide
  simp only [startsWord, Bool.or_eq_false_iff, decide_eq_false_iff_not] at h
  obtain ⟨⟨h₁, h₂⟩, h₃⟩ := h
  simp only [hnull, hfalse, htrue, List.isPrefixOf, Bool.and_eq_false_iff, beq_eq_false_iff_ne]
  exact ⟨Or.inl (Ne.symm h₁), Or.inl (Ne.symm h₂), Or.inl (Ne.symm h₃)⟩

section

variable (unset : Bytes → ℕ)

theorem parseValue_string (fuel : ℕ) (bs : Bytes) :
    parseValue unset (fuel + 1) (quote :: bs) =
      (parseString unset (quote :: bs)).map fun r => (.string r.1, r.2) := by
  obtain ⟨hnull, hfalse, htrue⟩ := isPrefixOf_of_startsWord (show startsWord quote = false by decide) bs
  rw [parseValue]
  simp only [hnull, hfalse, htrue, if_true]
  rfl

theorem parseValue_number {b : UInt8} (h : b = minus ∨ isDigit b = true) (fuel : ℕ) (bs : Bytes) :
    parseValue unset (fuel + 1) (b :: bs) = some (parseNumber (b :: bs)) := by
  have hrange : b = minus ∨ 0x30 ≤ b.toNat ∧ b.toNat ≤ 0x39 := by simpa [isDigit] using h
  have hword : startsWord b = false := by
    simp only [startsWord, Bool.or_eq_false_iff, decide_eq_false_iff_not]
    refine ⟨⟨?_, ?_⟩, ?_⟩
    all_goals
      rintro rfl
      exact absurd hrange (by decide)
  have hquote : b ≠ quote := by
    rintro rfl
    exact absurd hrange (by decide)
  obtain ⟨hnull, hfalse, htrue⟩ := isPrefixOf_of_startsWord hword bs
  rw [parseValue]
  simp only [hnull, hfalse, htrue, if_neg hquote, if_pos h]
  rfl

theorem jsonSkip_of_lt {c : UInt8} (h : 32 < c.toNat) (cs : Bytes) :
    jsonSkip (c :: cs) = c :: cs := by
  rw [jsonSkip, List.dropWhile_cons_of_neg]
  simp only [ne_eq, decide_not, Bool.and_eq_true, Bool.not_eq_true', decide_eq_false_iff_not,
    decide_eq_true_eq, not_and, not_le]
  exact fun _ => h

theorem parseValue_lbracket {c : UInt8} (hc : 32 < c.toNat) (hne : c ≠ rbracket) (fuel : ℕ)
    (cs : Bytes) :
    parseValue unset (fuel + 1) (lbracket :: c :: cs) =
      parseElements unset fuel (.array []) (c :: cs) := by
  obtain ⟨hnull, hfalse, htrue⟩ :=
    isPrefixOf_of_startsWord (show startsWord lbracket = false by decide) (c :: cs)
  rw [parseValue]
  simp only [hnull, hfalse, htrue, if_neg (show lbracket ≠ quote by decide),
    if_neg (show ¬(lbracket = minus ∨ isDigit lbracket = true) by decide), if_true,
    jsonSkip_of_lt hc, if_neg hne]
  rfl

theorem parseValue_array_nil (fuel : ℕ) (ext : Bytes) :
    parseValue unset (fuel + 1) (lbracket :: rbracket :: ext) = some (.array [], ext) := by
  obtain ⟨hnull, hfalse, htrue⟩ :=
    isPrefixOf_of_startsWord (show startsWord lbracket = false by decide) (rbracket :: ext)
  rw [parseValue]
  simp only [hnull, hfalse, htrue, if_neg (show lbracket ≠ quote by decide),
    if_neg (show ¬(lbracket = minus ∨ isDigit lbracket = true) by decide), if_true,
    jsonSkip_of_lt (show 32 < rbracket.toNat by decide)]
  rfl

theorem parseValue_lbrace {c : UInt8} (hc : 32 < c.toNat) (hne : c ≠ rbrace) (fuel : ℕ)
    (cs : Bytes) :
    parseValue unset (fuel + 1) (lbrace :: c :: cs) =
      parseMembers unset fuel (.hash []) (c :: cs) := by
  obtain ⟨hnull, hfalse, htrue⟩ :=
    isPrefixOf_of_startsWord (show startsWord lbrace = false by decide) (c :: cs)
  rw [parseValue]
  simp only [hnull, hfalse, htrue, if_neg (show lbrace ≠ quote by decide),
    if_neg (show ¬(lbrace = minus ∨ isDigit lbrace = true) by decide),
    if_neg (show lbrace ≠ lbracket by decide), if_true, jsonSkip_of_lt hc, if_neg hne]
  rfl

theorem parseValue_hash_nil (fuel : ℕ) (ext : Bytes) :
    parseValue unset (fuel + 1) (lbrace :: rbrace :: ext) = some (.hash [], ext) := by
  obtain ⟨hnull, hfalse, htrue⟩ :=
    isPrefixOf_of_startsWord (show startsWord lbrace = false by decide) (rbrace :: ext)
  rw [parseValue]
  simp only [hnull, hfalse, htrue, if_neg (show lbrace ≠ quote by decide),
    if_neg (show ¬(lbrace = minus ∨ isDigit lbrace = true) by decide),
    if_neg (show lbrace ≠ lbracket by decide), if_true,
    jsonSkip_of_lt (show 32 < rbrace.toNat by decide)]
  rfl

theorem isPrefixOf_append (word ext : Bytes) : word.isPrefixOf (word ++ ext) = true := by
  rw [List.isPrefixOf_iff_prefix]
  exact List.prefix_append word ext

theorem parseValue_null (fuel : ℕ) (ext : Bytes) :
    parseValue unset (fuel + 1) (ascii "null" ++ ext) = some (.none, ext) := by
  rw [parseValue.eq_def]
  simp only [isPrefixOf_append, if_true]
  rfl

theorem parseValue_false (fuel : ℕ) (ext : Bytes) :
    parseValue unset (fuel + 1) (ascii "false" ++ ext) = some (.boolean false, ext) := by
  have hfalse : ascii "false" = 0x66 :: ascii "alse" := by decide
  have hnull : (ascii "null").isPrefixOf (ascii "false" ++ ext) = false := by
    rw [hfalse]
    rfl
  rw [parseValue.eq_def]
  simp only [hnull, isPrefixOf_append, if_true]
  rfl

theorem parseValue_true (fuel : ℕ) (ext : Bytes) :
    parseValue unset (fuel + 1) (ascii "true" ++ ext) = some (.boolean true, ext) := by
  have htrue : ascii "true" = 0x74 :: ascii "rue" := by decide
  have hnull : (ascii "null").isPrefixOf (ascii "true" ++ ext) = false := by
    rw [htrue]
    rfl
  have hfalse : (ascii "false").isPrefixOf (ascii "true" ++ ext) = false := by
    rw [htrue]
    rfl
  rw [parseValue.eq_def]
  simp only [hnull, hfalse, isPrefixOf_append, if_true]
  rfl

/-! ### Reading what was written -/

/-- The text of the first object is read as the second one wherever a value is
expected; it starts with neither white space nor the end of a container. -/
structure ReadsAs (obj obj' : NrObj) : Prop where
  starts : ∃ c cs, recursiveObjToJson obj = c :: cs ∧ 32 < c.toNat ∧ c ≠ rbracket
  reads : ∀ fuel ext, 2 * (recursiveObjToJson obj).length < fuel → EndsValue ext →
    parseValue unset fuel (recursiveObjToJson obj ++ ext) = some (obj', ext)

theorem readsAs_none : ReadsAs unset .none .none := by
  refine ⟨⟨0x6e, ascii "ull", by rw [recursiveObjToJson]; decide, by decide, by decide⟩, ?_⟩
  rintro (_ | fuel) ext hfuel -
  · omega
  · rw [recursiveObjToJson]
    exact parseValue_null unset fuel ext

theorem readsAs_boolean (b : Bool) : ReadsAs unset (.boolean b) (.boolean b) := by
  cases b with
  | false =>
      refine ⟨⟨0x66, ascii "alse", by rw [recursiveObjToJson]; decide, by decide, by decide⟩, ?_⟩
      rintro (_ | fuel) ext hfuel -
      · omega
      · rw [recursiveObjToJson]
        exact parseValue_false unset fuel ext
  | true =>
      refine ⟨⟨0x74, ascii "rue", by rw [recursiveObjToJson]; decide, by decide, by decide⟩, ?_⟩
      rintro (_ | fuel) ext hfuel -
      · omega
      · rw [recursiveObjToJson]
        exact parseValue_true unset fuel ext

theorem readsAs_string {s : Bytes} (h : IsBmpString s) : ReadsAs unset (.string s) (.string s) := by
  refine ⟨⟨quote, escapeLoop s ++ [quote], by rw [recursiveObjToJson]; rfl, by decide, by decide⟩,
    ?_⟩
  rintro (_ | fuel) ext hfuel -
  · omega
  · have hstring := parseString_nrJsonEscape unset h ext
    rw [nrJsonEscape, List.cons_append] at hstring
    rw [recursiveObjToJson, nrJsonEscape, List.cons_append, parseValue_string, hstring]
    rfl

theorem signedDecimal_starts (i : ℤ) :
    ∃ c cs, signedDecimal i = c :: cs ∧ (c = minus ∨ isDigit c = true) := by
  rw [signedDecimal]
  by_cases h : i < 0
  · exact ⟨minus, decimal i.natAbs, by simp [h], Or.inl rfl⟩
  · cases hdecimal : decimal i.natAbs with
    | nil =>
        rcases decimal_eq_digitBytes i.natAbs with ⟨-, hzero⟩ | ⟨d, ds, heq, -⟩
        · rw [hdecimal] at hzero
          exact absurd hzero (by decide)
        · rw [hdecimal] at heq
          exact absurd heq (by simp [digitBytes])
    | cons c cs =>
        have hmem : c ∈ decimal i.natAbs := by
          rw [hdecimal]
          exact List.mem_cons_self
        exact ⟨c, cs, by simp [h], Or.inr (Json.isDigit_of_mem_decimal hmem)⟩

theorem lt_of_minus_or_digit {c : UInt8} (h : c = minus ∨ isDigit c = true) :
    32 < c.toNat ∧ c ≠ rbracket := by
  have hrange : c = minus ∨ 0x30 ≤ c.toNat ∧ c.toNat ≤ 0x39 := by simpa [isDigit] using h
  refine ⟨?_, ?_⟩
  · rcases hrange with rfl | hrange
    · decide
    · omega
  · rintro rfl
    exact absurd hrange (by decide)

/-- An integer of either width becomes one of the width that its value needs. -/
theorem readsAs_integer {obj : NrObj} {i : ℤ} (htext : recursiveObjToJson obj = signedDecimal i)
    (hlo : -2 ^ 63 ≤ i) (hhi : i < 2 ^ 63) : ReadsAs unset obj (readInteger i) := by
  obtain ⟨c, cs, hcons, hc⟩ := signedDecimal_starts i
  obtain ⟨hlt, hne⟩ := lt_of_minus_or_digit hc
  refine ⟨⟨c, cs, htext.trans hcons, hlt, hne⟩, ?_⟩
  rintro (_ | fuel) ext hfuel hext
  · omega
  · have hnumber := parseNumber_signedDecimal hlo hhi hext
    rw [hcons, List.cons_append] at hnumber
    rw [htext, hcons, List.cons_append, parseValue_number unset hc, hnumber]

theorem parseElements_elementsToJson {objs objs' : List NrObj}
    (h : List.Forall₂ (ReadsAs unset) objs objs') (hne : objs ≠ []) (pre : List NrObj) (fuel : ℕ)
    (ext : Bytes) (hfuel : 2 * (elementsToJson objs).length + 1 < fuel) :
    parseElements unset fuel (.array pre) (elementsToJson objs ++ rbracket :: ext) =
      some (.array (pre ++ objs'), ext) := by
  induction h generalizing pre fuel with
  | nil => exact absurd rfl hne
  | @cons obj obj' objs objs' hobj hobjs ih =>
      obtain _ | fuel := fuel
      · omega
      obtain ⟨c, cs, hcons, hlt, -⟩ := hobj.starts
      have hskip : ∀ tail, jsonSkip (recursiveObjToJson obj ++ tail) =
          recursiveObjToJson obj ++ tail := by
        intro tail
        rw [hcons, List.cons_append, jsonSkip_of_lt hlt]
      cases objs with
      | nil =>
          obtain rfl : objs' = [] := List.forall₂_nil_left_iff.mp hobjs
          simp only [elementsToJson, List.isEmpty_nil, if_true, List.append_nil] at hfuel ⊢
          rw [parseElements, hskip, hobj.reads fuel _ (by omega) (endsValue_cons (by decide) ext)]
          simp only [jsonSkip_of_lt (show 32 < rbracket.toNat by decide),
            if_neg (show rbracket ≠ comma by decide), if_true]
          rfl
      | cons next objs =>
          simp only [elementsToJson.eq_2 obj, List.isEmpty_cons, Bool.false_eq_true, if_false,
            List.append_assoc, List.cons_append, List.nil_append, List.length_append,
            List.length_cons] at hfuel ⊢
          rw [parseElements, hskip, hobj.reads fuel _ (by omega) (endsValue_cons (by decide) _)]
          simp only [jsonSkip_of_lt (show 32 < comma.toNat by decide), if_true, nroAppendArray]
          rw [ih (by simp) (pre ++ [obj']) fuel (by omega), List.append_assoc, List.singleton_append]

theorem readsAs_array {objs objs' : List NrObj} (h : List.Forall₂ (ReadsAs unset) objs objs') :
    ReadsAs unset (.array objs) (.array objs') := by
  refine ⟨⟨lbracket, _, by rw [recursiveObjToJson], by decide, by decide⟩, ?_⟩
  rintro (_ | fuel) ext hfuel hext
  · omega
  rw [recursiveObjToJson] at hfuel ⊢
  cases h with
  | nil => exact parseValue_array_nil unset fuel ext
  | @cons obj obj' objs objs' hobj hobjs =>
      obtain ⟨c, cs, hcons, hlt, hne⟩ := hobj.starts
      have hall := List.Forall₂.cons hobj hobjs
      have helements := parseElements_elementsToJson unset hall (by simp) [] fuel ext
        (by simp only [List.length_cons, List.length_append, List.length_nil] at hfuel; omega)
      rw [List.nil_append, elementsToJson, hcons] at helements
      simp only [List.cons_append, List.append_assoc] at helements
      rw [elementsToJson, hcons]
      simp only [List.cons_append, List.append_assoc, List.nil_append]
      rw [parseValue_lbracket unset hlt hne, helements]

/-- The entry is read under its own key. -/
structure EntryReadsAs (entry entry' : Bytes × NrObj) : Prop where
  key_eq : entry'.1 = entry.1
  key : IsBmpString entry.1
  key_ne_nil : entry.1 ≠ []
  value : ReadsAs unset entry.2 entry'.2

theorem setEntry_of_notMem {key : Bytes} {entries : List (Bytes × NrObj)}
    (h : key ∉ entries.map Prod.fst) (value : NrObj) :
    setEntry key value entries = entries ++ [(key, value)] := by
  induction entries with
  | nil => rfl
  | cons entry entries ih =>
      obtain ⟨k, v⟩ := entry
      simp only [List.map_cons, List.mem_cons, not_or] at h
      rw [setEntry, if_neg (Ne.symm h.1), ih h.2]
      rfl

theorem nroSetHash_of_notMem {key : Bytes} (hne : key ≠ []) {entries : List (Bytes × NrObj)}
    (h : key ∉ entries.map Prod.fst) (value : NrObj) :
    nroSetHash (.hash entries) key value = .hash (entries ++ [(key, value)]) := by
  rw [nroSetHash]
  simp only [if_neg hne, setEntry_of_notMem h]

theorem jsonSkip_nrJsonEscape (key tail : Bytes) :
    jsonSkip (nrJsonEscape key ++ tail) = nrJsonEscape key ++ tail := by
  rw [nrJsonEscape, List.cons_append, jsonSkip_of_lt (by decide)]

theorem parseMembers_next {entry entry' : Bytes × NrObj} (h : EntryReadsAs unset entry entry')
    (next : Bytes × NrObj) (entries : List (Bytes × NrObj)) (item : NrObj) {fuel : ℕ}
    (hfuel : 2 * (recursiveObjToJson entry.2).length < fuel) (tail : Bytes) :
    parseMembers unset (fuel + 1) item (entriesToJson (entry :: next :: entries) ++ tail) =
      parseMembers unset fuel (nroSetHash item entry.1 entry'.2)
        (entriesToJson (next :: entries) ++ tail) := by
  obtain ⟨key, obj⟩ := entry
  obtain ⟨c, cs, hcons, hlt, -⟩ := h.value.starts
  have hskip : ∀ tail, jsonSkip (recursiveObjToJson obj ++ tail) =
      recursiveObjToJson obj ++ tail := by
    intro tail
    rw [hcons, List.cons_append, jsonSkip_of_lt hlt]
  simp only [entriesToJson.eq_2 key obj, List.isEmpty_cons, Bool.false_eq_true, if_false,
    List.append_assoc, List.cons_append, List.nil_append]
  rw [parseMembers, jsonSkip_nrJsonEscape, parseString_nrJsonEscape unset h.key]
  simp only [jsonSkip_of_lt (show 32 < colon.toNat by decide), if_true, hskip]
  rw [h.value.reads fuel _ hfuel (endsValue_cons (by decide) _)]
  simp only [jsonSkip_of_lt (show 32 < comma.toNat by decide), if_true]

theorem parseMembers_last {entry entry' : Bytes × NrObj} (h : EntryReadsAs unset entry entry')
    (item : NrObj) {fuel : ℕ} (hfuel : 2 * (recursiveObjToJson entry.2).length < fuel)
    (ext : Bytes) :
    parseMembers unset (fuel + 1) item (entriesToJson [entry] ++ rbrace :: ext) =
      some (nroSetHash item entry.1 entry'.2, ext) := by
  obtain ⟨key, obj⟩ := entry
  obtain ⟨c, cs, hcons, hlt, -⟩ := h.value.starts
  have hskip : ∀ tail, jsonSkip (recursiveObjToJson obj ++ tail) =
      recursiveObjToJson obj ++ tail := by
    intro tail
    rw [hcons, List.cons_append, jsonSkip_of_lt hlt]
  simp only [entriesToJson, List.isEmpty_nil, if_true, List.append_nil, List.append_assoc,
    List.cons_append]
  rw [parseMembers, jsonSkip_nrJsonEscape, parseString_nrJsonEscape unset h.key]
  simp only [jsonSkip_of_lt (show 32 < colon.toNat by decide), if_true, hskip]
  rw [h.value.reads fuel _ hfuel (endsValue_cons (by decide) ext)]
  simp only [jsonSkip_of_lt (show 32 < rbrace.toNat by decide),
    if_neg (show rbrace ≠ comma by decide), if_true]

theorem length_entriesToJson_cons (entry : Bytes × NrObj) (entries : List (Bytes × NrObj)) :
    (recursiveObjToJson entry.2).length + (entriesToJson entries).length + 1 ≤
      (entriesToJson (entry :: entries)).length := by
  obtain ⟨key, obj⟩ := entry
  rw [entriesToJson]
  simp only [List.length_append, List.length_cons]
  omega

theorem parseMembers_entriesToJson {entries entries' : List (Bytes × NrObj)}
    (h : List.Forall₂ (EntryReadsAs unset) entries entries') (hne : entries ≠ [])
    (pre : List (Bytes × NrObj)) (hkeys : ((pre ++ entries).map Prod.fst).Nodup) (fuel : ℕ)
    (ext : Bytes) (hfuel : 2 * (entriesToJson entries).length + 1 < fuel) :
    parseMembers unset fuel (.hash pre) (entriesToJson entries ++ rbrace :: ext) =
      some (.hash (pre ++ entries'), ext) := by
  induction h generalizing pre fuel with
  | nil => exact absurd rfl hne
  | @cons entry entry' entries entries' hentry hentries ih =>
      obtain _ | fuel := fuel
      · omega
      have hlength := length_entriesToJson_cons entry entries
      have hfresh : entry.1 ∉ pre.map Prod.fst := by
        simp only [List.map_append, List.map_cons, List.nodup_append, List.mem_cons] at hkeys
        exact fun hmem => hkeys.2.2 entry.1 hmem entry.1 (Or.inl rfl) rfl
      have hset : nroSetHash (.hash pre) entry.1 entry'.2 = .hash (pre ++ [entry']) := by
        rw [nroSetHash_of_notMem hentry.key_ne_nil hfresh, ← hentry.key_eq]
      cases entries with
      | nil =>
          obtain rfl : entries' = [] := List.forall₂_nil_left_iff.mp hentries
          rw [parseMembers_last unset hentry _ (by omega), hset]
      | cons next entries =>
          have hkeys' : ((pre ++ [entry'] ++ next :: entries).map Prod.fst).Nodup := by
            simpa [hentry.key_eq] using hkeys
          rw [parseMembers_next unset hentry next entries _ (by omega), hset,
            ih (by simp) _ hkeys' fuel (by omega), List.append_assoc, List.singleton_append]

/-- The text of the object is not read as a value that something may follow. -/
def Unreadable (obj : NrObj) : Prop :=
  ∀ fuel ext, 2 * (recursiveObjToJson obj).length < fuel →
    parseValue unset fuel (recursiveObjToJson obj ++ ext) = none ∨
      ∃ value b bs, parseValue unset fuel (recursiveObjToJson obj ++ ext) = some (value, b :: bs) ∧
        32 < b.toNat ∧ b ≠ comma ∧ b ≠ rbrace

theorem parseMembers_unreadable {entries entries' : List (Bytes × NrObj)}
    (h : List.Forall₂ (EntryReadsAs unset) entries entries') {key : Bytes} (hkey : IsBmpString key)
    {obj : NrObj} (hstarts : ∃ c cs, recursiveObjToJson obj = c :: cs ∧ 32 < c.toNat)
    (hobj : Unreadable unset obj) (rest : List (Bytes × NrObj)) (item : NrObj) (fuel : ℕ)
    (tail : Bytes) (hfuel : 2 * (entriesToJson (entries ++ (key, obj) :: rest)).length + 1 < fuel) :
    parseMembers unset fuel item (entriesToJson (entries ++ (key, obj) :: rest) ++ tail) = none := by
  induction h generalizing item fuel with
  | nil =>
      obtain _ | fuel := fuel
      · rfl
      have hlength := length_entriesToJson_cons (key, obj) rest
      rw [List.nil_append] at hfuel ⊢
      simp only at hlength
      obtain ⟨c, cs, hcons, hlt⟩ := hstarts
      have hskip : ∀ tail, jsonSkip (recursiveObjToJson obj ++ tail) =
          recursiveObjToJson obj ++ tail := by
        intro tail
        rw [hcons, List.cons_append, jsonSkip_of_lt hlt]
      simp only [entriesToJson, List.append_assoc, List.cons_append]
      rw [parseMembers, jsonSkip_nrJsonEscape, parseString_nrJsonEscape unset hkey]
      simp only [jsonSkip_of_lt (show 32 < colon.toNat by decide), if_true, hskip]
      rcases hobj fuel _ (by omega) with hnone | ⟨value, b, bs, hsome, hb, hcomma, hrbrace⟩
      · rw [hnone]
      · rw [hsome]
        simp only [jsonSkip_of_lt hb, if_neg hcomma, if_neg hrbrace]
  | @cons entry entry' entries entries' hentry hentries ih =>
      obtain _ | fuel := fuel
      · rfl
      rw [List.cons_append] at hfuel ⊢
      have hlength := length_entriesToJson_cons entry (entries ++ (key, obj) :: rest)
      obtain ⟨next, more, hmore⟩ : ∃ next more, entries ++ (key, obj) :: rest = next :: more := by
        cases entries with
        | nil => exact ⟨_, _, rfl⟩
        | cons next more => exact ⟨_, _, rfl⟩
      rw [hmore] at hfuel hlength ⊢
      rw [parseMembers_next unset hentry next more _ (by omega), ← hmore]
      exact ih _ fuel (by rw [hmore]; omega)

theorem readsAs_hash {entries entries' : List (Bytes × NrObj)}
    (h : List.Forall₂ (EntryReadsAs unset) entries entries')
    (hkeys : (entries.map Prod.fst).Nodup) :
    ReadsAs unset (.hash entries) (.hash entries') := by
  refine ⟨⟨lbrace, _, by rw [recursiveObjToJson], by decide, by decide⟩, ?_⟩
  rintro (_ | fuel) ext hfuel hext
  · omega
  rw [recursiveObjToJson] at hfuel ⊢
  cases h with
  | nil => exact parseValue_hash_nil unset fuel ext
  | @cons entry entry' entries entries' hentry hentries =>
      obtain ⟨key, obj⟩ := entry
      have hall := List.Forall₂.cons hentry hentries
      have hmembers := parseMembers_entriesToJson unset hall (by simp) [] hkeys fuel ext
        (by simp only [List.length_cons, List.length_append, List.length_nil] at hfuel; omega)
      rw [List.nil_append, entriesToJson, nrJsonEscape] at hmembers
      simp only [List.cons_append, List.append_assoc] at hmembers
      rw [entriesToJson, nrJsonEscape]
      simp only [List.cons_append, List.append_assoc, List.nil_append]
      rw [parseValue_lbrace unset (by decide) (by decide), ← hmembers]
      simp

theorem unreadable_hash {entries entries' : List (Bytes × NrObj)}
    (h : List.Forall₂ (EntryReadsAs unset) entries entries') {key : Bytes} (hkey : IsBmpString key)
    {obj : NrObj} (hstarts : ∃ c cs, recursiveObjToJson obj = c :: cs ∧ 32 < c.toNat)
    (hobj : Unreadable unset obj) (rest : List (Bytes × NrObj)) :
    Unreadable unset (.hash (entries ++ (key, obj) :: rest)) := by
  rintro (_ | fuel) ext hfuel
  · omega
  left
  rw [recursiveObjToJson] at hfuel ⊢
  have hnone := parseMembers_unreadable unset h hkey hstarts hobj rest (.hash []) fuel
    (rbrace :: ext)
    (by simp only [List.length_cons, List.length_append, List.length_nil] at hfuel; omega)
  obtain ⟨cs, hquote⟩ : ∃ cs, entriesToJson (entries ++ (key, obj) :: rest) = quote :: cs := by
    cases entries with
    | nil =>
        rw [List.nil_append, entriesToJson, nrJsonEscape]
        exact ⟨_, rfl⟩
    | cons entry entries =>
        obtain ⟨k, v⟩ := entry
        rw [List.cons_append, entriesToJson, nrJsonEscape]
        exact ⟨_, rfl⟩
  rw [hquote, List.cons_append] at hnone
  rw [hquote]
  simp only [List.cons_append, List.append_assoc, List.nil_append]
  rw [parseValue_lbrace unset (by decide) (by decide), hnone]

theorem ReadsAs.nroCreateFromJson_eq {obj obj' : NrObj} (h : ReadsAs unset obj obj') :
    nroCreateFromJson unset (nroToJson (some obj)) = some obj' := by
  obtain ⟨c, cs, hcons, hlt, -⟩ := h.starts
  have hread := h.reads (2 * (recursiveObjToJson obj).length + 2) [] (by omega) endsValue_nil
  rw [List.append_nil] at hread
  rw [nroCreateFromJson, nroToJson]
  have hskip : jsonSkip (recursiveObjToJson obj) = recursiveObjToJson obj := by
    rw [hcons, jsonSkip_of_lt hlt]
  rw [if_neg (by rw [hcons]; simp), hskip, hread]
  rfl

theorem Unreadable.nroCreateFromJson_eq {entries : List (Bytes × NrObj)}
    (h : Unreadable unset (.hash entries)) :
    nroCreateFromJson unset (nroToJson (some (.hash entries))) = none := by
  have hcons : recursiveObjToJson (.hash entries) = lbrace :: (entriesToJson entries ++ [rbrace]) :=
    by rw [recursiveObjToJson]
  have hskip : jsonSkip (recursiveObjToJson (.hash entries)) =
      recursiveObjToJson (.hash entries) := by
    rw [hcons, jsonSkip_of_lt (by decide)]
  have hread := h (2 * (recursiveObjToJson (.hash entries)).length + 2) [] (by omega)
  rw [List.append_nil] at hread
  rw [nroCreateFromJson, nroToJson]
  simp only [hskip]
  rw [if_neg (by rw [hcons]; simp)]
  rcases hread with hnone | ⟨value, b, bs, hsome, hlt, -⟩
  · rw [hnone]
  · rw [hsome]
    simp only [jsonSkip_of_lt hlt, reduceCtorEq, if_false]

/-! ### Doubles, and strings of any bytes -/

theorem format_starts (d : FiniteDouble) (k : ℕ) :
    ∃ c cs, (Double.finite d).format k = c :: cs ∧ (c = minus ∨ isDigit c = true) := by
  generalize hn : roundHalfEven (d.scaled * 10 ^ k) unitScale = n
  simp only [Double.format, hn]
  cases d.negative with
  | true => exact ⟨minus, _, rfl, Or.inl rfl⟩
  | false =>
      obtain ⟨e, es, hdecimal⟩ : ∃ e es, decimal (n / 10 ^ k) = e :: es := by
        rcases decimal_eq_digitBytes (n / 10 ^ k) with ⟨-, h⟩ | ⟨d, ds, h, -⟩
        · exact ⟨_, _, h⟩
        · exact ⟨_, _, h⟩
      have hmem : e ∈ decimal (n / 10 ^ k) := by
        rw [hdecimal]
        exact List.mem_cons_self
      rw [hdecimal]
      exact ⟨e, _, rfl, Or.inr (Json.isDigit_of_mem_decimal hmem)⟩

theorem double_starts (d : Double) :
    ∃ c cs, recursiveObjToJson (.double d) = c :: cs ∧ 32 < c.toNat := by
  rw [recursiveObjToJson]
  cases d with
  | finite d =>
      obtain ⟨c, cs, hcons, hc⟩ := format_starts d 5
      exact ⟨c, cs, hcons, (lt_of_minus_or_digit hc).1⟩
  | infinite negative =>
      cases negative with
      | true => exact ⟨minus, ascii "inf", rfl, by decide⟩
      | false => exact ⟨0x69, ascii "nf", by decide, by decide⟩
  | nan negative =>
      cases negative with
      | true => exact ⟨minus, ascii "nan", rfl, by decide⟩
      | false => exact ⟨0x6e, ascii "an", by decide, by decide⟩

/-- A finite double is read as a double, though not as itself. -/
theorem exists_readsAs_double (d : FiniteDouble) :
    ∃ d', ReadsAs unset (.double (.finite d)) (.double d') := by
  obtain ⟨c, cs, hcons, hc⟩ := format_starts d 5
  obtain ⟨hlt, hne⟩ := lt_of_minus_or_digit hc
  have htext : recursiveObjToJson (.double (.finite d)) = (Double.finite d).format 5 := by
    rw [recursiveObjToJson]
  obtain ⟨d', hd'⟩ := strtod_format d 5
  refine ⟨.finite d', ⟨c, cs, htext.trans hcons, hlt, hne⟩, ?_⟩
  rintro (_ | fuel) ext hfuel hext
  · omega
  · have hnumber : parseNumber ((Double.finite d).format 5 ++ ext) = (.double (.finite d'), ext) := by
      obtain ⟨int, frac, hformat, -⟩ := format_eq d 5
      -- the integer part ends at the point
      have hint := strtol_signed d.negative int
        (endsNumber_cons (show hexValue dot = none ∧ dot ≠ 0x78 ∧ dot ≠ 0x58 by decide)
          (digitBytes frac ++ ext))
      rw [← List.cons_append, ← List.append_assoc, ← hformat] at hint
      simp only [parseNumber, hint, List.cons_append, List.head?_cons, true_or, if_true,
        hd' ext hext.endsNumber]
    rw [hcons, List.cons_append] at hnumber
    rw [htext, hcons, List.cons_append, parseValue_number unset hc, hnumber]

theorem parseValue_letter {b : UInt8} (h : 0x5d < b.toNat) (hword : startsWord b = false)
    (hlbrace : b ≠ lbrace) (fuel : ℕ) (bs : Bytes) :
    parseValue unset (fuel + 1) (b :: bs) = none := by
  obtain ⟨hnull, hfalse, htrue⟩ := isPrefixOf_of_startsWord hword bs
  obtain ⟨hquote, hnumber, hlbracket⟩ :
      b ≠ quote ∧ ¬(b = minus ∨ isDigit b = true) ∧ b ≠ lbracket := by
    refine ⟨?_, ?_, ?_⟩
    · rintro rfl
      exact absurd h (by decide)
    · intro hcases
      have hrange : b = minus ∨ 0x30 ≤ b.toNat ∧ b.toNat ≤ 0x39 := by simpa [isDigit] using hcases
      rcases hrange with rfl | hrange
      · exact absurd h (by decide)
      · omega
    · rintro rfl
      exact absurd h (by decide)
  rw [parseValue]
  simp only [hnull, hfalse, htrue, if_neg hquote, if_neg hnumber, if_neg hlbracket, if_neg hlbrace]
  rfl

theorem unreadable_double {d : Double} (h : d.isFinite = false) :
    Unreadable unset (.double d) := by
  -- after a minus nothing is read, and the minus is left
  have hminus : ∀ {b : UInt8} (bs : Bytes) (fuel : ℕ), hexValue b = none →
      ∃ value c cs, parseValue unset (fuel + 1) (minus :: b :: bs) = some (value, c :: cs) ∧
        32 < c.toNat ∧ c ≠ comma ∧ c ≠ rbrace := by
    intro b bs fuel hb
    refine ⟨.int 0, minus, b :: bs, ?_, by decide, by decide, by decide⟩
    rw [parseValue_number unset (Or.inl rfl)]
    simp only [parseNumber, strtol_minus_eq hb, List.head?_cons]
    rfl
  have hinf : ascii "inf" = 0x69 :: ascii "nf" := by decide
  have hnan : ascii "nan" = 0x6e :: 0x61 :: ascii "n" := by decide
  rintro (_ | fuel) ext hfuel
  · omega
  rw [recursiveObjToJson]
  cases d with
  | finite d => exact absurd h (by simp [Double.isFinite])
  | infinite negative =>
      cases negative with
      | true =>
          right
          rw [Double.format, if_pos rfl, hinf]
          exact hminus _ fuel (by decide)
      | false =>
          left
          rw [Double.format, if_neg (by decide), hinf]
          exact parseValue_letter unset (by decide) (by decide) (by decide) fuel _
  | nan negative =>
      cases negative with
      | true =>
          right
          rw [Double.format, if_pos rfl, hnan]
          exact hminus _ fuel (by decide)
      | false =>
          left
          have hnull : ascii "null" = 0x6e :: 0x75 :: ascii "ll" := by decide
          have hfalse : ascii "false" = 0x66 :: ascii "alse" := by decide
          have htrue : ascii "true" = 0x74 :: ascii "rue" := by decide
          rw [Double.format, if_neg (by decide), hnan, parseValue.eq_def, hnull, hfalse, htrue]
          rfl

theorem exists_readsAs_string (s : Bytes) : ∃ s', ReadsAs unset (.string s) (.string s') := by
  obtain ⟨units, items, hscan, -⟩ := exists_spells_escapeLoop s
  refine ⟨(items.flatMap storedItem).takeWhile (· ≠ 0),
    ⟨quote, escapeLoop s ++ [quote], by rw [recursiveObjToJson]; rfl, by decide, by decide⟩, ?_⟩
  rintro (_ | fuel) ext hfuel -
  · omega
  · obtain ⟨hclosing, hcopy⟩ := copyString_of_scanString unset (hscan ext)
    rw [recursiveObjToJson, nrJsonEscape, List.cons_append, parseValue_string, List.append_assoc,
      List.singleton_append, parseString]
    simp only [hclosing, hcopy, and_self, if_true, List.head?_cons, List.tail_cons, Option.map_some]

end

/-! ### No zero byte -/

theorem zero_notMem_escapeUnit (u : ℕ) : (0 : UInt8) ∉ escapeUnit u := by
  have hdigit : ∀ n, 0 ≠ hexDigit (n % 16) := by
    intro n
    have hall : ∀ d : Fin 16, 0 ≠ hexDigit d.val := by decide
    exact hall ⟨n % 16, Nat.mod_lt _ (by decide)⟩
  simp [escapeUnit, backslash, hdigit]

theorem zero_notMem_escapeLoop (json : Bytes) : 0 ∉ escapeLoop json := by
  have hunit : ∀ {u : ℕ} {bs : Bytes}, 0 ∉ bs → 0 ∉ escapeUnit u ++ bs := by
    intro u bs h hmem
    rcases List.mem_append.mp hmem with hmem | hmem
    · exact zero_notMem_escapeUnit u hmem
    · exact h hmem
  have hcons : ∀ {b : UInt8} {bs : Bytes}, b ≠ 0 → 0 ∉ bs → 0 ∉ b :: bs := by
    intro b bs hb h hmem
    rcases List.mem_cons.mp hmem with hmem | hmem
    · exact hb hmem.symm
    · exact h hmem
  fun_induction escapeLoop json with
  | case1 => simp
  | case2 b bs e he ih =>
      have hne : e ≠ 0 := by
        rintro rfl
        exact absurd (escapeChar_eq_some he).1 (by simp [show unescape 0 = none by decide])
      exact hcons (by decide) (hcons hne ih)
  | case4 b bs he hb hcontrol ih =>
      have hne : b ≠ 0 := by
        rintro rfl
        exact hcontrol (Or.inl (by decide))
      exact hcons hne ih
  | case7 b he hb hb' => exact zero_notMem_escapeUnit b.toNat
  | case11 b he hb hb' hb'' hb''' b₁ b₂ b₃ cs hcont ih =>
      rw [escapePair, List.append_assoc]
      exact hunit (hunit ih)
  | _ => exact hunit (by assumption)

theorem zero_notMem_string (s : Bytes) : 0 ∉ recursiveObjToJson (.string s) := by
  rw [recursiveObjToJson, nrJsonEscape]
  simp [quote, zero_notMem_escapeLoop s]

theorem zero_notMem_decimal (n : ℕ) : 0 ∉ decimal n :=
  fun hmem => absurd (Json.isDigit_of_mem_decimal hmem) (by decide)

theorem zero_notMem_int (i : ℤ) : 0 ∉ recursiveObjToJson (.int i) := by
  rw [recursiveObjToJson, signedDecimal]
  split <;> simp [minus, zero_notMem_decimal i.natAbs]

theorem zero_notMem_double (d : Double) : 0 ∉ recursiveObjToJson (.double d) := by
  rw [recursiveObjToJson]
  cases d with
  | finite d =>
      have hdigits : ∀ n, 0 ∉ fixedDigits 5 n :=
        fun n hmem => absurd (isDigit_of_mem_fixedDigits hmem) (by decide)
      rw [Double.format]
      split <;> simp [minus, dot, zero_notMem_decimal, hdigits]
  | infinite negative => cases negative <;> decide
  | nan negative => cases negative <;> decide

/-! ### Objects that survive -/

mutual

/-- The objects without doubles and without ready-made JSON: integers are in the
range of their C type, strings are of the basic multilingual plane, and the
keys of a hash are distinct and not empty. -/
def IsPlainObject : NrObj → Prop
  | .none => True
  | .boolean _ => True
  | .int i => -2 ^ 31 ≤ i ∧ i < 2 ^ 31
  | .long l => -2 ^ 63 ≤ l ∧ l < 2 ^ 63
  | .double _ => False
  | .string s => IsBmpString s
  | .jstring _ => False
  | .hash entries => ArePlainEntries entries ∧ (entries.map Prod.fst).Nodup
  | .array elements => ArePlainElements elements

def ArePlainEntries : List (Bytes × NrObj) → Prop
  | [] => True
  | (key, value) :: entries =>
      (IsBmpString key ∧ key ≠ [] ∧ IsPlainObject value) ∧ ArePlainEntries entries

def ArePlainElements : List NrObj → Prop
  | [] => True
  | value :: elements => IsPlainObject value ∧ ArePlainElements elements

end

mutual

/-- What is left of an object when the widths of its integers are forgotten. -/
def widen : NrObj → NrObj
  | .int i => .long i
  | .hash entries => .hash (widenEntries entries)
  | .array elements => .array (widenElements elements)
  | obj => obj

def widenEntries : List (Bytes × NrObj) → List (Bytes × NrObj)
  | [] => []
  | (key, value) :: entries => (key, widen value) :: widenEntries entries

def widenElements : List NrObj → List NrObj
  | [] => []
  | value :: elements => widen value :: widenElements elements

end

/-- The second object is what the first one is read as: the same but for the
widths of integers, and with the same text. -/
structure Survives (unset : Bytes → ℕ) (obj obj' : NrObj) : Prop where
  reads : ReadsAs unset obj obj'
  widen_eq : widen obj' = widen obj
  json_eq : recursiveObjToJson obj' = recursiveObjToJson obj

theorem survives_integer (unset : Bytes → ℕ) {obj : NrObj} {i : ℤ}
    (htext : recursiveObjToJson obj = signedDecimal i) (hwiden : widen obj = .long i)
    (hlo : -2 ^ 63 ≤ i) (hhi : i < 2 ^ 63) : Survives unset obj (readInteger i) := by
  refine ⟨readsAs_integer unset htext hlo hhi, ?_, ?_⟩
  · rw [hwiden, readInteger]
    split_ifs <;> simp [widen]
  · rw [htext, readInteger]
    split_ifs <;> simp [recursiveObjToJson]

mutual

theorem exists_survives (unset : Bytes → ℕ) (obj : NrObj) (h : IsPlainObject obj) :
    ∃ obj', Survives unset obj obj' := by
  cases obj with
  | none => exact ⟨.none, readsAs_none unset, rfl, rfl⟩
  | boolean b => exact ⟨.boolean b, readsAs_boolean unset b, rfl, rfl⟩
  | int i =>
      have hrange : -2 ^ 31 ≤ i ∧ i < 2 ^ 31 := by simpa [IsPlainObject] using h
      exact ⟨readInteger i, survives_integer unset (by rw [recursiveObjToJson]) (by rw [widen])
        (by omega) (by omega)⟩
  | long l =>
      have hrange : -2 ^ 63 ≤ l ∧ l < 2 ^ 63 := by simpa [IsPlainObject] using h
      exact ⟨readInteger l, survives_integer unset (by rw [recursiveObjToJson]) (by simp [widen])
        hrange.1 hrange.2⟩
  | double d => simp [IsPlainObject] at h
  | string s =>
      have hs : IsBmpString s := by simpa [IsPlainObject] using h
      exact ⟨.string s, readsAs_string unset hs, rfl, rfl⟩
  | jstring s => simp [IsPlainObject] at h
  | hash entries =>
      rw [IsPlainObject] at h
      obtain ⟨entries', hentries, hwiden, hjson⟩ := exists_survives_entries unset entries h.1
      refine ⟨.hash entries', readsAs_hash unset hentries h.2, ?_, ?_⟩
      · rw [widen, widen, hwiden]
      · rw [recursiveObjToJson, recursiveObjToJson, hjson]
  | array elements =>
      rw [IsPlainObject] at h
      obtain ⟨elements', helements, hwiden, hjson⟩ := exists_survives_elements unset elements h
      refine ⟨.array elements', readsAs_array unset helements, ?_, ?_⟩
      · rw [widen, widen, hwiden]
      · rw [recursiveObjToJson, recursiveObjToJson, hjson]

theorem exists_survives_entries (unset : Bytes → ℕ) (entries : List (Bytes × NrObj))
    (h : ArePlainEntries entries) :
    ∃ entries', List.Forall₂ (EntryReadsAs unset) entries entries' ∧
      widenEntries entries' = widenEntries entries ∧
      entriesToJson entries' = entriesToJson entries := by
  match entries with
  | [] => exact ⟨[], .nil, rfl, rfl⟩
  | (key, value) :: entries =>
      rw [ArePlainEntries] at h
      obtain ⟨⟨hkey, hne, hvalue⟩, htail⟩ := h
      obtain ⟨value', hreads, hwiden, hjson⟩ := exists_survives unset value hvalue
      obtain ⟨entries', hentries, hwidens, hjsons⟩ := exists_survives_entries unset entries htail
      refine ⟨(key, value') :: entries', .cons ⟨rfl, hkey, hne, hreads⟩ hentries, ?_, ?_⟩
      · rw [widenEntries, widenEntries, hwiden, hwidens]
      · have hempty : entries'.isEmpty = entries.isEmpty := by
          cases hentries <;> rfl
        rw [entriesToJson, entriesToJson, hjson, hjsons, hempty]

theorem exists_survives_elements (unset : Bytes → ℕ) (elements : List NrObj)
    (h : ArePlainElements elements) :
    ∃ elements', List.Forall₂ (ReadsAs unset) elements elements' ∧
      widenElements elements' = widenElements elements ∧
      elementsToJson elements' = elementsToJson elements := by
  match elements with
  | [] => exact ⟨[], .nil, rfl, rfl⟩
  | value :: elements =>
      rw [ArePlainElements] at h
      obtain ⟨value', hreads, hwiden, hjson⟩ := exists_survives unset value h.1
      obtain ⟨elements', helements, hwidens, hjsons⟩ :=
        exists_survives_elements unset elements h.2
      refine ⟨value' :: elements', .cons hreads helements, ?_, ?_⟩
      · rw [widenElements, widenElements, hwiden, hwidens]
      · have hempty : elements'.isEmpty = elements.isEmpty := by
          cases helements <;> rfl
        rw [elementsToJson, elementsToJson, hjson, hjsons, hempty]

end

end AxiomDaemon.Util.ObjectJson

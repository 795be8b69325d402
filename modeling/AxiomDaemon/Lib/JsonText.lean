import AxiomDaemon.Lib.Json
import Mathlib.Data.List.Forall2
import Mathlib.Data.List.TakeWhile
import Mathlib.Data.Nat.Digits.Lemmas

/-!
Writing JSON: how a text is put together from texts that are known to be
JSON, and what it then stands for. Two notions are needed. A string, an array
or an object ends with a byte of its own and is read whatever follows it; a
number, or a text with white space around it, is read where a comma or a
closing bracket follows.
-/

namespace AxiomDaemon.Lib.Json

/-- The text stands for `v`, whatever follows it. -/
structure Reads (text : Bytes) (v : Json) : Prop where
  starts : ∃ b bs, text = b :: bs ∧ isWs b = false
  reads : ∀ fuel ext, text.length < fuel → parseValue fuel (text ++ ext) = some (v, ext)

/-- The text stands for `v` where a value is expected and a byte follows that
neither is white space nor continues a number. -/
def Embeds (text : Bytes) (v : Json) : Prop :=
  ∀ fuel c cs, text.length < fuel → isNumberByte c = false → isWs c = false →
    ∃ rest, parseValue fuel (skipWs (text ++ c :: cs)) = some (v, rest) ∧ skipWs rest = c :: cs

theorem skipWs_of_not_ws {b : UInt8} (h : isWs b = false) (bs : Bytes) :
    skipWs (b :: bs) = b :: bs := by
  simp [skipWs, h]

theorem skipWs_skipWs (bs : Bytes) : skipWs (skipWs bs) = skipWs bs := by
  induction bs with
  | nil => rfl
  | cons b bs ih =>
      by_cases hb : isWs b
      · simpa [skipWs, hb] using ih
      · simp [skipWs, hb]

theorem skipWs_append_of_skipWs_eq_nil {bs : Bytes} (h : skipWs bs = []) (ext : Bytes) :
    skipWs (bs ++ ext) = skipWs ext := by
  induction bs with
  | nil => rfl
  | cons b bs ih =>
      by_cases hb : isWs b
      · simp only [skipWs, List.cons_append, List.dropWhile_cons, hb, if_true] at h ih ⊢
        exact ih h
      · simp [skipWs, hb] at h

theorem Reads.embeds {text : Bytes} {v : Json} (h : Reads text v) : Embeds text v := by
  intro fuel c cs hfuel _ hc
  obtain ⟨b, bs, rfl, hb⟩ := h.starts
  refine ⟨c :: cs, ?_, skipWs_of_not_ws hc cs⟩
  rw [List.cons_append, skipWs_of_not_ws hb, ← List.cons_append]
  exact h.reads fuel (c :: cs) hfuel

theorem Reads.parse_eq {text : Bytes} {v : Json} (h : Reads text v) : parse text = some v := by
  obtain ⟨b, bs, rfl, hb⟩ := h.starts
  have hread := h.reads ((b :: bs).length + 1) [] (Nat.lt_succ_self _)
  rw [List.append_nil] at hread
  rw [parse, skipWs_of_not_ws hb, hread]
  rfl

theorem embeds_of_parse {text : Bytes} {v : Json} (h : parse text = some v) : Embeds text v := by
  intro fuel c cs hfuel hnum hc
  rw [parse] at h
  cases hval : parseValue (text.length + 1) (skipWs text) with
  | none => simp [hval] at h
  | some p =>
      obtain ⟨v', rest⟩ := p
      simp only [hval] at h
      split at h
      · next hrest =>
          obtain rfl : v' = v := by simpa using h
          cases hskip : skipWs text with
          | nil =>
              rw [hskip] at hval
              simp [parseValue] at hval
          | cons d ds =>
              rw [hskip] at hval
              refine ⟨rest ++ c :: cs, ?_, ?_⟩
              · rw [skipWs_append hskip, ← List.cons_append]
                exact (stable _).1 _ _ _ hval fuel hfuel _ fun _ => delimited_cons hnum
              · rw [skipWs_append_of_skipWs_eq_nil hrest, skipWs_of_not_ws hc]
      · simp at h

/-! ### Strings -/

/-- The text between the quotes of a string spells the code units. -/
def Spells (body : Bytes) (units : List ℕ) : Prop :=
  ∃ items, (∀ ext, scanString (body ++ quote :: ext) = some (items, ext)) ∧
    unitsOf items = some units

theorem spells_nil : Spells [] [] := ⟨[], fun ext => scanString_quote ext, rfl⟩

theorem Spells.escape {body : Bytes} {units : List ℕ} (h : Spells body units) {e : UInt8} {u : ℕ}
    (he : unescape e = some u) : Spells (backslash :: e :: body) (u :: units) := by
  obtain ⟨items, hscan, hunits⟩ := h
  refine ⟨.unit u :: items, fun ext => ?_, by simp [unitsOf, hunits]⟩
  rw [List.cons_append, List.cons_append, scanString_escape he, hscan ext]
  rfl

theorem Spells.hex {body : Bytes} {units : List ℕ} (h : Spells body units) {w x y z : UInt8}
    {u : ℕ} (hu : hexUnit w x y z = some u) :
    Spells (backslash :: 0x75 :: w :: x :: y :: z :: body) (u :: units) := by
  obtain ⟨items, hscan, hunits⟩ := h
  refine ⟨.unit u :: items, fun ext => ?_, by simp [unitsOf, hunits]⟩
  simp only [List.cons_append]
  rw [scanString_hex hu, hscan ext]
  rfl

/-- The bytes that stand for themselves in a string. -/
def isPlain (b : UInt8) : Bool := b ≠ quote && b ≠ backslash && !decide (b.toNat < 0x20)

theorem scanString_isPlain {b : UInt8} (h : isPlain b = true) (bs : Bytes) :
    scanString (b :: bs) = (scanString bs).map fun p => (.lit b :: p.1, p.2) := by
  simp only [isPlain, ne_eq, Bool.and_eq_true, Bool.not_eq_true', decide_eq_false_iff_not,
    decide_not] at h
  exact scanString_plain h.1.1 h.1.2 h.2 bs

theorem Spells.plain {body : Bytes} {units : List ℕ} (h : Spells body units) {b : UInt8}
    (hb : isPlain b = true) (hascii : b.toNat < 0x80) :
    Spells (b :: body) (b.toNat :: units) := by
  obtain ⟨items, hscan, hunits⟩ := h
  refine ⟨.lit b :: items, fun ext => ?_, by rw [unitsOf.eq_def]; simp [hascii, hunits]⟩
  rw [List.cons_append, scanString_isPlain hb, hscan ext]
  rfl

theorem spells_self {body : Bytes} {units : List ℕ} (hplain : ∀ b ∈ body, isPlain b = true)
    (hunits : utf16 body = some units) : Spells body units := by
  refine ⟨body.map .lit, fun ext => ?_, hunits⟩
  clear hunits
  induction body with
  | nil => exact scanString_quote ext
  | cons b body ih =>
      rw [List.cons_append, scanString_isPlain (hplain b (by simp)),
        ih fun c hc => hplain c (by simp [hc])]
      rfl

/-- The bytes of ASCII that stand for themselves. -/
def isPlainAscii (b : UInt8) : Bool := isPlain b && decide (b.toNat < 0x80)

theorem isPlainAscii_iff {b : UInt8} :
    isPlainAscii b = true ↔ isPlain b = true ∧ b.toNat < 0x80 := by
  rw [isPlainAscii, Bool.and_eq_true, decide_eq_true_iff]

theorem utf16_of_all_isPlainAscii {body : Bytes} (h : body.all isPlainAscii = true) :
    utf16 body = some (body.map UInt8.toNat) :=
  utf16_of_ascii fun b hb => (isPlainAscii_iff.mp (List.all_eq_true.mp h b hb)).2

theorem spells_ascii {body : Bytes} (h : body.all isPlainAscii = true) :
    Spells body (body.map UInt8.toNat) :=
  spells_self (fun b hb => (isPlainAscii_iff.mp (List.all_eq_true.mp h b hb)).1)
    (utf16_of_all_isPlainAscii h)

theorem Spells.parseString_eq {body : Bytes} {units : List ℕ} (h : Spells body units)
    (ext : Bytes) : parseString (body ++ quote :: ext) = some (units, ext) := by
  obtain ⟨items, hscan, hunits⟩ := h
  rw [parseString, hscan ext]
  simp [hunits]

theorem reads_str {body : Bytes} {units : List ℕ} (h : Spells body units) :
    Reads (quote :: (body ++ [quote])) (.str units) := by
  refine ⟨⟨quote, _, rfl, by decide⟩, ?_⟩
  rintro (_ | fuel) ext hfuel
  · omega
  rw [List.cons_append, parseValue, if_pos rfl, List.append_assoc, List.singleton_append,
    h.parseString_eq]
  rfl

/-! ### Numbers and words -/

theorem parseNumber_starts {b : UInt8} {bs text rest : Bytes}
    (h : parseNumber (b :: bs) = some (text, rest)) : b = minus ∨ isDigit b = true := by
  rw [parseNumber] at h
  split at h
  · next hb => exact Or.inl hb
  · right
    rw [parseUnsigned, parseInt] at h
    by_contra hd
    have hzero : b ≠ zero := by
      rintro rfl
      exact hd (by decide)
    simp [hzero, hd] at h

theorem embeds_num {text : Bytes}
    (h : ∀ ext, Delimited ext → parseNumber (text ++ ext) = some (text, ext)) :
    Embeds text (.num text) := by
  rintro (_ | fuel) c cs hfuel hnum hc
  · omega
  have hread := h (c :: cs) (delimited_cons hnum)
  cases text with
  | nil =>
      have hnil := h [] delimited_nil
      simp [parseNumber] at hnil
  | cons b bs =>
      have hne : ∀ d : UInt8, d ≠ minus → isDigit d = false → b ≠ d := by
        rintro d hminus hdigit rfl
        rcases parseNumber_starts hread with hb | hb
        · exact hminus hb
        · simp [hdigit] at hb
      have hws : isWs b = false := by
        rcases parseNumber_starts hread with rfl | hb
        · decide
        · by_contra hbw
          simp only [isWs, Bool.not_eq_false, Bool.or_eq_true, decide_eq_true_eq] at hbw
          rcases hbw with ((rfl | rfl) | rfl) | rfl <;> exact absurd hb (by decide)
      refine ⟨c :: cs, ?_, skipWs_of_not_ws hc cs⟩
      rw [List.cons_append] at hread ⊢
      rw [skipWs_of_not_ws hws, parseValue, if_neg (hne quote (by decide) (by decide)),
        if_neg (hne lbracket (by decide) (by decide)),
        if_neg (hne lbrace (by decide) (by decide)),
        if_neg (hne 0x74 (by decide) (by decide)), if_neg (hne 0x66 (by decide) (by decide)),
        if_neg (hne 0x6e (by decide) (by decide)), hread]
      rfl

/-- The integer part of a number: `0`, or digits of which the first is not. -/
def IntText (text : Bytes) : Prop :=
  text = [zero] ∨ ∃ b bs, text = b :: bs ∧ b ≠ zero ∧ isDigit b = true ∧
    ∀ d ∈ bs, isDigit d = true

theorem digits_spanned {ds ext : Bytes} (hds : ∀ d ∈ ds, isDigit d = true)
    (hext : ∀ b bs, ext = b :: bs → isDigit b = false) :
    (ds ++ ext).takeWhile isDigit = ds ∧ (ds ++ ext).dropWhile isDigit = ext := by
  have hstop : ds.dropWhile isDigit = [] → ∀ b bs, ext = b :: bs → isDigit b = false :=
    fun _ => hext
  have happ := takeWhile_append_of_stop hstop
  have htake : ds.takeWhile isDigit = ds := List.takeWhile_eq_self_iff.mpr hds
  have hdrop : ds.dropWhile isDigit = [] := List.dropWhile_eq_nil_iff.mpr hds
  rw [happ.1, happ.2, htake, hdrop]
  exact ⟨rfl, rfl⟩

theorem IntText.parseInt_eq {text ext : Bytes} (h : IntText text)
    (hext : ∀ b bs, ext = b :: bs → isDigit b = false) :
    parseInt (text ++ ext) = some (text, ext) := by
  rcases h with rfl | ⟨b, bs, rfl, hzero, hb, hbs⟩
  · rfl
  · obtain ⟨htake, hdrop⟩ := digits_spanned hbs hext
    simp [parseInt, hzero, hb, htake, hdrop]

theorem Delimited.not_isDigit {ext : Bytes} (h : Delimited ext) (b : UInt8) (bs : Bytes)
    (heq : ext = b :: bs) : isDigit b = false :=
  isDigit_of_not_numberByte (h b bs heq)

theorem Delimited.parseExp_eq {ext : Bytes} (h : Delimited ext) :
    parseExp ext = some ([], ext) := by
  have hnil : parseExp [] = some ([], []) := rfl
  exact parseExp_append hnil fun _ => h

theorem Delimited.parseFrac_eq {ext : Bytes} (h : Delimited ext) :
    parseFrac ext = some ([], ext) := by
  have hnil : parseFrac [] = some ([], []) := rfl
  exact parseFrac_append hnil fun _ => h

theorem parseNumber_of_ne_minus {b : UInt8} (h : b ≠ minus) (bs : Bytes) :
    parseNumber (b :: bs) = parseUnsigned (b :: bs) := by
  rw [parseNumber, if_neg h]

theorem IntText.parseNumber_append {text : Bytes} (h : IntText text) (ext : Bytes) :
    parseNumber (text ++ ext) = parseUnsigned (text ++ ext) := by
  rcases h with rfl | ⟨b, bs, rfl, -, hb, -⟩
  · rfl
  · refine parseNumber_of_ne_minus ?_ _
    rintro rfl
    exact absurd hb (by decide)

theorem IntText.embeds {text : Bytes} (h : IntText text) : Embeds text (.num text) := by
  refine embeds_num fun ext hext => ?_
  rw [h.parseNumber_append, parseUnsigned, h.parseInt_eq hext.not_isDigit]
  simp [hext.parseFrac_eq, hext.parseExp_eq]

theorem isDigit_ofNat {d : ℕ} (h : d < 10) : isDigit (UInt8.ofNat (0x30 + d)) = true := by
  have hall : ∀ d : Fin 10, isDigit (UInt8.ofNat (0x30 + d.val)) = true := by decide
  exact hall ⟨d, h⟩

theorem intText_decimal (n : ℕ) : IntText (decimal n) := by
  rw [decimal]
  split
  · exact Or.inl rfl
  · next hn =>
      right
      have hdigit : ∀ d ∈ Nat.digits 10 n, d < 10 := fun d hd => Nat.digits_lt_base (by decide) hd
      have hne : Nat.digits 10 n ≠ [] := Nat.digits_ne_nil_iff_ne_zero.mpr hn
      have hlast := Nat.getLast_digit_ne_zero 10 hn
      -- the first byte is the most significant digit
      have hreverse : (Nat.digits 10 n).reverse =
          (Nat.digits 10 n).getLast hne :: (Nat.digits 10 n).dropLast.reverse := by
        conv_lhs => rw [← List.dropLast_append_getLast hne]
        rw [List.reverse_append, List.reverse_singleton, List.singleton_append]
      rw [hreverse, List.map_cons]
      refine ⟨_, _, rfl, ?_, isDigit_ofNat (hdigit _ (List.getLast_mem hne)), ?_⟩
      · have hall : ∀ d : Fin 10, d.val ≠ 0 → UInt8.ofNat (0x30 + d.val) ≠ zero := by decide
        exact hall ⟨_, hdigit _ (List.getLast_mem hne)⟩ hlast
      · intro b hb
        obtain ⟨d, hd, rfl⟩ := List.mem_map.mp hb
        exact isDigit_ofNat (hdigit d (List.mem_of_mem_dropLast (List.mem_reverse.mp hd)))

theorem isDigit_of_mem_decimal {n : ℕ} {b : UInt8} (h : b ∈ decimal n) : isDigit b = true := by
  rcases intText_decimal n with hzero | ⟨c, cs, heq, -, hc, hcs⟩
  · rw [hzero, List.mem_singleton] at h
    rw [h]
    decide
  · rw [heq] at h
    rcases List.mem_cons.mp h with rfl | hmem
    · exact hc
    · exact hcs b hmem

theorem isPlainAscii_of_isDigit {b : UInt8} (h : isDigit b = true) : isPlainAscii b = true := by
  have hquote : b ≠ quote := by
    rintro rfl
    exact absurd h (by decide)
  have hbackslash : b ≠ backslash := by
    rintro rfl
    exact absurd h (by decide)
  have hrange : 0x30 ≤ b.toNat ∧ b.toNat ≤ 0x39 := by simpa [isDigit] using h
  simp only [isPlainAscii, isPlain, hquote, hbackslash, ne_eq, not_false_eq_true, decide_true,
    Bool.true_and, Bool.and_eq_true, Bool.not_eq_true', decide_eq_false_iff_not,
    decide_eq_true_eq]
  omega

theorem embeds_fraction {int frac : Bytes} (hint : IntText int) (hne : frac ≠ [])
    (hfrac : ∀ d ∈ frac, isDigit d = true) (negative : Bool) :
    Embeds ((if negative then [minus] else []) ++ (int ++ dot :: frac))
      (.num ((if negative then [minus] else []) ++ (int ++ dot :: frac))) := by
  have hunsigned : ∀ ext, Delimited ext →
      parseUnsigned ((int ++ dot :: frac) ++ ext) = some (int ++ dot :: frac, ext) := by
    intro ext hext
    obtain ⟨htake, hdrop⟩ := digits_spanned hfrac hext.not_isDigit
    rw [List.append_assoc, parseUnsigned, hint.parseInt_eq (by rintro b bs ⟨⟩; decide)]
    simp [parseFrac, parseDigits, htake, hdrop, hne, hext.parseExp_eq]
  refine embeds_num fun ext hext => ?_
  cases negative with
  | false =>
      rw [if_neg (by decide), List.nil_append, ← hunsigned ext hext, List.append_assoc]
      exact hint.parseNumber_append _
  | true =>
      rw [if_pos rfl, List.singleton_append, List.cons_append, parseNumber, if_pos rfl,
        hunsigned ext hext]
      rfl

theorem reads_true : Reads (ascii "true") (.bool true) := by
  refine ⟨⟨0x74, _, rfl, by decide⟩, ?_⟩
  rintro (_ | fuel) ext hfuel
  · omega
  · rfl

theorem reads_false : Reads (ascii "false") (.bool false) := by
  refine ⟨⟨0x66, _, rfl, by decide⟩, ?_⟩
  rintro (_ | fuel) ext hfuel
  · omega
  · rfl

/-! ### Arrays -/

/-- Texts one after the other, separated by commas. -/
def commaJoin : List Bytes → Bytes
  | [] => []
  | [t] => t
  | t :: u :: ts => t ++ comma :: commaJoin (u :: ts)

theorem commaJoin_cons_of_ne_nil (t : Bytes) {ts : List Bytes} (h : ts ≠ []) :
    commaJoin (t :: ts) = t ++ comma :: commaJoin ts := by
  cases ts with
  | nil => exact absurd rfl h
  | cons u ts => rfl

theorem commaJoin_cons_eq (t : Bytes) (ts : List Bytes) :
    commaJoin (t :: ts) = t ++ (ts.map (comma :: ·)).flatten := by
  induction ts generalizing t with
  | nil => simp [commaJoin]
  | cons u ts ih => rw [commaJoin, ih u, List.map_cons, List.flatten_cons, List.cons_append]

theorem commaJoin_concat (ts : List Bytes) (t : Bytes) :
    commaJoin (ts ++ [t]) = (ts.map (· ++ [comma])).flatten ++ t := by
  induction ts with
  | nil => rfl
  | cons u ts ih =>
      rw [List.cons_append, commaJoin_cons_of_ne_nil u (by simp), ih, List.map_cons,
        List.flatten_cons, List.append_assoc, List.append_assoc, List.singleton_append]

theorem parseElements_commaJoin {texts : List Bytes} {vs : List Json}
    (h : List.Forall₂ Embeds texts vs) (hne : texts ≠ []) (fuel : ℕ) (ext : Bytes)
    (hfuel : (commaJoin texts).length + 1 < fuel) :
    parseElements fuel (commaJoin texts ++ rbracket :: ext) = some (vs, ext) := by
  induction h generalizing fuel with
  | nil => exact absurd rfl hne
  | @cons t v ts vs ht hts ih =>
      obtain _ | fuel := fuel
      · omega
      by_cases hnil : ts = []
      · subst hnil
        obtain rfl := List.forall₂_nil_left_iff.mp hts
        simp only [commaJoin] at hfuel ⊢
        obtain ⟨rest, hval, hrest⟩ :=
          ht fuel rbracket ext (by omega) (by decide) (by decide)
        rw [parseElements, hval]
        simp only [hrest, if_true]
        rw [if_neg (by decide)]
      · rw [commaJoin_cons_of_ne_nil t hnil] at hfuel ⊢
        simp only [List.length_append, List.length_cons] at hfuel
        rw [List.append_assoc, List.cons_append]
        obtain ⟨rest, hval, hrest⟩ :=
          ht fuel comma (commaJoin ts ++ rbracket :: ext) (by omega) (by decide) (by decide)
        rw [parseElements, hval]
        simp only [hrest, if_true]
        rw [ih hnil fuel (by omega)]
        rfl

theorem parseElements_skipWs (fuel : ℕ) (bs : Bytes) :
    parseElements fuel (skipWs bs) = parseElements fuel bs := by
  cases fuel with
  | zero => simp [parseElements]
  | succ fuel => rw [parseElements, parseElements, skipWs_skipWs]

theorem parseValue_rbracket (fuel : ℕ) (bs : Bytes) : parseValue fuel (rbracket :: bs) = none := by
  cases fuel with
  | zero => simp [parseValue]
  | succ fuel => rfl

/-- An opening bracket and something that is not the closing one. -/
theorem parseValue_lbracket {fuel : ℕ} {bs : Bytes} {c : UInt8} {cs : Bytes}
    (hws : skipWs bs = c :: cs) (hc : c ≠ rbracket) :
    parseValue (fuel + 1) (lbracket :: bs) =
      (parseElements fuel bs).map fun p => (.arr p.1, p.2) := by
  rw [parseValue, if_neg (by decide), if_pos rfl, hws]
  simp only
  rw [if_neg hc, ← hws, parseElements_skipWs]

theorem Embeds.starts {text : Bytes} {v : Json} (h : Embeds text v) {c : UInt8}
    (hnum : isNumberByte c = false) (hws : isWs c = false) (cs : Bytes) :
    ∃ d ds, skipWs (text ++ c :: cs) = d :: ds ∧ d ≠ rbracket := by
  obtain ⟨rest, hval, -⟩ := h (text.length + 1) c cs (Nat.lt_succ_self _) hnum hws
  cases hskip : skipWs (text ++ c :: cs) with
  | nil =>
      rw [hskip] at hval
      simp [parseValue] at hval
  | cons d ds =>
      refine ⟨d, ds, rfl, ?_⟩
      rintro rfl
      rw [hskip, parseValue_rbracket] at hval
      simp at hval

theorem reads_arr_nil : Reads [lbracket, rbracket] (.arr []) := by
  refine ⟨⟨lbracket, _, rfl, by decide⟩, ?_⟩
  rintro (_ | fuel) ext hfuel
  · omega
  · rfl

theorem commaJoin_starts {texts : List Bytes} {vs : List Json}
    (h : List.Forall₂ Embeds texts vs) (hne : texts ≠ []) (ext : Bytes) :
    ∃ d ds, skipWs (commaJoin texts ++ rbracket :: ext) = d :: ds ∧ d ≠ rbracket := by
  cases h with
  | nil => exact absurd rfl hne
  | @cons t v ts vs ht hts =>
      by_cases hnil : ts = []
      · subst hnil
        exact ht.starts (by decide) (by decide) ext
      · rw [commaJoin_cons_of_ne_nil t hnil, List.append_assoc, List.cons_append]
        exact ht.starts (by decide) (by decide) _

theorem reads_arr {texts : List Bytes} {vs : List Json} (h : List.Forall₂ Embeds texts vs) :
    Reads (lbracket :: (commaJoin texts ++ [rbracket])) (.arr vs) := by
  by_cases hnil : texts = []
  · subst hnil
    obtain rfl := List.forall₂_nil_left_iff.mp h
    exact reads_arr_nil
  · refine ⟨⟨lbracket, _, rfl, by decide⟩, ?_⟩
    rintro (_ | fuel) ext hfuel
    · omega
    obtain ⟨d, ds, hws, hd⟩ := commaJoin_starts h hnil ext
    simp only [List.length_cons, List.length_append, List.length_nil] at hfuel
    rw [List.cons_append, List.append_assoc, List.singleton_append, parseValue_lbracket hws hd,
      parseElements_commaJoin h hnil fuel ext (by omega)]
    rfl

theorem Reads.starts_value {text : Bytes} {v : Json} (h : Reads text v) :
    ∃ b bs, text = b :: bs ∧ isWs b = false ∧ b ≠ comma ∧ b ≠ rbracket := by
  obtain ⟨b, bs, rfl, hws⟩ := h.starts
  have hread := h.reads ((b :: bs).length + 1) [] (Nat.lt_succ_self _)
  refine ⟨b, bs, rfl, hws, ?_, ?_⟩
  · rintro rfl
    have hnone : parseValue ((comma :: bs).length + 1) (comma :: bs ++ []) = none := rfl
    rw [hnone] at hread
    simp at hread
  · rintro rfl
    rw [List.cons_append, parseValue_rbracket] at hread
    simp at hread

theorem parse_arr_adjacent {text text' : Bytes} {v v' : Json} (h : Reads text v)
    (h' : Reads text' v') (bs : Bytes) : parse (lbracket :: (text ++ (text' ++ bs))) = none := by
  obtain ⟨c, cs, rfl, hcws, -, hc⟩ := h.starts_value
  obtain ⟨d, ds, rfl, hdws, hcomma, hrbracket⟩ := h'.starts_value
  have hparse : ∀ fuel, (c :: cs).length + 1 < fuel →
      parseElements fuel (c :: cs ++ (d :: ds ++ bs)) = none := by
    rintro (_ | fuel) hfuel
    · omega
    · have hskip : skipWs (c :: cs ++ (d :: ds ++ bs)) = c :: cs ++ (d :: ds ++ bs) :=
        skipWs_of_not_ws hcws _
      rw [parseElements, hskip, h.reads fuel _ (by omega)]
      simp only [List.cons_append, skipWs_of_not_ws hdws]
      rw [if_neg hcomma, if_neg hrbracket]
  have hws : skipWs (c :: cs ++ (d :: ds ++ bs)) = c :: (cs ++ (d :: ds ++ bs)) :=
    skipWs_of_not_ws hcws _
  rw [parse, skipWs_of_not_ws (by decide), List.length_cons, parseValue_lbracket hws hc, hparse]
  · rfl
  · simp only [List.length_append, List.length_cons]
    omega

/-! ### Objects -/

/-- The text of a member: a key in quotes, a colon and a value. -/
inductive Member : Bytes → List ℕ × Json → Prop
  | mk {body : Bytes} {key : List ℕ} {text : Bytes} {v : Json} (hkey : Spells body key)
      (hval : Embeds text v) : Member (quote :: (body ++ quote :: colon :: text)) (key, v)

theorem Spells.parseKey_eq {body : Bytes} {key : List ℕ} (h : Spells body key) (ext : Bytes) :
    parseKey (body ++ quote :: colon :: ext) = some (key, ext) := by
  rw [parseKey, h.parseString_eq]
  simp only [skipWs_of_not_ws (show isWs colon = false by decide), if_true]

theorem parseMembers_commaJoin {texts : List Bytes} {members : List (List ℕ × Json)}
    (h : List.Forall₂ Member texts members) (hne : texts ≠ []) (fuel : ℕ) (ext : Bytes)
    (hfuel : (commaJoin texts).length + 1 < fuel) :
    parseMembers fuel (commaJoin texts ++ rbrace :: ext) = some (members, ext) := by
  induction h generalizing fuel with
  | nil => exact absurd rfl hne
  | @cons t m ts ms ht hts ih =>
      obtain _ | fuel := fuel
      · omega
      obtain ⟨hkey, hval⟩ := ht
      by_cases hnil : ts = []
      · subst hnil
        obtain rfl := List.forall₂_nil_left_iff.mp hts
        simp only [commaJoin, List.length_cons, List.length_append] at hfuel
        obtain ⟨rest, hv, hrest⟩ :=
          hval fuel rbrace ext (by omega) (by decide) (by decide)
        rw [commaJoin, parseMembers, List.cons_append, skipWs_of_not_ws (by decide)]
        simp only [List.append_assoc, List.cons_append, if_true, hkey.parseKey_eq, hv, hrest]
        rw [if_neg (by decide)]
      · rw [commaJoin_cons_of_ne_nil _ hnil] at hfuel ⊢
        simp only [List.length_append, List.length_cons] at hfuel
        obtain ⟨rest, hv, hrest⟩ :=
          hval fuel comma (commaJoin ts ++ rbrace :: ext) (by omega) (by decide) (by decide)
        rw [parseMembers, List.cons_append, List.cons_append, skipWs_of_not_ws (by decide)]
        simp only [List.append_assoc, List.cons_append, if_true, hkey.parseKey_eq, hv, hrest]
        rw [ih hnil fuel (by omega)]
        rfl

theorem reads_obj {texts : List Bytes} {members : List (List ℕ × Json)}
    (h : List.Forall₂ Member texts members) :
    Reads (lbrace :: (commaJoin texts ++ [rbrace])) (.obj members) := by
  refine ⟨⟨lbrace, _, rfl, by decide⟩, ?_⟩
  rintro (_ | fuel) ext hfuel
  · omega
  by_cases hnil : texts = []
  · subst hnil
    obtain rfl := List.forall₂_nil_left_iff.mp h
    rfl
  · simp only [List.length_cons, List.length_append, List.length_nil] at hfuel
    have hstart : ∃ ds, commaJoin texts ++ rbrace :: ext = quote :: ds := by
      cases h with
      | nil => exact absurd rfl hnil
      | @cons t m ts ms ht hts =>
          obtain ⟨-, -⟩ := ht
          by_cases hts' : ts = []
          · subst hts'
            exact ⟨_, rfl⟩
          · rw [commaJoin_cons_of_ne_nil _ hts']
            exact ⟨_, rfl⟩
    obtain ⟨ds, hds⟩ := hstart
    have hmembers := parseMembers_commaJoin h hnil fuel ext (by omega)
    rw [List.cons_append, List.append_assoc, List.singleton_append, parseValue,
      if_neg (by decide), if_neg (by decide), if_pos rfl]
    rw [hds] at hmembers ⊢
    rw [skipWs_of_not_ws (by decide)]
    simp only
    rw [if_neg (by decide), hmembers]
    rfl

/-! ### How a value ends

The last byte of a value is never an opening brace. -/

theorem skipWs_suffix (bs : Bytes) : skipWs bs <:+ bs := List.dropWhile_suffix _

theorem suffix_of_skipWs {bs cs : Bytes} {c : UInt8} (h : skipWs bs = c :: cs) : c :: cs <:+ bs :=
  h ▸ skipWs_suffix bs

theorem suffix_of_cons {b : UInt8} {bs cs : Bytes} (h : b :: cs <:+ bs) : cs <:+ bs :=
  (List.suffix_cons b cs).trans h

theorem scanString_ends {bs : Bytes} {items : List Item} {rest : Bytes}
    (h : scanString bs = some (items, rest)) : quote :: rest <:+ bs := by
  fun_induction scanString bs generalizing items rest with
  | case1 => simp at h
  | case2 bs =>
      obtain ⟨-, rfl⟩ : [] = items ∧ bs = rest := by simpa using h
      exact List.suffix_refl _
  | case3 => simp at h
  | case4 w x y z bs u hu _ ih =>
      obtain ⟨p, hrec, -⟩ := of_map_eq_some h
      exact (ih hrec).trans (List.suffix_append [_, _, _, _, _, _] bs)
  | case5 => simp at h
  | case6 => simp at h
  | case7 e bs he u hu _ ih =>
      obtain ⟨p, hrec, -⟩ := of_map_eq_some h
      exact (ih hrec).trans (List.suffix_append [_, _] bs)
  | case8 => simp at h
  | case9 => simp at h
  | case10 b bs hq hb hc ih =>
      obtain ⟨p, hrec, -⟩ := of_map_eq_some h
      exact (ih hrec).trans (List.suffix_cons b bs)

theorem parseString_ends {bs : Bytes} {units : List ℕ} {rest : Bytes}
    (h : parseString bs = some (units, rest)) : quote :: rest <:+ bs := by
  rw [parseString] at h
  cases hscan : scanString bs with
  | none => simp [hscan] at h
  | some p =>
      simp only [hscan] at h
      obtain ⟨units', -, heq⟩ := Option.map_eq_some_iff.mp h
      obtain ⟨-, rfl⟩ := Prod.mk.inj heq
      exact scanString_ends hscan

theorem parseKey_suffix {bs : Bytes} {key : List ℕ} {rest : Bytes}
    (h : parseKey bs = some (key, rest)) : rest <:+ bs := by
  rw [parseKey] at h
  cases hstr : parseString bs with
  | none => simp [hstr] at h
  | some p =>
      obtain ⟨units, bs₁⟩ := p
      simp only [hstr] at h
      cases hws : skipWs bs₁ with
      | nil => simp [hws] at h
      | cons c cs =>
          simp only [hws] at h
          split at h
          · obtain ⟨-, rfl⟩ : units = key ∧ cs = rest := by simpa using h
            exact (suffix_of_cons (suffix_of_skipWs hws)).trans
              (suffix_of_cons (parseString_ends hstr))
          · simp at h

theorem dropWhile_isDigit_ends {bs : Bytes} (h : bs.takeWhile isDigit ≠ []) :
    ∃ d, isDigit d = true ∧ d :: bs.dropWhile isDigit <:+ bs := by
  induction bs with
  | nil => simp at h
  | cons b bs ih =>
      by_cases hb : isDigit b
      · rw [List.dropWhile_cons_of_pos hb]
        by_cases hnil : bs.takeWhile isDigit = []
        · have hbs : bs.dropWhile isDigit = bs := by
            have happ := List.takeWhile_append_dropWhile (p := isDigit) (l := bs)
            rwa [hnil, List.nil_append] at happ
          exact ⟨b, hb, by rw [hbs]⟩
        · obtain ⟨d, hd, hsuffix⟩ := ih hnil
          exact ⟨d, hd, hsuffix.trans (List.suffix_cons b bs)⟩
      · simp [hb] at h

/-- The rest of a number: nothing was read, or a digit was read last. -/
def DigitsRead (bs rest : Bytes) : Prop :=
  rest = bs ∨ ∃ d, isDigit d = true ∧ d :: rest <:+ bs

theorem parseDigits_ends {bs text rest : Bytes} (h : parseDigits bs = some (text, rest)) :
    ∃ d, isDigit d = true ∧ d :: rest <:+ bs := by
  rw [parseDigits] at h
  split at h
  · simp at h
  · next hne =>
      obtain ⟨-, rfl⟩ : _ ∧ bs.dropWhile isDigit = rest := by simpa using h
      exact dropWhile_isDigit_ends hne

theorem parseInt_ends {bs text rest : Bytes} (h : parseInt bs = some (text, rest)) :
    ∃ d, isDigit d = true ∧ d :: rest <:+ bs := by
  cases bs with
  | nil => simp [parseInt] at h
  | cons b bs =>
      rw [parseInt] at h
      split at h
      · next hb =>
          obtain ⟨-, rfl⟩ : _ ∧ bs = rest := by simpa using h
          exact ⟨b, by rw [hb]; decide, List.suffix_refl _⟩
      · split at h
        · next hb =>
            obtain ⟨-, rfl⟩ : _ ∧ bs.dropWhile isDigit = rest := by simpa using h
            have hne : (b :: bs).takeWhile isDigit ≠ [] := by simp [hb]
            have hends := dropWhile_isDigit_ends hne
            rwa [List.dropWhile_cons_of_pos hb] at hends
        · simp at h

theorem parseFrac_ends {bs text rest : Bytes} (h : parseFrac bs = some (text, rest)) :
    DigitsRead bs rest := by
  cases bs with
  | nil =>
      obtain ⟨-, rfl⟩ : [] = text ∧ [] = rest := by simpa [parseFrac] using h
      exact Or.inl rfl
  | cons b bs =>
      rw [parseFrac] at h
      split at h
      · obtain ⟨p, hrec, -⟩ := of_map_eq_some h
        obtain ⟨d, hd, hsuffix⟩ := parseDigits_ends hrec
        exact Or.inr ⟨d, hd, hsuffix.trans (List.suffix_cons b bs)⟩
      · obtain ⟨-, rfl⟩ : [] = text ∧ b :: bs = rest := by simpa using h
        exact Or.inl rfl

theorem parseSign_suffix (bs : Bytes) : (parseSign bs).2 <:+ bs := by
  cases bs with
  | nil => exact List.suffix_refl _
  | cons b bs =>
      rw [parseSign]
      split
      · exact List.suffix_cons b bs
      · exact List.suffix_refl _

theorem parseExp_ends {bs text rest : Bytes} (h : parseExp bs = some (text, rest)) :
    DigitsRead bs rest := by
  cases bs with
  | nil =>
      obtain ⟨-, rfl⟩ : [] = text ∧ [] = rest := by simpa [parseExp] using h
      exact Or.inl rfl
  | cons b bs =>
      rw [parseExp] at h
      split at h
      · obtain ⟨p, hrec, heq⟩ := Option.map_eq_some_iff.mp h
        obtain ⟨-, rfl⟩ := Prod.mk.inj heq
        obtain ⟨d, hd, hsuffix⟩ := parseDigits_ends hrec
        exact Or.inr ⟨d, hd,
          (hsuffix.trans (parseSign_suffix bs)).trans (List.suffix_cons b bs)⟩
      · obtain ⟨-, rfl⟩ : [] = text ∧ b :: bs = rest := by simpa using h
        exact Or.inl rfl

theorem DigitsRead.ends {bs rest : Bytes} (h : DigitsRead bs rest) {full : Bytes}
    (hfull : ∃ d, isDigit d = true ∧ d :: bs <:+ full) :
    ∃ d, isDigit d = true ∧ d :: rest <:+ full := by
  rcases h with rfl | ⟨d, hd, hsuffix⟩
  · exact hfull
  · obtain ⟨_, -, hbs⟩ := hfull
    exact ⟨d, hd, hsuffix.trans (suffix_of_cons hbs)⟩

theorem parseUnsigned_ends {bs text rest : Bytes} (h : parseUnsigned bs = some (text, rest)) :
    ∃ d, isDigit d = true ∧ d :: rest <:+ bs := by
  rw [parseUnsigned] at h
  cases hint : parseInt bs with
  | none => simp [hint] at h
  | some p =>
      obtain ⟨int, bs₁⟩ := p
      simp only [hint] at h
      cases hfrac : parseFrac bs₁ with
      | none => simp [hfrac] at h
      | some p =>
          obtain ⟨frac, bs₂⟩ := p
          simp only [hfrac] at h
          obtain ⟨exp, hexp, -⟩ := of_map_eq_some h
          exact (parseExp_ends hexp).ends ((parseFrac_ends hfrac).ends (parseInt_ends hint))

theorem parseNumber_ends {bs text rest : Bytes} (h : parseNumber bs = some (text, rest)) :
    ∃ d, isDigit d = true ∧ d :: rest <:+ bs := by
  cases bs with
  | nil => simp [parseNumber] at h
  | cons b bs =>
      rw [parseNumber] at h
      split at h
      · obtain ⟨p, hrec, -⟩ := of_map_eq_some h
        obtain ⟨d, hd, hsuffix⟩ := parseUnsigned_ends hrec
        exact ⟨d, hd, hsuffix.trans (List.suffix_cons b bs)⟩
      · exact parseUnsigned_ends h

theorem parseWord_ends {word : Bytes} {v w : Json} {bs rest : Bytes} {l : UInt8} (ls : Bytes)
    (hword : word = ls ++ [l]) (h : parseWord word v bs = some (w, rest)) : l :: rest <:+ bs := by
  rw [parseWord] at h
  split at h
  · next htake =>
      obtain ⟨-, rfl⟩ : v = w ∧ bs.drop word.length = rest := by simpa using h
      refine ⟨ls, ?_⟩
      calc
        ls ++ l :: bs.drop word.length = (ls ++ [l]) ++ bs.drop word.length := by simp
        _ = bs.take word.length ++ bs.drop word.length := by rw [htake, ← hword]
        _ = bs := List.take_append_drop _ _
  · simp at h

/-- A value was read, and its last byte is not an opening brace. -/
def ValueEnds (bs rest : Bytes) : Prop := ∃ b, b ≠ lbrace ∧ b :: rest <:+ bs

theorem ValueEnds.suffix {bs rest : Bytes} (h : ValueEnds bs rest) : rest <:+ bs := by
  obtain ⟨b, -, hsuffix⟩ := h
  exact suffix_of_cons hsuffix

theorem parseValue_ends {fuel : ℕ}
    (he : ∀ bs vs rest, parseElements fuel bs = some (vs, rest) → rbracket :: rest <:+ bs)
    (hm : ∀ bs ms rest, parseMembers fuel bs = some (ms, rest) → rbrace :: rest <:+ bs)
    {bs rest : Bytes} {v : Json} (h : parseValue (fuel + 1) bs = some (v, rest)) :
    ValueEnds bs rest := by
  cases bs with
  | nil => simp [parseValue] at h
  | cons b bs =>
      rw [parseValue] at h
      split at h
      · obtain ⟨units, hrec, -⟩ := of_map_eq_some h
        exact ⟨quote, by decide, (parseString_ends hrec).trans (List.suffix_cons b bs)⟩
      split at h
      · cases hws : skipWs bs with
        | nil => simp [hws] at h
        | cons c cs =>
            have hsuffix := (suffix_of_skipWs hws).trans (List.suffix_cons b bs)
            simp only [hws] at h
            split at h
            · next hc =>
                obtain ⟨-, rfl⟩ : _ ∧ cs = rest := by simpa using h
                exact ⟨c, by rw [hc]; decide, hsuffix⟩
            · obtain ⟨vs, hrec, -⟩ := of_map_eq_some h
              exact ⟨rbracket, by decide, (he _ _ _ hrec).trans hsuffix⟩
      split at h
      · cases hws : skipWs bs with
        | nil => simp [hws] at h
        | cons c cs =>
            have hsuffix := (suffix_of_skipWs hws).trans (List.suffix_cons b bs)
            simp only [hws] at h
            split at h
            · next hc =>
                obtain ⟨-, rfl⟩ : _ ∧ cs = rest := by simpa using h
                exact ⟨c, by rw [hc]; decide, hsuffix⟩
            · obtain ⟨ms, hrec, -⟩ := of_map_eq_some h
              exact ⟨rbrace, by decide, (hm _ _ _ hrec).trans hsuffix⟩
      split at h
      · exact ⟨0x65, by decide, parseWord_ends (ascii "tru") rfl h⟩
      split at h
      · exact ⟨0x65, by decide, parseWord_ends (ascii "fals") rfl h⟩
      split at h
      · exact ⟨0x6c, by decide, parseWord_ends (ascii "nul") rfl h⟩
      obtain ⟨text, hrec, -⟩ := of_map_eq_some h
      obtain ⟨d, hd, hsuffix⟩ := parseNumber_ends hrec
      refine ⟨d, ?_, hsuffix⟩
      rintro rfl
      exact absurd hd (by decide)

theorem parseElements_ends {fuel : ℕ}
    (hv : ∀ bs v rest, parseValue fuel bs = some (v, rest) → ValueEnds bs rest)
    (he : ∀ bs vs rest, parseElements fuel bs = some (vs, rest) → rbracket :: rest <:+ bs)
    {bs rest : Bytes} {vs : List Json} (h : parseElements (fuel + 1) bs = some (vs, rest)) :
    rbracket :: rest <:+ bs := by
  rw [parseElements] at h
  cases hval : parseValue fuel (skipWs bs) with
  | none => simp [hval] at h
  | some p =>
      obtain ⟨v, bs₁⟩ := p
      simp only [hval] at h
      cases hws : skipWs bs₁ with
      | nil => simp [hws] at h
      | cons c cs =>
          have hsuffix : c :: cs <:+ bs :=
            ((suffix_of_skipWs hws).trans (hv _ _ _ hval).suffix).trans (skipWs_suffix bs)
          simp only [hws] at h
          split at h
          · obtain ⟨vs, hrec, -⟩ := of_map_eq_some h
            exact (he _ _ _ hrec).trans (suffix_of_cons hsuffix)
          · split at h
            · next hc =>
                obtain ⟨-, rfl⟩ : _ ∧ cs = rest := by simpa using h
                exact hc ▸ hsuffix
            · simp at h

theorem parseMembers_ends {fuel : ℕ}
    (hv : ∀ bs v rest, parseValue fuel bs = some (v, rest) → ValueEnds bs rest)
    (hm : ∀ bs ms rest, parseMembers fuel bs = some (ms, rest) → rbrace :: rest <:+ bs)
    {bs rest : Bytes} {ms : List (List ℕ × Json)}
    (h : parseMembers (fuel + 1) bs = some (ms, rest)) : rbrace :: rest <:+ bs := by
  rw [parseMembers] at h
  cases hquote : skipWs bs with
  | nil => simp [hquote] at h
  | cons q bs₁ =>
      simp only [hquote] at h
      split at h
      · cases hkey : parseKey bs₁ with
        | none => simp [hkey] at h
        | some p =>
            obtain ⟨key, bs₂⟩ := p
            simp only [hkey] at h
            cases hval : parseValue fuel (skipWs bs₂) with
            | none => simp [hval] at h
            | some p =>
                obtain ⟨v, bs₃⟩ := p
                simp only [hval] at h
                cases hws : skipWs bs₃ with
                | nil => simp [hws] at h
                | cons c cs =>
                    have hkeySuffix : bs₂ <:+ bs :=
                      (parseKey_suffix hkey).trans (suffix_of_cons (suffix_of_skipWs hquote))
                    have hsuffix : c :: cs <:+ bs :=
                      (((suffix_of_skipWs hws).trans (hv _ _ _ hval).suffix).trans
                        (skipWs_suffix bs₂)).trans hkeySuffix
                    simp only [hws] at h
                    split at h
                    · obtain ⟨ms, hrec, -⟩ := of_map_eq_some h
                      exact (hm _ _ _ hrec).trans (suffix_of_cons hsuffix)
                    · split at h
                      · next hc =>
                          obtain ⟨-, rfl⟩ : _ ∧ cs = rest := by simpa using h
                          exact hc ▸ hsuffix
                      · simp at h
      · simp at h

theorem parse_ends (fuel : ℕ) :
    (∀ bs v rest, parseValue fuel bs = some (v, rest) → ValueEnds bs rest) ∧
    (∀ bs vs rest, parseElements fuel bs = some (vs, rest) → rbracket :: rest <:+ bs) ∧
    ∀ bs ms rest, parseMembers fuel bs = some (ms, rest) → rbrace :: rest <:+ bs := by
  induction fuel with
  | zero =>
      refine ⟨fun bs v rest h => ?_, fun bs vs rest h => ?_, fun bs ms rest h => ?_⟩
      · simp [parseValue] at h
      · simp [parseElements] at h
      · simp [parseMembers] at h
  | succ fuel ih =>
      obtain ⟨hv, he, hm⟩ := ih
      exact ⟨fun _ _ _ => parseValue_ends he hm, fun _ _ _ => parseElements_ends hv he,
        fun _ _ _ => parseMembers_ends hv hm⟩

/-- The text ends with a byte that does not open an object. -/
def EndsClosed (text : Bytes) : Prop := ∃ bs b, text = bs ++ [b] ∧ b ≠ lbrace

theorem endsClosed_of_parse {text : Bytes} {v : Json} (h : parse text = some v) :
    EndsClosed text := by
  rw [parse] at h
  cases hval : parseValue (text.length + 1) (skipWs text) with
  | none => simp [hval] at h
  | some p =>
      obtain ⟨v', rest⟩ := p
      simp only [hval] at h
      split at h
      · next hrest =>
          obtain ⟨b, hb, hsuffix⟩ := (parse_ends _).1 _ _ _ hval
          obtain ⟨pre, hpre⟩ := hsuffix.trans (skipWs_suffix text)
          -- what follows the value is white space
          rcases List.eq_nil_or_concat rest with rfl | ⟨ws, c, rfl⟩
          · exact ⟨pre, b, hpre.symm, hb⟩
          · refine ⟨pre ++ b :: ws, c, by rw [← hpre]; simp, ?_⟩
            rintro rfl
            have hws := List.dropWhile_eq_nil_iff.mp hrest lbrace (by simp)
            exact absurd hws (by decide)
      · simp at h

theorem commaJoin_append {ts us : List Bytes} (hts : ts ≠ []) (hus : us ≠ []) :
    commaJoin (ts ++ us) = commaJoin ts ++ comma :: commaJoin us := by
  induction ts with
  | nil => exact absurd rfl hts
  | cons t ts ih =>
      by_cases hnil : ts = []
      · rw [hnil, List.singleton_append, commaJoin_cons_of_ne_nil t hus]
        rfl
      · rw [List.cons_append, commaJoin_cons_of_ne_nil t (by simp [hnil]), ih hnil,
          commaJoin_cons_of_ne_nil t hnil, List.append_assoc, List.cons_append]

theorem EndsClosed.append {text : Bytes} (h : EndsClosed text) (bs : Bytes) :
    EndsClosed (bs ++ text) := by
  obtain ⟨cs, b, rfl, hb⟩ := h
  exact ⟨bs ++ cs, b, by rw [List.append_assoc], hb⟩

theorem endsClosed_commaJoin {ts : List Bytes} (hne : ts ≠ []) (h : ∀ t ∈ ts, EndsClosed t) :
    EndsClosed (commaJoin ts) := by
  induction ts with
  | nil => exact absurd rfl hne
  | cons t ts ih =>
      by_cases hnil : ts = []
      · rw [hnil]
        exact h t (by simp)
      · rw [commaJoin_cons_of_ne_nil t hnil]
        have hrest := ih hnil fun u hu => h u (by simp [hu])
        have happ := hrest.append (t ++ [comma])
        rwa [List.append_assoc, List.singleton_append] at happ

end AxiomDaemon.Lib.Json

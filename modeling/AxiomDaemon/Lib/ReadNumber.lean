import AxiomDaemon.Lib.Double

/-!
How the C library reads numbers from a text: `strtol` with base 0, `strtoll`
with base 10, `strtod` in the C locale, and `%4x` and `%x` of `sscanf`. Each is
given what follows in the text and returns what it read and what it left.
-/

namespace AxiomDaemon.Lib

open Json

/-! ### Digits -/

/-- The digits of a base at the start of a text, and what follows them. -/
def spanDigits (base : ℕ) : Bytes → List ℕ × Bytes
  | [] => ([], [])
  | b :: bs =>
      match hexValue b with
      | some d =>
          if d < base then (d :: (spanDigits base bs).1, (spanDigits base bs).2) else ([], b :: bs)
      | none => ([], b :: bs)

/-- The number of a list of digits, the most significant one first. -/
def numberOf (base : ℕ) (ds : List ℕ) : ℕ := Nat.ofDigits base ds.reverse

/-- `isspace`. -/
def isSpace (b : UInt8) : Bool := b = 0x20 || (0x09 ≤ b.toNat && b.toNat ≤ 0x0d)

/-- A sign, if there is one: whether it is a minus. -/
def readSign : Bytes → Bool × Bytes
  | [] => (false, [])
  | b :: bs => if b = minus then (true, bs) else if b = 0x2b then (false, bs) else (false, b :: bs)

/-- The base that the start of a number tells, without its `0x`. -/
def readBase : Bytes → ℕ × Bytes
  | [] => (10, [])
  | b :: bs =>
      if b = zero then
        match bs with
        | x :: d :: cs =>
            if (x = 0x78 ∨ x = 0x58) ∧ (hexValue d).isSome then (16, d :: cs)
            else (8, b :: x :: d :: cs)
        | bs => (8, b :: bs)
      else (10, b :: bs)

/-! ### Integers -/

/-- The `long` nearest to a number. -/
def clampLong (i : ℤ) : ℤ := max (-2 ^ 63) (min i (2 ^ 63 - 1))

/-- `strtol(…, 0)`, which is also `strtoll(…, 0)`. Without a digit nothing is
read, not even a sign. -/
def strtol (bs : Bytes) : ℤ × Bytes :=
  let (negative, body) := readSign (bs.dropWhile isSpace)
  let (base, body) := readBase body
  match spanDigits base body with
  | ([], _) => (0, bs)
  | (d :: ds, rest) =>
      let n : ℤ := numberOf base (d :: ds)
      (clampLong (if negative then -n else n), rest)

/-- `strtoll(…, 10)`. -/
def strtollDecimal (bs : Bytes) : ℤ × Bytes :=
  let (negative, body) := readSign (bs.dropWhile isSpace)
  match spanDigits 10 body with
  | ([], _) => (0, bs)
  | (d :: ds, rest) =>
      let n : ℤ := numberOf 10 (d :: ds)
      (clampLong (if negative then -n else n), rest)

/-! ### Fractions -/

/-- An exponent after its letter; without digits it is no exponent. -/
def readExponent (letter : UInt8 → Bool) : Bytes → ℤ × Bytes
  | [] => (0, [])
  | b :: bs =>
      if letter b then
        let (negative, body) := readSign bs
        match spanDigits 10 body with
        | ([], _) => (0, b :: bs)
        | (d :: ds, rest) =>
            let n : ℤ := numberOf 10 (d :: ds)
            (if negative then -n else n, rest)
      else (0, b :: bs)

/-- The double nearest to `digits * scale ^ exponent / base ^ places`. -/
def scaledDouble (negative : Bool) (digits base places scale : ℕ) (exponent : ℤ) : Double :=
  if 0 ≤ exponent then .ofRatio negative (digits * scale ^ exponent.toNat) (base ^ places)
  else .ofRatio negative digits (base ^ places * scale ^ (-exponent).toNat)

/-- The digits before the point and those after it. -/
def spanFraction (base : ℕ) (bs : Bytes) : List ℕ × List ℕ × Bytes :=
  let (int, rest) := spanDigits base bs
  match rest with
  | [] => (int, [], [])
  | b :: cs =>
      if b = dot then (int, (spanDigits base cs).1, (spanDigits base cs).2) else (int, [], b :: cs)

/-- `strtod` of a text that starts like a number: a sign, if any, and a digit.
The exponent of a hexadecimal number is one of two. -/
def strtod (bs : Bytes) : Double × Bytes :=
  let (negative, body) := readSign (bs.dropWhile isSpace)
  let (base, digits) := readBase body
  if base = 16 then
    let (int, frac, rest) := spanFraction 16 digits
    let (exponent, rest) := readExponent (fun b => b = 0x70 || b = 0x50) rest
    (scaledDouble negative (numberOf 16 (int ++ frac)) 16 frac.length 2 exponent, rest)
  else
    let (int, frac, rest) := spanFraction 10 body
    let (exponent, rest) := readExponent (fun b => b = 0x65 || b = 0x45) rest
    (scaledDouble negative (numberOf 10 (int ++ frac)) 10 frac.length 10 exponent, rest)

/-! ### `sscanf` -/

/-- `%4x`: at most four characters after white space. Nothing is stored if they
are no number; a `0x` without digits is none. -/
def scanHex4 (bs : Bytes) : Option ℕ :=
  let (negative, body) := readSign ((bs.dropWhile isSpace).take 4)
  let body :=
    match body with
    | z :: x :: cs => if z = zero ∧ (x = 0x78 ∨ x = 0x58) then cs else body
    | _ => body
  match (spanDigits 16 body).1 with
  | [] => none
  | d :: ds =>
      let n := numberOf 16 (d :: ds)
      some (if negative then (2 ^ 32 - n) % 2 ^ 32 else n)

/-- `%x` into 32 bits. A number that is too large for 64 bits is the largest of
them first. -/
def scanHex32 (bs : Bytes) : Option UInt32 :=
  let (negative, body) := readSign (bs.dropWhile isSpace)
  let body :=
    match body with
    | z :: x :: cs => if z = zero ∧ (x = 0x78 ∨ x = 0x58) then cs else body
    | _ => body
  match (spanDigits 16 body).1 with
  | [] => none
  | d :: ds =>
      let n := numberOf 16 (d :: ds)
      if 2 ^ 64 ≤ n then some 0xffffffff
      else some (if negative then -UInt32.ofNat n else UInt32.ofNat n)

/-! ### What is left is the end of what was given -/

theorem spanDigits_suffix (base : ℕ) (bs : Bytes) : (spanDigits base bs).2 <:+ bs := by
  induction bs with
  | nil => exact List.suffix_rfl
  | cons b bs ih =>
      rw [spanDigits]
      split
      · split_ifs
        · exact ih.trans (List.suffix_cons b bs)
        · exact List.suffix_rfl
      · exact List.suffix_rfl

theorem readSign_suffix (bs : Bytes) : (readSign bs).2 <:+ bs := by
  cases bs with
  | nil => exact List.suffix_rfl
  | cons b bs =>
      rw [readSign]
      split_ifs
      · exact List.suffix_cons b bs
      · exact List.suffix_cons b bs
      · exact List.suffix_rfl

theorem readBase_suffix (bs : Bytes) : (readBase bs).2 <:+ bs := by
  cases bs with
  | nil => exact List.suffix_rfl
  | cons b bs =>
      rw [readBase.eq_def]
      simp only
      split_ifs
      · split
        · split_ifs
          · exact (List.suffix_cons _ _).trans (List.suffix_cons b _)
          · exact List.suffix_rfl
        · exact List.suffix_rfl
      · exact List.suffix_rfl

theorem readExponent_suffix (letter : UInt8 → Bool) (bs : Bytes) :
    (readExponent letter bs).2 <:+ bs := by
  cases bs with
  | nil => exact List.suffix_rfl
  | cons b bs =>
      rw [readExponent]
      split_ifs
      · have hdigits := (spanDigits_suffix 10 (readSign bs).2).trans (readSign_suffix bs)
        simp only
        split
        · exact List.suffix_rfl
        · next heq =>
            rw [heq] at hdigits
            exact hdigits.trans (List.suffix_cons b bs)
      · exact List.suffix_rfl

theorem spanFraction_suffix (base : ℕ) (bs : Bytes) : (spanFraction base bs).2.2 <:+ bs := by
  have hint := spanDigits_suffix base bs
  simp only [spanFraction]
  split
  · exact List.nil_suffix
  · next b cs heq =>
      rw [heq] at hint
      split_ifs
      · exact (spanDigits_suffix base cs).trans ((List.suffix_cons b cs).trans hint)
      · exact hint

theorem readSign_dropWhile_suffix (bs : Bytes) : (readSign (bs.dropWhile isSpace)).2 <:+ bs :=
  (readSign_suffix _).trans (List.dropWhile_suffix isSpace)

theorem strtol_suffix (bs : Bytes) : (strtol bs).2 <:+ bs := by
  have hbase := (readBase_suffix _).trans (readSign_dropWhile_suffix bs)
  have hdigits := (spanDigits_suffix (readBase (readSign (bs.dropWhile isSpace)).2).1 _).trans hbase
  simp only [strtol]
  split
  · exact List.suffix_rfl
  · next heq =>
      rw [heq] at hdigits
      exact hdigits

theorem strtod_suffix (bs : Bytes) : (strtod bs).2 <:+ bs := by
  have hsign := readSign_dropWhile_suffix bs
  simp only [strtod]
  split_ifs
  · exact (readExponent_suffix _ _).trans ((spanFraction_suffix 16 _).trans
      ((readBase_suffix _).trans hsign))
  · exact (readExponent_suffix _ _).trans ((spanFraction_suffix 10 _).trans hsign)

/-! ### Reading what was printed -/

theorem spanDigits_cons {base d : ℕ} {b : UInt8} (h : hexValue b = some d) (hd : d < base)
    (bs : Bytes) :
    spanDigits base (b :: bs) = (d :: (spanDigits base bs).1, (spanDigits base bs).2) := by
  simp [spanDigits, h, hd]

/-- What follows a number does not go on with a digit of the base. -/
def EndsDigits (base : ℕ) (ext : Bytes) : Prop :=
  ∀ b bs, ext = b :: bs → ∀ d, hexValue b = some d → base ≤ d

theorem EndsDigits.spanDigits_eq {base : ℕ} {ext : Bytes} (h : EndsDigits base ext) :
    spanDigits base ext = ([], ext) := by
  cases ext with
  | nil => rfl
  | cons b bs =>
      rw [spanDigits]
      cases hb : hexValue b with
      | none => rfl
      | some d =>
          have hd := h b bs rfl d hb
          simp only [if_neg (show ¬d < base by omega)]

theorem hexValue_digitByte {d : ℕ} (h : d < 10) : hexValue (UInt8.ofNat (0x30 + d)) = some d := by
  have hall : ∀ d : Fin 10, hexValue (UInt8.ofNat (0x30 + d.val)) = some d.val := by decide
  exact hall ⟨d, h⟩

/-- Digits in decimal. -/
def digitBytes (ds : List ℕ) : Bytes := ds.map fun d => UInt8.ofNat (0x30 + d)

theorem spanDigits_digitBytes {base : ℕ} {ds : List ℕ} (hds : ∀ d ∈ ds, d < base ∧ d < 10)
    {ext : Bytes} (hext : EndsDigits base ext) :
    spanDigits base (digitBytes ds ++ ext) = (ds, ext) := by
  induction ds with
  | nil => exact hext.spanDigits_eq
  | cons d ds ih =>
      obtain ⟨hbase, hten⟩ := hds d (by simp)
      rw [digitBytes, List.map_cons, List.cons_append,
        spanDigits_cons (hexValue_digitByte hten) hbase]
      have hrec := ih fun e he => hds e (by simp [he])
      rw [digitBytes] at hrec
      rw [hrec]

/-- What follows a number continues it in no base. -/
def EndsNumber (ext : Bytes) : Prop :=
  ∀ b bs, ext = b :: bs → hexValue b = none ∧ b ≠ 0x78 ∧ b ≠ 0x58

theorem EndsNumber.endsDigits {ext : Bytes} (h : EndsNumber ext) (base : ℕ) :
    EndsDigits base ext := by
  intro b bs hext d hd
  rw [(h b bs hext).1] at hd
  exact absurd hd (by simp)

theorem endsNumber_cons {b : UInt8} (h : hexValue b = none ∧ b ≠ 0x78 ∧ b ≠ 0x58) (bs : Bytes) :
    EndsNumber (b :: bs) := by
  intro c cs hext
  obtain ⟨rfl, -⟩ := List.cons.inj hext
  exact h

/-- `%d` and `%lld`. -/
def signedDecimal (i : ℤ) : Bytes :=
  (if i < 0 then [minus] else []) ++ decimal i.natAbs

theorem decimal_eq_digitBytes (n : ℕ) : n = 0 ∧ decimal n = digitBytes [0] ∨
    ∃ d ds, decimal n = digitBytes (d :: ds) ∧ d ≠ 0 ∧ (∀ e ∈ d :: ds, e < 10) ∧
      numberOf 10 (d :: ds) = n := by
  rcases Nat.eq_zero_or_pos n with rfl | hpos
  · exact Or.inl ⟨rfl, rfl⟩
  · right
    have hn : n ≠ 0 := Nat.pos_iff_ne_zero.mp hpos
    have hne : Nat.digits 10 n ≠ [] := Nat.digits_ne_nil_iff_ne_zero.mpr hn
    have hreverse : (Nat.digits 10 n).reverse =
        (Nat.digits 10 n).getLast hne :: (Nat.digits 10 n).dropLast.reverse := by
      conv_lhs => rw [← List.dropLast_append_getLast hne]
      rw [List.reverse_append, List.reverse_singleton, List.singleton_append]
    refine ⟨_, (Nat.digits 10 n).dropLast.reverse, ?_, Nat.getLast_digit_ne_zero 10 hn, ?_, ?_⟩
    · rw [decimal, if_neg hn, ← hreverse, digitBytes]
    · intro e he
      rw [← hreverse, List.mem_reverse] at he
      exact Nat.digits_lt_base (by decide) he
    · rw [← hreverse, numberOf, List.reverse_reverse, Nat.ofDigits_digits]

theorem digitByte_facts {d : ℕ} (h : d < 10) :
    isSpace (UInt8.ofNat (0x30 + d)) = false ∧ UInt8.ofNat (0x30 + d) ≠ minus ∧
      UInt8.ofNat (0x30 + d) ≠ 0x2b ∧ (UInt8.ofNat (0x30 + d) = zero ↔ d = 0) := by
  have hall : ∀ d : Fin 10, isSpace (UInt8.ofNat (0x30 + d.val)) = false ∧
      UInt8.ofNat (0x30 + d.val) ≠ minus ∧ UInt8.ofNat (0x30 + d.val) ≠ 0x2b ∧
      (UInt8.ofNat (0x30 + d.val) = zero ↔ d.val = 0) := by decide
  exact hall ⟨d, h⟩

/-- The base of a number that was printed in decimal and all of its digits. -/
theorem readBase_decimal (n : ℕ) {ext : Bytes} (hext : EndsNumber ext) :
    ∃ base d ds, readBase (decimal n ++ ext) = (base, decimal n ++ ext) ∧ base ≠ 16 ∧
      spanDigits base (decimal n ++ ext) = (d :: ds, ext) ∧ numberOf base (d :: ds) = n ∧
      spanDigits 10 (decimal n ++ ext) = (d :: ds, ext) ∧ numberOf 10 (d :: ds) = n := by
  rcases decimal_eq_digitBytes n with ⟨rfl, hdecimal⟩ | ⟨d, ds, hdecimal, hd, hten, hnumber⟩
  · -- a zero is read in base 8
    have hspan : ∀ base, 0 < base → spanDigits base (decimal 0 ++ ext) = ([0], ext) := by
      intro base hbase
      rw [hdecimal]
      exact spanDigits_digitBytes (by simpa using hbase) (hext.endsDigits base)
    refine ⟨8, 0, [], ?_, by decide, hspan 8 (by decide), rfl, hspan 10 (by decide), rfl⟩
    change readBase (zero :: ext) = (8, zero :: ext)
    rw [readBase.eq_def]
    simp only [if_pos]
    rcases ext with _ | ⟨x, _ | ⟨d, cs⟩⟩
    · rfl
    · rfl
    · obtain ⟨-, hx, hx'⟩ := hext x (d :: cs) rfl
      simp [hx, hx']
  · have hspan : spanDigits 10 (decimal n ++ ext) = (d :: ds, ext) := by
      rw [hdecimal]
      exact spanDigits_digitBytes (fun e he => ⟨hten e he, hten e he⟩) (hext.endsDigits 10)
    refine ⟨10, d, ds, ?_, by decide, hspan, hnumber, hspan, hnumber⟩
    obtain ⟨-, -, -, hzero⟩ := digitByte_facts (hten d (by simp))
    rw [hdecimal, digitBytes, List.map_cons, List.cons_append, readBase.eq_def]
    simp only [if_neg (fun h => hd (hzero.mp h))]

theorem readSign_signed (negative : Bool) (n : ℕ) (ext : Bytes) :
    readSign ((((if negative then [minus] else []) ++ decimal n) ++ ext).dropWhile isSpace) =
      (negative, decimal n ++ ext) := by
  cases negative with
  | true =>
      rw [if_pos rfl, List.singleton_append, List.cons_append,
        List.dropWhile_cons_of_neg (by decide), readSign, if_pos rfl]
  | false =>
      rw [if_neg (by decide), List.nil_append]
      obtain ⟨d, ds, hdecimal, hd⟩ : ∃ d ds, decimal n = digitBytes (d :: ds) ∧ d < 10 := by
        rcases decimal_eq_digitBytes n with ⟨-, h⟩ | ⟨d, ds, h, -, hten, -⟩
        · exact ⟨0, [], h, by decide⟩
        · exact ⟨d, ds, h, hten d (by simp)⟩
      obtain ⟨hspace, hminus, hplus, -⟩ := digitByte_facts hd
      rw [hdecimal, digitBytes, List.map_cons, List.cons_append,
        List.dropWhile_cons_of_neg (ne_true_of_eq_false hspace), readSign, if_neg hminus, if_neg hplus]

/-- `strtol` reads back what was printed. -/
theorem strtol_signed (negative : Bool) (n : ℕ) {ext : Bytes} (hext : EndsNumber ext) :
    strtol (((if negative then [minus] else []) ++ decimal n) ++ ext) =
      (clampLong (if negative then -n else n), ext) := by
  obtain ⟨base, d, ds, hbase, -, hspan, hnumber, -⟩ := readBase_decimal n hext
  simp only [strtol, readSign_signed, hbase, hspan, hnumber]

theorem clampLong_of_mem {i : ℤ} (hlo : -2 ^ 63 ≤ i) (hhi : i < 2 ^ 63) : clampLong i = i := by
  rw [clampLong]
  omega

theorem strtol_signedDecimal {i : ℤ} (hlo : -2 ^ 63 ≤ i) (hhi : i < 2 ^ 63) {ext : Bytes}
    (hext : EndsNumber ext) : strtol (signedDecimal i ++ ext) = (i, ext) := by
  have h := strtol_signed (decide (i < 0)) i.natAbs hext
  simp only [decide_eq_true_eq] at h
  rw [signedDecimal, h]
  have hvalue : (if i < 0 then -(i.natAbs : ℤ) else i.natAbs) = i := by
    split_ifs <;> omega
  rw [hvalue, clampLong_of_mem hlo hhi]

/-! ### Reading a printed double -/

theorem numberOf_append (base : ℕ) (xs ys : List ℕ) :
    numberOf base (xs ++ ys) = numberOf base xs * base ^ ys.length + numberOf base ys := by
  rw [numberOf, List.reverse_append, Nat.ofDigits_append, List.length_reverse, numberOf, numberOf,
    Nat.mul_comm, Nat.add_comm]

theorem numberOf_singleton (base d : ℕ) : numberOf base [d] = d := by
  simp [numberOf]

theorem fixedDigits_eq_digitBytes (k n : ℕ) : ∃ ds, fixedDigits k n = digitBytes ds ∧
    (∀ d ∈ ds, d < 10) ∧ ds.length = k ∧ numberOf 10 ds = n % 10 ^ k := by
  induction k generalizing n with
  | zero => exact ⟨[], rfl, by simp, rfl, by simp [numberOf, Nat.mod_one]⟩
  | succ k ih =>
      obtain ⟨ds, hdigits, hten, hlength, hnumber⟩ := ih (n / 10)
      refine ⟨ds ++ [n % 10], ?_, ?_, by simp [hlength], ?_⟩
      · rw [fixedDigits, hdigits, digitBytes, digitBytes, List.map_append]
        rfl
      · intro d hd
        rcases List.mem_append.mp hd with hmem | hmem
        · exact hten d hmem
        · rw [List.mem_singleton.mp hmem]
          exact Nat.mod_lt n (by decide)
      · rw [numberOf_append, hnumber, numberOf_singleton, Nat.pow_succ', Nat.mod_mul,
          List.length_singleton, Nat.pow_one]
        omega

theorem EndsNumber.readExponent_eq {ext : Bytes} (h : EndsNumber ext) :
    readExponent (fun b => b = 0x65 || b = 0x45) ext = (0, ext) := by
  cases ext with
  | nil => rfl
  | cons b bs =>
      have hb := (h b bs rfl).1
      have hletter : (b = 0x65 || b = 0x45) = false := by
        simp only [Bool.or_eq_false_iff, decide_eq_false_iff_not]
        refine ⟨?_, ?_⟩
        · rintro rfl
          exact absurd hb (by decide)
        · rintro rfl
          exact absurd hb (by decide)
      rw [readExponent]
      simp only [hletter]
      rfl

theorem two_pow_mul_two_pow {i j k : ℕ} (h : i + j = k) : 2 ^ i * 2 ^ j = 2 ^ k := by
  rw [← Nat.pow_add, h]

theorem exists_pow_mul_unitScale : ∃ j, 2 ^ j * unitScale = 2 ^ greatestPower := by
  refine ⟨971, ?_⟩
  unfold unitScale greatestPower
  exact two_pow_mul_two_pow (by decide)

theorem roundHalfEven_scaled_le (d : FiniteDouble) (k : ℕ) :
    roundHalfEven (d.scaled * 10 ^ k) unitScale * unitScale ≤
      (2 ^ 53 - 1) * 2 ^ greatestPower * 10 ^ k := by
  obtain ⟨j, hpower⟩ := exists_pow_mul_unitScale
  have hround : roundHalfEven (d.scaled * 10 ^ k) unitScale ≤
      (2 ^ 53 - 1) * 2 ^ j * 10 ^ k := by
    refine roundHalfEven_le_of_le_mul unitScale_pos ?_
    calc
      d.scaled * 10 ^ k ≤ (2 ^ 53 - 1) * 2 ^ greatestPower * 10 ^ k :=
        Nat.mul_le_mul_right _ d.scaled_le
      _ = (2 ^ 53 - 1) * 2 ^ j * 10 ^ k * unitScale := by rw [← hpower]; ring
  calc
    roundHalfEven (d.scaled * 10 ^ k) unitScale * unitScale ≤
        (2 ^ 53 - 1) * 2 ^ j * 10 ^ k * unitScale := Nat.mul_le_mul_right _ hround
    _ = (2 ^ 53 - 1) * 2 ^ greatestPower * 10 ^ k := by rw [← hpower]; ring

/-- A number that was printed has a point, and digits before and after it. -/
theorem format_eq (d : FiniteDouble) (k : ℕ) : ∃ int frac,
    (Double.finite d).format k =
      ((if d.negative then [minus] else []) ++ decimal int) ++ dot :: digitBytes frac ∧
    (∀ e ∈ frac, e < 10) ∧ frac.length = k ∧
      int * 10 ^ k + numberOf 10 frac = roundHalfEven (d.scaled * 10 ^ k) unitScale := by
  generalize hn : roundHalfEven (d.scaled * 10 ^ k) unitScale = n
  obtain ⟨frac, hfrac, hten, hlength, hnumber⟩ := fixedDigits_eq_digitBytes k (n % 10 ^ k)
  refine ⟨n / 10 ^ k, frac, ?_, hten, hlength, ?_⟩
  · simp only [Double.format, hn, hfrac, List.append_assoc]
  · rw [hnumber, Nat.mod_mod, Nat.mul_comm]
    exact Nat.div_add_mod n (10 ^ k)

theorem strtol_minus_eq {b : UInt8} (h : hexValue b = none) (bs : Bytes) :
    strtol (minus :: b :: bs) = (0, minus :: b :: bs) := by
  have hzero : b ≠ zero := by
    rintro rfl
    exact absurd h (by decide)
  rw [strtol, List.dropWhile_cons_of_neg (by decide)]
  simp only [readSign, if_true, readBase, if_neg hzero, spanDigits, h]

/-- A finite number that was printed is read as a finite number, all of it. -/
theorem strtod_format (d : FiniteDouble) (k : ℕ) :
    ∃ d', ∀ ext, EndsNumber ext →
      strtod ((Double.finite d).format k ++ ext) = (.finite d', ext) := by
  obtain ⟨int, frac, htext, hten, hlength, hnumber⟩ := format_eq d k
  generalize hn : roundHalfEven (d.scaled * 10 ^ k) unitScale = n at hnumber
  have hfinite : (Double.ofRatio d.negative n (10 ^ k)).isFinite = true := by
    refine Double.ofRatio_isFinite _ (by positivity) ?_
    rw [← hn]
    exact roundHalfEven_scaled_le d k
  obtain ⟨d', hd'⟩ := Double.exists_finite hfinite
  refine ⟨d', fun ext hext => ?_⟩
  have hdot : EndsNumber (dot :: (digitBytes frac ++ ext)) := endsNumber_cons (by decide) _
  obtain ⟨base, i, is, hbase, hne, -, -, hspan, hint⟩ := readBase_decimal int hdot
  have hvalue : numberOf 10 (i :: is ++ frac) = n := by
    rw [numberOf_append, hint, hlength, hnumber]
  have hfraction : spanDigits 10 (digitBytes frac ++ ext) = (frac, ext) :=
    spanDigits_digitBytes (fun e he => ⟨hten e he, hten e he⟩) (hext.endsDigits 10)
  rw [htext, List.append_assoc, List.cons_append]
  simp only [strtod, readSign_signed, hbase, if_neg hne, spanFraction, hspan, if_true, hfraction,
    hext.readExponent_eq, hvalue, hlength, scaledDouble, le_refl, Int.toNat_zero, Nat.pow_zero,
    Nat.mul_one, hd']

/-! ### What `strtoll` takes for a number -/

/-- The number that a text denotes in decimal: blanks, a sign or none, and digits. -/
inductive Denotes : Bytes → ℤ → Prop
  | digits {ds : List ℕ} (hne : ds ≠ []) (hten : ∀ d ∈ ds, d < 10) :
      Denotes (digitBytes ds) (numberOf 10 ds)
  | plus {ds : List ℕ} (hne : ds ≠ []) (hten : ∀ d ∈ ds, d < 10) :
      Denotes (0x2b :: digitBytes ds) (numberOf 10 ds)
  | negative {ds : List ℕ} (hne : ds ≠ []) (hten : ∀ d ∈ ds, d < 10) :
      Denotes (minus :: digitBytes ds) (-numberOf 10 ds)
  | blank {b : UInt8} {text : Bytes} {n : ℤ} (hb : isSpace b = true) (h : Denotes text n) :
      Denotes (b :: text) n

theorem Denotes.blanks {blanks text : Bytes} {n : ℤ} (hblanks : ∀ b ∈ blanks, isSpace b = true)
    (h : Denotes text n) : Denotes (blanks ++ text) n := by
  induction blanks with
  | nil => exact h
  | cons b blanks ih =>
      exact .blank (hblanks b (by simp)) (ih fun c hc => hblanks c (by simp [hc]))

theorem eq_digitByte_of_hexValue {b : UInt8} {d : ℕ} (h : hexValue b = some d) (hd : d < 10) :
    b = UInt8.ofNat (0x30 + d) := by
  have hvalue : b.toNat = 0x30 + d := by
    simp only [hexValue, isDigit, Bool.and_eq_true, decide_eq_true_eq] at h
    split_ifs at h
    · have hd := Option.some.inj h
      omega
    · have hd := Option.some.inj h
      omega
    · have hd := Option.some.inj h
      omega
  rw [← hvalue, UInt8.ofNat_toNat]

theorem spanDigits_decimal (bs : Bytes) :
    bs = digitBytes (spanDigits 10 bs).1 ++ (spanDigits 10 bs).2 ∧
      ∀ d ∈ (spanDigits 10 bs).1, d < 10 := by
  induction bs with
  | nil => exact ⟨rfl, by simp [spanDigits]⟩
  | cons b bs ih =>
      rw [spanDigits]
      cases hb : hexValue b with
      | none => exact ⟨rfl, by simp⟩
      | some d =>
          by_cases hd : d < 10
          · simp only [if_pos hd]
            refine ⟨?_, List.forall_mem_cons.mpr ⟨hd, ih.2⟩⟩
            rw [digitBytes, List.map_cons, List.cons_append, ← eq_digitByte_of_hexValue hb hd,
              ← digitBytes, ← ih.1]
          · simp only [if_neg hd]
            exact ⟨rfl, by simp⟩

theorem readSign_denotes (bs : Bytes) : ∃ sign, bs = sign ++ (readSign bs).2 ∧
    ∀ ds : List ℕ, ds ≠ [] → (∀ d ∈ ds, d < 10) → Denotes (sign ++ digitBytes ds)
      (if (readSign bs).1 then -(numberOf 10 ds : ℤ) else numberOf 10 ds) := by
  cases bs with
  | nil => exact ⟨[], rfl, fun ds hne hten => .digits hne hten⟩
  | cons b bs =>
      by_cases hminus : b = minus
      · refine ⟨[b], by simp [readSign, hminus], fun ds hne hten => ?_⟩
        rw [readSign, if_pos hminus, hminus]
        exact .negative hne hten
      by_cases hplus : b = 0x2b
      · refine ⟨[b], by rw [readSign, if_neg hminus, if_pos hplus]; rfl, fun ds hne hten => ?_⟩
        rw [readSign, if_neg hminus, if_pos hplus, hplus]
        exact .plus hne hten
      · refine ⟨[], by simp [readSign, hminus, hplus], fun ds hne hten => ?_⟩
        rw [readSign, if_neg hminus, if_neg hplus]
        exact .digits hne hten

/-- Where a number is read, the text starts with what denotes it. -/
theorem strtollDecimal_eq (bs : Bytes) : strtollDecimal bs = (0, bs) ∨
    ∃ text n rest, bs = text ++ rest ∧ Denotes text n ∧
      strtollDecimal bs = (clampLong n, rest) := by
  simp only [strtollDecimal]
  obtain ⟨sign, hsign, hdenotes⟩ := readSign_denotes (bs.dropWhile isSpace)
  obtain ⟨hdigits, hten⟩ := spanDigits_decimal (readSign (bs.dropWhile isSpace)).2
  split
  · exact Or.inl rfl
  · next d ds rest hspan =>
      rw [hspan] at hdigits hten
      refine Or.inr ⟨bs.takeWhile isSpace ++ (sign ++ digitBytes (d :: ds)), _, rest, ?_, ?_, rfl⟩
      · rw [List.append_assoc, List.append_assoc, ← hdigits, ← hsign,
          List.takeWhile_append_dropWhile]
      · exact (hdenotes _ (List.cons_ne_nil d ds) hten).blanks
          fun b hb => List.mem_takeWhile_imp hb

/-- The first byte of a number that is written with its sign is no blank. -/
theorem dropWhile_isSpace_digitBytes {ds : List ℕ} (hne : ds ≠ []) (hten : ∀ d ∈ ds, d < 10)
    (ext : Bytes) : (digitBytes ds ++ ext).dropWhile isSpace = digitBytes ds ++ ext := by
  cases ds with
  | nil => exact absurd rfl hne
  | cons d ds =>
      obtain ⟨hspace, -⟩ := digitByte_facts (hten d (by simp))
      rw [digitBytes, List.map_cons, List.cons_append,
        List.dropWhile_cons_of_neg (ne_true_of_eq_false hspace)]

theorem readSign_digitBytes {ds : List ℕ} (hne : ds ≠ []) (hten : ∀ d ∈ ds, d < 10)
    (ext : Bytes) : readSign (digitBytes ds ++ ext) = (false, digitBytes ds ++ ext) := by
  cases ds with
  | nil => exact absurd rfl hne
  | cons d ds =>
      obtain ⟨-, hminus, hplus, -⟩ := digitByte_facts (hten d (by simp))
      rw [digitBytes, List.map_cons, List.cons_append, readSign, if_neg hminus, if_neg hplus]

theorem Denotes.readSign_eq {text : Bytes} {n : ℤ} (h : Denotes text n) (ext : Bytes) :
    ∃ negative ds, readSign ((text ++ ext).dropWhile isSpace) = (negative, digitBytes ds ++ ext) ∧
      ds ≠ [] ∧ (∀ d ∈ ds, d < 10) ∧
      n = if negative then -(numberOf 10 ds : ℤ) else numberOf 10 ds := by
  induction h with
  | digits hne hten =>
      refine ⟨false, _, ?_, hne, hten, rfl⟩
      rw [dropWhile_isSpace_digitBytes hne hten, readSign_digitBytes hne hten]
  | plus hne hten =>
      refine ⟨false, _, ?_, hne, hten, rfl⟩
      rw [List.cons_append, List.dropWhile_cons_of_neg (by decide), readSign, if_neg (by decide),
        if_pos rfl]
  | negative hne hten =>
      refine ⟨true, _, ?_, hne, hten, rfl⟩
      rw [List.cons_append, List.dropWhile_cons_of_neg (by decide), readSign, if_pos rfl]
  | blank hb h ih =>
      obtain ⟨negative, ds, hread, hrest⟩ := ih
      refine ⟨negative, ds, ?_, hrest⟩
      rw [List.cons_append, List.dropWhile_cons_of_pos hb, hread]

/-- `strtoll` reads what denotes a number. -/
theorem Denotes.strtollDecimal_eq {text : Bytes} {n : ℤ} (h : Denotes text n) {ext : Bytes}
    (hext : EndsDigits 10 ext) : strtollDecimal (text ++ ext) = (clampLong n, ext) := by
  obtain ⟨negative, ds, hread, hne, hten, rfl⟩ := h.readSign_eq ext
  have hspan := spanDigits_digitBytes (fun d hd => ⟨hten d hd, hten d hd⟩) hext
  cases ds with
  | nil => exact absurd rfl hne
  | cons d ds => simp only [strtollDecimal, hread, hspan]

theorem Denotes.mem {text : Bytes} {n : ℤ} (h : Denotes text n) :
    ∀ b ∈ text, isSpace b = true ∨ b = 0x2b ∨ b = minus ∨ isDigit b = true := by
  have hall : ∀ ds : List ℕ, (∀ d ∈ ds, d < 10) → ∀ b ∈ digitBytes ds,
      isSpace b = true ∨ b = 0x2b ∨ b = minus ∨ isDigit b = true := by
    intro ds hten b hb
    obtain ⟨d, hd, rfl⟩ := List.mem_map.mp hb
    have hdigit : ∀ d : Fin 10, isDigit (UInt8.ofNat (0x30 + d.val)) = true := by decide
    exact Or.inr (Or.inr (Or.inr (hdigit ⟨d, hten d hd⟩)))
  induction h with
  | digits hne hten => exact hall _ hten
  | plus hne hten => exact List.forall_mem_cons.mpr ⟨Or.inr (Or.inl rfl), hall _ hten⟩
  | negative hne hten =>
      exact List.forall_mem_cons.mpr ⟨Or.inr (Or.inr (Or.inl rfl)), hall _ hten⟩
  | blank hb h ih => exact List.forall_mem_cons.mpr ⟨Or.inl hb, ih⟩

end AxiomDaemon.Lib

import AxiomDaemon.Lib.Text

/-!
JSON texts as RFC 8259 defines them, by a parser on bytes that says whether a
text is JSON and what it stands for. Strings stand for their UTF-16 code
units, numbers for their own text, and objects for the list of their members
in order, so that nothing about a text but its white space and its escapes is
lost.
-/

namespace AxiomDaemon.Lib

inductive Json
  | null
  | bool (b : Bool)
  | num (text : Bytes)
  | str (units : List ℕ)
  | arr (elements : List Json)
  | obj (members : List (List ℕ × Json))

namespace Json

abbrev quote : UInt8 := 0x22
abbrev comma : UInt8 := 0x2c
abbrev minus : UInt8 := 0x2d
abbrev dot : UInt8 := 0x2e
abbrev slash : UInt8 := 0x2f
abbrev zero : UInt8 := 0x30
abbrev colon : UInt8 := 0x3a
abbrev lbracket : UInt8 := 0x5b
abbrev backslash : UInt8 := 0x5c
abbrev rbracket : UInt8 := 0x5d
abbrev lbrace : UInt8 := 0x7b
abbrev rbrace : UInt8 := 0x7d

/-! ### Strings -/

def hexValue (b : UInt8) : Option ℕ :=
  if isDigit b then some (b.toNat - 0x30)
  else if 0x61 ≤ b.toNat ∧ b.toNat ≤ 0x66 then some (b.toNat - 0x61 + 10)
  else if 0x41 ≤ b.toNat ∧ b.toNat ≤ 0x46 then some (b.toNat - 0x41 + 10)
  else none

/-- The code unit written as four hexadecimal digits. -/
def hexUnit (w x y z : UInt8) : Option ℕ :=
  match hexValue w, hexValue x, hexValue y, hexValue z with
  | some w, some x, some y, some z => some (((w * 16 + x) * 16 + y) * 16 + z)
  | _, _, _, _ => none

/-- What a backslash and one more byte stand for. -/
def unescape (b : UInt8) : Option ℕ :=
  if b = quote ∨ b = backslash ∨ b = slash then some b.toNat
  else if b = 0x62 then some 0x08
  else if b = 0x66 then some 0x0c
  else if b = 0x6e then some 0x0a
  else if b = 0x72 then some 0x0d
  else if b = 0x74 then some 0x09
  else none

/-- The items up to the closing quote, and what follows it. -/
def scanString : Bytes → Option (List Item × Bytes)
  | [] => none
  | b :: bs =>
      if b = quote then some ([], bs)
      else if b = backslash then
        match bs with
        | [] => none
        | e :: bs =>
            if e = 0x75 then
              match bs with
              | w :: x :: y :: z :: bs =>
                  match hexUnit w x y z with
                  | some u => (scanString bs).map fun p => (.unit u :: p.1, p.2)
                  | none => none
              | _ => none
            else
              match unescape e with
              | some u => (scanString bs).map fun p => (.unit u :: p.1, p.2)
              | none => none
      else if b.toNat < 0x20 then none
      else (scanString bs).map fun p => (.lit b :: p.1, p.2)

/-- A string after its opening quote. -/
def parseString (bs : Bytes) : Option (List ℕ × Bytes) :=
  match scanString bs with
  | none => none
  | some (items, rest) => (unitsOf items).map fun units => (units, rest)

/-! ### Numbers and words -/

/-- The bytes that may continue a number. -/
def isNumberByte (b : UInt8) : Bool := isDigit b || b = dot || b = 0x65 || b = 0x45

def parseInt : Bytes → Option (Bytes × Bytes)
  | [] => none
  | b :: bs =>
      if b = zero then some ([b], bs)
      else if isDigit b then some (b :: bs.takeWhile isDigit, bs.dropWhile isDigit)
      else none

/-- One or more digits. -/
def parseDigits (bs : Bytes) : Option (Bytes × Bytes) :=
  if bs.takeWhile isDigit = [] then none else some (bs.takeWhile isDigit, bs.dropWhile isDigit)

def parseFrac : Bytes → Option (Bytes × Bytes)
  | [] => some ([], [])
  | b :: bs =>
      if b = dot then (parseDigits bs).map fun p => (b :: p.1, p.2) else some ([], b :: bs)

def parseSign : Bytes → Bytes × Bytes
  | [] => ([], [])
  | b :: bs => if b = minus ∨ b = 0x2b then ([b], bs) else ([], b :: bs)

def parseExp : Bytes → Option (Bytes × Bytes)
  | [] => some ([], [])
  | b :: bs =>
      if b = 0x65 ∨ b = 0x45 then
        (parseDigits (parseSign bs).2).map fun p => (b :: (parseSign bs).1 ++ p.1, p.2)
      else some ([], b :: bs)

def parseUnsigned (bs : Bytes) : Option (Bytes × Bytes) :=
  match parseInt bs with
  | none => none
  | some (int, bs) =>
      match parseFrac bs with
      | none => none
      | some (frac, bs) => (parseExp bs).map fun p => (int ++ frac ++ p.1, p.2)

def parseNumber : Bytes → Option (Bytes × Bytes)
  | [] => none
  | b :: bs =>
      if b = minus then (parseUnsigned bs).map fun p => (b :: p.1, p.2)
      else parseUnsigned (b :: bs)

def parseWord (word : Bytes) (v : Json) (bs : Bytes) : Option (Json × Bytes) :=
  if bs.take word.length = word then some (v, bs.drop word.length) else none

/-! ### Values -/

def isWs (b : UInt8) : Bool := b = 0x20 || b = 0x09 || b = 0x0a || b = 0x0d

def skipWs (bs : Bytes) : Bytes := bs.dropWhile isWs

/-- A key, its closing quote and the colon, after the opening quote. -/
def parseKey (bs : Bytes) : Option (List ℕ × Bytes) :=
  match parseString bs with
  | none => none
  | some (key, bs) =>
      match skipWs bs with
      | [] => none
      | b :: bs => if b = colon then some (key, bs) else none

mutual

/-- A value that starts at the first byte. Every level takes one unit of the
fuel. -/
def parseValue : ℕ → Bytes → Option (Json × Bytes)
  | 0, _ => none
  | _ + 1, [] => none
  | fuel + 1, b :: bs =>
      if b = quote then (parseString bs).map fun p => (.str p.1, p.2)
      else if b = lbracket then
        match skipWs bs with
        | [] => none
        | c :: cs =>
            if c = rbracket then some (.arr [], cs)
            else (parseElements fuel (c :: cs)).map fun p => (.arr p.1, p.2)
      else if b = lbrace then
        match skipWs bs with
        | [] => none
        | c :: cs =>
            if c = rbrace then some (.obj [], cs)
            else (parseMembers fuel (c :: cs)).map fun p => (.obj p.1, p.2)
      else if b = 0x74 then parseWord (ascii "true") (.bool true) (b :: bs)
      else if b = 0x66 then parseWord (ascii "false") (.bool false) (b :: bs)
      else if b = 0x6e then parseWord (ascii "null") .null (b :: bs)
      else (parseNumber (b :: bs)).map fun p => (.num p.1, p.2)

/-- The elements of an array and its closing bracket. -/
def parseElements : ℕ → Bytes → Option (List Json × Bytes)
  | 0, _ => none
  | fuel + 1, bs =>
      match parseValue fuel (skipWs bs) with
      | none => none
      | some (v, bs) =>
          match skipWs bs with
          | [] => none
          | c :: cs =>
              if c = comma then (parseElements fuel cs).map fun p => (v :: p.1, p.2)
              else if c = rbracket then some ([v], cs)
              else none

/-- The members of an object and its closing brace. -/
def parseMembers : ℕ → Bytes → Option (List (List ℕ × Json) × Bytes)
  | 0, _ => none
  | fuel + 1, bs =>
      match skipWs bs with
      | [] => none
      | q :: bs =>
          if q = quote then
            match parseKey bs with
            | none => none
            | some (key, bs) =>
                match parseValue fuel (skipWs bs) with
                | none => none
                | some (v, bs) =>
                    match skipWs bs with
                    | [] => none
                    | c :: cs =>
                        if c = comma then
                          (parseMembers fuel cs).map fun p => ((key, v) :: p.1, p.2)
                        else if c = rbrace then some ([(key, v)], cs)
                        else none
          else none

end

/-- What a text stands for; none if it is not JSON. -/
def parse (text : Bytes) : Option Json :=
  match parseValue (text.length + 1) (skipWs text) with
  | none => none
  | some (v, rest) => if skipWs rest = [] then some v else none

/-! ### One step of a string -/

theorem scanString_quote (bs : Bytes) : scanString (quote :: bs) = some ([], bs) := by
  rw [scanString.eq_def]
  simp

theorem scanString_hex {w x y z : UInt8} {u : ℕ} (h : hexUnit w x y z = some u) (bs : Bytes) :
    scanString (backslash :: 0x75 :: w :: x :: y :: z :: bs) =
      (scanString bs).map fun p => (.unit u :: p.1, p.2) := by
  have hne : backslash ≠ quote := by decide
  rw [scanString.eq_def]
  simp [h, hne]

theorem scanString_escape {e : UInt8} {u : ℕ} (h : unescape e = some u) (bs : Bytes) :
    scanString (backslash :: e :: bs) =
      (scanString bs).map fun p => (.unit u :: p.1, p.2) := by
  have he : e ≠ 0x75 := by
    rintro rfl
    rw [show unescape 0x75 = none by decide] at h
    simp at h
  have hne : backslash ≠ quote := by decide
  rw [scanString.eq_def]
  simp [h, he, hne]

theorem scanString_plain {b : UInt8} (hquote : b ≠ quote) (hbackslash : b ≠ backslash)
    (hcontrol : ¬b.toNat < 0x20) (bs : Bytes) :
    scanString (b :: bs) = (scanString bs).map fun p => (.lit b :: p.1, p.2) := by
  rw [scanString.eq_def]
  simp [hquote, hbackslash, hcontrol]

/-! ### Reading on

A text that was read keeps its meaning when more text follows it, as long as
a number at its end does not go on. -/

/-- The text does not start with a byte that could continue a number. -/
def Delimited (ext : Bytes) : Prop := ∀ b bs, ext = b :: bs → isNumberByte b = false

theorem delimited_cons {b : UInt8} {bs : Bytes} (h : isNumberByte b = false) :
    Delimited (b :: bs) := by
  rintro _ _ ⟨⟩
  exact h

theorem delimited_nil : Delimited [] := by
  intro b bs h
  simp at h

theorem of_map_eq_some {α β : Type*} {x : Option (α × Bytes)} {g : α → β} {b : β} {rest : Bytes}
    (h : (x.map fun p => (g p.1, p.2)) = some (b, rest)) :
    ∃ a, x = some (a, rest) ∧ g a = b := by
  obtain ⟨⟨a, rest'⟩, hx, heq⟩ := Option.map_eq_some_iff.mp h
  simp only [Prod.mk.injEq] at heq
  obtain ⟨rfl, rfl⟩ := heq
  exact ⟨a, hx, rfl⟩

theorem scanString_append {bs : Bytes} {items : List Item} {rest : Bytes}
    (h : scanString bs = some (items, rest)) (ext : Bytes) :
    scanString (bs ++ ext) = some (items, rest ++ ext) := by
  fun_induction scanString bs generalizing items rest with
  | case1 => simp at h
  | case2 bs =>
      obtain ⟨rfl, rfl⟩ : [] = items ∧ bs = rest := by simpa using h
      exact scanString_quote _
  | case3 => simp at h
  | case4 w x y z bs u hu _ ih =>
      obtain ⟨p, hrec, rfl⟩ := of_map_eq_some h
      simp only [List.cons_append]
      rw [scanString_hex hu, ih hrec]
      rfl
  | case5 => simp at h
  | case6 => simp at h
  | case7 e bs he u hu _ ih =>
      obtain ⟨p, hrec, rfl⟩ := of_map_eq_some h
      simp only [List.cons_append]
      rw [scanString_escape hu, ih hrec]
      rfl
  | case8 => simp at h
  | case9 => simp at h
  | case10 b bs hq hb hc ih =>
      obtain ⟨p, hrec, rfl⟩ := of_map_eq_some h
      simp only [List.cons_append]
      rw [scanString_plain hq hb hc, ih hrec]
      rfl

theorem parseString_append {bs : Bytes} {units : List ℕ} {rest : Bytes}
    (h : parseString bs = some (units, rest)) (ext : Bytes) :
    parseString (bs ++ ext) = some (units, rest ++ ext) := by
  rw [parseString] at h ⊢
  cases hscan : scanString bs with
  | none => simp [hscan] at h
  | some p =>
      rw [scanString_append hscan ext]
      simp only [hscan, Option.map_eq_some_iff] at h
      obtain ⟨units', hunits, heq⟩ := h
      simp only [Prod.mk.injEq] at heq
      obtain ⟨rfl, rfl⟩ := heq
      simp [hunits]

theorem takeWhile_append_of_stop {p : UInt8 → Bool} {bs ext : Bytes}
    (h : bs.dropWhile p = [] → ∀ b cs, ext = b :: cs → p b = false) :
    (bs ++ ext).takeWhile p = bs.takeWhile p ∧
      (bs ++ ext).dropWhile p = bs.dropWhile p ++ ext := by
  induction bs with
  | nil =>
      cases ext with
      | nil => simp
      | cons b cs => simp [h rfl b cs rfl]
  | cons b bs ih =>
      by_cases hb : p b
      · simpa [hb] using ih (by simpa [hb] using h)
      · simp [hb]

theorem isDigit_of_not_numberByte {b : UInt8} (h : isNumberByte b = false) :
    isDigit b = false := by
  simp only [isNumberByte, Bool.or_eq_false_iff] at h
  exact h.1.1.1

section Numbers

variable {bs text rest ext : Bytes}

theorem digits_append (h : bs.dropWhile isDigit = [] → Delimited ext) :
    (bs ++ ext).takeWhile isDigit = bs.takeWhile isDigit ∧
      (bs ++ ext).dropWhile isDigit = bs.dropWhile isDigit ++ ext :=
  takeWhile_append_of_stop fun hnil b cs hext =>
    isDigit_of_not_numberByte (h hnil b cs hext)

theorem parseInt_append (h : parseInt bs = some (text, rest)) (hext : rest = [] → Delimited ext) :
    parseInt (bs ++ ext) = some (text, rest ++ ext) := by
  cases bs with
  | nil => simp [parseInt] at h
  | cons b bs =>
      simp only [parseInt, List.cons_append] at h ⊢
      split at h
      · next hb =>
          simp only [Option.some.injEq, Prod.mk.injEq] at h
          obtain ⟨rfl, rfl⟩ := h
          simp [hb]
      · next hb =>
          split at h
          · next hd =>
              simp only [Option.some.injEq, Prod.mk.injEq] at h
              obtain ⟨rfl, rfl⟩ := h
              obtain ⟨htake, hdrop⟩ := digits_append hext
              simp [hb, hd, htake, hdrop]
          · simp at h

theorem parseDigits_append (h : parseDigits bs = some (text, rest))
    (hext : rest = [] → Delimited ext) : parseDigits (bs ++ ext) = some (text, rest ++ ext) := by
  simp only [parseDigits] at h ⊢
  split at h
  · simp at h
  · next hne =>
      simp only [Option.some.injEq, Prod.mk.injEq] at h
      obtain ⟨rfl, rfl⟩ := h
      obtain ⟨htake, hdrop⟩ := digits_append hext
      simp [htake, hdrop, hne]

theorem parseFrac_append (h : parseFrac bs = some (text, rest))
    (hext : rest = [] → Delimited ext) : parseFrac (bs ++ ext) = some (text, rest ++ ext) := by
  cases bs with
  | nil =>
      simp only [parseFrac, Option.some.injEq, Prod.mk.injEq] at h
      obtain ⟨rfl, rfl⟩ := h
      cases ext with
      | nil => rfl
      | cons b cs =>
          have hb := hext rfl b cs rfl
          have hdot : b ≠ dot := by
            rintro rfl
            simp [isNumberByte] at hb
          simp [parseFrac, hdot]
  | cons b bs =>
      simp only [parseFrac, List.cons_append] at h ⊢
      split at h
      · next hb =>
          obtain ⟨p, hrec, rfl⟩ := of_map_eq_some h
          simp [hb, parseDigits_append hrec hext]
      · next hb =>
          simp only [Option.some.injEq, Prod.mk.injEq] at h
          obtain ⟨rfl, rfl⟩ := h
          simp [hb]

theorem parseSign_append (hne : bs ≠ []) (ext : Bytes) :
    parseSign (bs ++ ext) = ((parseSign bs).1, (parseSign bs).2 ++ ext) := by
  cases bs with
  | nil => exact absurd rfl hne
  | cons b bs =>
      simp only [parseSign, List.cons_append]
      split <;> simp

theorem parseExp_append (h : parseExp bs = some (text, rest))
    (hext : rest = [] → Delimited ext) : parseExp (bs ++ ext) = some (text, rest ++ ext) := by
  cases bs with
  | nil =>
      simp only [parseExp, Option.some.injEq, Prod.mk.injEq] at h
      obtain ⟨rfl, rfl⟩ := h
      cases ext with
      | nil => rfl
      | cons b cs =>
          have hb := hext rfl b cs rfl
          have hexp : ¬(b = 0x65 ∨ b = 0x45) := by
            rintro (rfl | rfl) <;> simp [isNumberByte] at hb
          simp [parseExp, hexp]
  | cons b bs =>
      simp only [parseExp, List.cons_append] at h ⊢
      split at h
      · next hb =>
          obtain ⟨p, hrec, rfl⟩ :=
            of_map_eq_some (g := fun ds => b :: ((parseSign bs).1 ++ ds)) h
          have hne : bs ≠ [] := by
            rintro rfl
            simp [parseSign, parseDigits] at hrec
          simp [hb, parseSign_append hne, parseDigits_append hrec hext]
      · next hb =>
          simp only [Option.some.injEq, Prod.mk.injEq] at h
          obtain ⟨rfl, rfl⟩ := h
          simp [hb]

theorem parseUnsigned_append (h : parseUnsigned bs = some (text, rest))
    (hext : rest = [] → Delimited ext) : parseUnsigned (bs ++ ext) = some (text, rest ++ ext) := by
  simp only [parseUnsigned] at h ⊢
  cases hint : parseInt bs with
  | none => simp [hint] at h
  | some p =>
      obtain ⟨int, bs₁⟩ := p
      simp only [hint] at h
      cases hfrac : parseFrac bs₁ with
      | none => simp [hfrac] at h
      | some p =>
          obtain ⟨frac, bs₂⟩ := p
          simp only [hfrac] at h
          obtain ⟨p, hexp, rfl⟩ := of_map_eq_some h
          -- when nothing is left at the end, nothing was left in between either
          have h₂ : bs₂ = [] → Delimited ext := by
            rintro rfl
            exact hext (by simp [parseExp] at hexp; simp [hexp])
          have h₁ : bs₁ = [] → Delimited ext := by
            rintro rfl
            exact h₂ (by simp [parseFrac] at hfrac; simp [hfrac])
          rw [parseInt_append hint h₁]
          simp only
          rw [parseFrac_append hfrac h₂]
          simp only
          rw [parseExp_append hexp hext]
          rfl

theorem parseNumber_append (h : parseNumber bs = some (text, rest))
    (hext : rest = [] → Delimited ext) : parseNumber (bs ++ ext) = some (text, rest ++ ext) := by
  cases bs with
  | nil => simp [parseNumber] at h
  | cons b bs =>
      simp only [parseNumber, List.cons_append] at h ⊢
      split at h
      · next hb =>
          obtain ⟨p, hrec, rfl⟩ := of_map_eq_some h
          simp [hb, parseUnsigned_append hrec hext]
      · next hb =>
          rw [if_neg hb]
          exact parseUnsigned_append h hext

end Numbers

theorem parseWord_append {word : Bytes} {v w : Json} {bs rest : Bytes}
    (h : parseWord word v bs = some (w, rest)) (ext : Bytes) :
    parseWord word v (bs ++ ext) = some (w, rest ++ ext) := by
  simp only [parseWord] at h ⊢
  split at h
  · next heq =>
      simp only [Option.some.injEq, Prod.mk.injEq] at h
      obtain ⟨rfl, rfl⟩ := h
      have hlen : word.length ≤ bs.length := by
        have hlength := congrArg List.length heq
        rw [List.length_take] at hlength
        omega
      rw [List.take_append_of_le_length hlen, List.drop_append_of_le_length hlen, if_pos heq]
  · simp at h

theorem skipWs_append {bs ext : Bytes} {c : UInt8} {cs : Bytes} (h : skipWs bs = c :: cs) :
    skipWs (bs ++ ext) = c :: (cs ++ ext) := by
  have hstop : bs.dropWhile isWs = [] → ∀ b cs, ext = b :: cs → isWs b = false :=
    fun hnil => absurd h (by simp [skipWs, hnil])
  rw [skipWs, (takeWhile_append_of_stop hstop).2, ← skipWs, h, List.cons_append]

theorem parseKey_append {bs : Bytes} {key : List ℕ} {rest : Bytes}
    (h : parseKey bs = some (key, rest)) (ext : Bytes) :
    parseKey (bs ++ ext) = some (key, rest ++ ext) := by
  simp only [parseKey] at h ⊢
  cases hstr : parseString bs with
  | none => simp [hstr] at h
  | some p =>
      obtain ⟨units, bs₁⟩ := p
      simp only [hstr] at h
      rw [parseString_append hstr ext]
      cases hws : skipWs bs₁ with
      | nil => simp [hws] at h
      | cons c cs =>
          simp only [hws] at h
          simp only [skipWs_append hws]
          split at h
          · next hc =>
              simp only [Option.some.injEq, Prod.mk.injEq] at h
              obtain ⟨rfl, rfl⟩ := h
              rw [if_pos hc]
          · simp at h

section Append

/-- More fuel and more text change nothing about a value that was read. -/
def ValueStable (fuel : ℕ) : Prop :=
  ∀ bs v rest, parseValue fuel bs = some (v, rest) → ∀ fuel' ≥ fuel, ∀ ext,
    (rest = [] → Delimited ext) → parseValue fuel' (bs ++ ext) = some (v, rest ++ ext)

/-- The same for the rest of an array. -/
def ElementsStable (fuel : ℕ) : Prop :=
  ∀ bs vs rest, parseElements fuel bs = some (vs, rest) → ∀ fuel' ≥ fuel, ∀ ext,
    parseElements fuel' (bs ++ ext) = some (vs, rest ++ ext)

/-- The same for the rest of an object. -/
def MembersStable (fuel : ℕ) : Prop :=
  ∀ bs ms rest, parseMembers fuel bs = some (ms, rest) → ∀ fuel' ≥ fuel, ∀ ext,
    parseMembers fuel' (bs ++ ext) = some (ms, rest ++ ext)

theorem valueStable_succ {fuel : ℕ} (he : ElementsStable fuel) (hm : MembersStable fuel) :
    ValueStable (fuel + 1) := by
  rintro (_ | ⟨b, bs⟩) v rest h (_ | fuel') hfuel ext hext
  · simp [parseValue] at h
  · simp [parseValue] at h
  · omega
  simp only [parseValue, List.cons_append] at h ⊢
  split at h
  · next hb =>
      obtain ⟨p, hrec, rfl⟩ := of_map_eq_some h
      rw [if_pos hb, parseString_append hrec]
      rfl
  rw [if_neg ‹_›]
  split at h
  · next hb =>
      rw [if_pos hb]
      cases hws : skipWs bs with
      | nil => simp [hws] at h
      | cons c cs =>
          simp only [hws] at h
          simp only [skipWs_append hws]
          split at h
          · next hc =>
              simp only [Option.some.injEq, Prod.mk.injEq] at h
              obtain ⟨rfl, rfl⟩ := h
              rw [if_pos hc]
          · next hc =>
              obtain ⟨p, hrec, rfl⟩ := of_map_eq_some h
              rw [if_neg hc, ← List.cons_append, he _ _ _ hrec fuel' (by omega)]
              rfl
  rw [if_neg ‹_›]
  split at h
  · next hb =>
      rw [if_pos hb]
      cases hws : skipWs bs with
      | nil => simp [hws] at h
      | cons c cs =>
          simp only [hws] at h
          simp only [skipWs_append hws]
          split at h
          · next hc =>
              simp only [Option.some.injEq, Prod.mk.injEq] at h
              obtain ⟨rfl, rfl⟩ := h
              rw [if_pos hc]
          · next hc =>
              obtain ⟨p, hrec, rfl⟩ := of_map_eq_some h
              rw [if_neg hc, ← List.cons_append, hm _ _ _ hrec fuel' (by omega)]
              rfl
  rw [if_neg ‹_›]
  split at h
  · next hb =>
      rw [if_pos hb, ← List.cons_append]
      exact parseWord_append h ext
  rw [if_neg ‹_›]
  split at h
  · next hb =>
      rw [if_pos hb, ← List.cons_append]
      exact parseWord_append h ext
  rw [if_neg ‹_›]
  split at h
  · next hb =>
      rw [if_pos hb, ← List.cons_append]
      exact parseWord_append h ext
  · next hb =>
      obtain ⟨p, hrec, rfl⟩ := of_map_eq_some h
      rw [if_neg hb, ← List.cons_append, parseNumber_append hrec hext]
      rfl

theorem ValueStable.of_skipWs {fuel : ℕ} (hv : ValueStable fuel) {bs rest : Bytes} {v : Json}
    (h : parseValue fuel (skipWs bs) = some (v, rest)) {c : UInt8} {cs : Bytes}
    (hws : skipWs rest = c :: cs) {fuel' : ℕ} (hfuel : fuel ≤ fuel') (ext : Bytes) :
    parseValue fuel' (skipWs (bs ++ ext)) = some (v, rest ++ ext) := by
  cases hskip : skipWs bs with
  | nil =>
      rw [hskip] at h
      cases fuel <;> simp [parseValue] at h
  | cons d ds =>
      rw [hskip] at h
      rw [skipWs_append hskip, ← List.cons_append]
      refine hv _ _ _ h fuel' hfuel ext ?_
      rintro rfl
      simp [skipWs] at hws

theorem elementsStable_succ {fuel : ℕ} (hv : ValueStable fuel) (he : ElementsStable fuel) :
    ElementsStable (fuel + 1) := by
  rintro bs vs rest h (_ | fuel') hfuel ext
  · omega
  simp only [parseElements] at h ⊢
  cases hval : parseValue fuel (skipWs bs) with
  | none => simp [hval] at h
  | some p =>
      obtain ⟨v, bs₁⟩ := p
      simp only [hval] at h
      cases hws : skipWs bs₁ with
      | nil => simp [hws] at h
      | cons c cs =>
          simp only [hws] at h
          rw [hv.of_skipWs hval hws (by omega) ext]
          simp only [skipWs_append hws]
          split at h
          · next hc =>
              obtain ⟨p, hrec, rfl⟩ := of_map_eq_some h
              rw [if_pos hc, he _ _ _ hrec fuel' (by omega)]
              rfl
          · next hc =>
              rw [if_neg hc]
              split at h
              · next hc' =>
                  simp only [Option.some.injEq, Prod.mk.injEq] at h
                  obtain ⟨rfl, rfl⟩ := h
                  rw [if_pos hc']
              · simp at h

theorem membersStable_succ {fuel : ℕ} (hv : ValueStable fuel) (hm : MembersStable fuel) :
    MembersStable (fuel + 1) := by
  rintro bs ms rest h (_ | fuel') hfuel ext
  · omega
  simp only [parseMembers] at h ⊢
  cases hquote : skipWs bs with
  | nil => simp [hquote] at h
  | cons q bs₁ =>
      simp only [hquote] at h
      simp only [skipWs_append hquote]
      split at h
      · next hq =>
          rw [if_pos hq]
          cases hkey : parseKey bs₁ with
          | none => simp [hkey] at h
          | some p =>
              obtain ⟨key, bs₂⟩ := p
              simp only [hkey] at h
              rw [parseKey_append hkey ext]
              cases hval : parseValue fuel (skipWs bs₂) with
              | none => simp [hval] at h
              | some p =>
                  obtain ⟨v, bs₃⟩ := p
                  simp only [hval] at h
                  cases hws : skipWs bs₃ with
                  | nil => simp [hws] at h
                  | cons c cs =>
                      simp only [hws] at h
                      simp only [hv.of_skipWs hval hws (show fuel ≤ fuel' by omega) ext,
                        skipWs_append hws]
                      split at h
                      · next hc =>
                          obtain ⟨p, hrec, rfl⟩ := of_map_eq_some h
                          rw [if_pos hc, hm _ _ _ hrec fuel' (by omega)]
                          rfl
                      · next hc =>
                          rw [if_neg hc]
                          split at h
                          · next hc' =>
                              simp only [Option.some.injEq, Prod.mk.injEq] at h
                              obtain ⟨rfl, rfl⟩ := h
                              rw [if_pos hc']
                          · simp at h
      · simp at h

theorem stable (fuel : ℕ) : ValueStable fuel ∧ ElementsStable fuel ∧ MembersStable fuel := by
  induction fuel with
  | zero =>
      refine ⟨fun bs v rest h => ?_, fun bs vs rest h => ?_, fun bs ms rest h => ?_⟩
      · simp [parseValue] at h
      · simp [parseElements] at h
      · simp [parseMembers] at h
  | succ fuel ih =>
      obtain ⟨hv, he, hm⟩ := ih
      exact ⟨valueStable_succ he hm, elementsStable_succ hv he, membersStable_succ hv hm⟩

end Append

end Json

end AxiomDaemon.Lib

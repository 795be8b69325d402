import AxiomDaemon.Lib.Loop
import Mathlib.Data.List.DropRight
import Mathlib.Data.List.FinRange
import Mathlib.Logic.Function.Basic

/-!
The decoder of the daemon's configuration files, for a struct of string fields. Its
scanner is a loop over state functions, each of which reads some of the input and names
the state function that goes on. The input is the text as its runes.
-/

namespace AxiomDaemon.Daemon

open Lib StateTransition

abbrev Runes : Type := List Char

def singleQuote : Char := Char.ofNat 0x27

def doubleQuote : Char := Char.ofNat 0x22

def escapeMark : Char := Char.ofNat 0x5c

/-- The white space of `unicode.IsSpace`, as code points. -/
def whiteSpace : List ℕ :=
  [0x09, 0x0a, 0x0b, 0x0c, 0x0d, 0x20, 0x85, 0xa0, 0x1680, 0x2000, 0x2001, 0x2002, 0x2003,
    0x2004, 0x2005, 0x2006, 0x2007, 0x2008, 0x2009, 0x200a, 0x2028, 0x2029, 0x202f, 0x205f,
    0x3000]

def unicodeIsSpace (ch : Char) : Bool := ch.toNat ∈ whiteSpace

/-- The tables of letters and numbers of the `unicode` package. White space and the
punctuation of the format are in neither. -/
structure UnicodeTables where
  isLetter : Char → Bool
  isNumber : Char → Bool
  apart : ∀ ch, unicodeIsSpace ch = true ∨ ch ∈ ['#', ';', '='] →
    isLetter ch = false ∧ isNumber ch = false

namespace ConfigDecoder

/-! ### The struct -/

/-- A field of string type; `pkgPath` is empty for an exported one. -/
structure StructField where
  name : Runes
  pkgPath : Runes
  tag : Runes

/-- Where the value of a keyword is stored, in a struct of so many fields. -/
abbrev TypeInfo (n : ℕ) : Type := Runes → Option (Fin n)

/-- `skip unexported and ignored fields`. -/
def StructField.skipped (field : StructField) : Bool :=
  field.pkgPath ≠ [] || field.tag = ['-']

def StructField.keyword (field : StructField) : Runes :=
  if field.tag ≠ [] then field.tag else field.name

def addField (fields : List StructField) (info : TypeInfo fields.length)
    (i : Fin fields.length) : TypeInfo fields.length :=
  if (fields.get i).skipped then info
  else Function.update info (fields.get i).keyword (some i)

def getTypeInfo (fields : List StructField) : TypeInfo fields.length :=
  (List.finRange fields.length).foldl (addField fields) (fun _ => none)

/-! ### The decoder and its state functions -/

structure Decoder (n : ℕ) where
  /-- What is left of the input stream. -/
  r : Runes
  fields : TypeInfo n
  keyword : Runes
  token : Runes

/-- The fields of the struct that is decoded into. -/
abbrev Values (n : ℕ) : Type := Fin n → Runes

inductive StateFn
  | lexInitial | lexKeyword | lexDelimiter | lexValue | lexSingleQuoteString
  | lexDoubleQuoteString | lexRawString | lexComment
deriving DecidableEq

inductive DecodeError
  /-- `io.EOF` -/
  | eof
  /-- `config: syntax error, expected keyword or comment, got %q` -/
  | expectedKeywordOrComment (got : Char)
  /-- `invalid character %q following keyword: %s` -/
  | invalidCharacter (got : Char) (keyword : Runes)
  /-- `expected delimiter after keyword %q` -/
  | missingDelimiter (keyword : Runes)
  /-- `expected delimiter after keyword '%s', got %q` -/
  | expectedDelimiter (keyword : Runes) (got : Char)
  /-- `unexpected EOF: %q is missing a closing quote` -/
  | missingClosingQuote (keyword : Runes)
deriving DecidableEq

/-- What a state function returns: the next one and no error, or none and maybe an
error. The decoder and the values are as it leaves them. -/
inductive Lexed (n : ℕ)
  | next (state : StateFn) (d : Decoder n) (v : Values n)
  | stop (err : Option DecodeError) (d : Decoder n) (v : Values n)

variable {n : ℕ}

/-- The field of a keyword, if it has one, takes the value. -/
def unmarshalValue (fields : TypeInfo n) (keyword value : Runes) (v : Values n) : Values n :=
  match fields keyword with
  | some idx => Function.update v idx value
  | none => v

/-- `processKeyword`. A field of string type takes every value, so there is no error. -/
def processKeyword (d : Decoder n) (v : Values n) : Decoder n × Values n :=
  ({ d with keyword := [], token := [] }, unmarshalValue d.fields d.keyword d.token v)

/-- `ReadBytes`: what is read, up to and with the delimiter, what is left, and whether the
input ended before it. -/
def readBytes (delim : Char) : Runes → Runes × Runes × Bool
  | [] => ([], [], true)
  | ch :: r =>
      if ch = delim then ([ch], r, false)
      else
        let (value, rest, eof) := readBytes delim r
        (ch :: value, rest, eof)

def lexInitialLoop (U : UnicodeTables) (v : Values n) (d : Decoder n) : Runes → Lexed n
  | [] => .stop (some .eof) d v
  | ch :: r =>
      let d := { d with r := r }
      if unicodeIsSpace ch then lexInitialLoop U v d r
      else if ch = '#' || ch = ';' then .next .lexComment d v
      else if U.isLetter ch then .next .lexKeyword { d with token := d.token ++ [ch] } v
      else .stop (some (.expectedKeywordOrComment ch)) d v

def lexInitial (U : UnicodeTables) (d : Decoder n) (v : Values n) : Lexed n :=
  lexInitialLoop U v d d.r

def isAlnum (U : UnicodeTables) (r : Char) : Bool := r = '_' || U.isLetter r || U.isNumber r

def lexKeywordLoop (U : UnicodeTables) (v : Values n) (d : Decoder n) : Runes → Lexed n
  | [] => .stop (some .eof) d v
  | ch :: r =>
      let d := { d with r := r }
      if isAlnum U ch || ch = '.' then lexKeywordLoop U v { d with token := d.token ++ [ch] } r
      else if unicodeIsSpace ch then
        .next .lexDelimiter { d with keyword := d.token, token := [] } v
      else if ch = '=' then .next .lexValue { d with keyword := d.token, token := [] } v
      else .stop (some (.invalidCharacter ch d.token)) d v

def lexKeyword (U : UnicodeTables) (d : Decoder n) (v : Values n) : Lexed n :=
  lexKeywordLoop U v d d.r

def lexDelimiterLoop (v : Values n) (d : Decoder n) : Runes → Lexed n
  | [] => .stop (some (.missingDelimiter d.keyword)) d v
  | ch :: r =>
      let d := { d with r := r }
      if unicodeIsSpace ch then lexDelimiterLoop v d r
      else if ch = '=' then .next .lexValue d v
      else .stop (some (.expectedDelimiter d.keyword ch)) d v

def lexDelimiter (d : Decoder n) (v : Values n) : Lexed n := lexDelimiterLoop v d d.r

def lexValueLoop (v : Values n) (d : Decoder n) : Runes → Lexed n
  | [] =>
      let (d, v) := processKeyword d v
      .stop none d v
  | ch :: r =>
      let d := { d with r := r }
      if unicodeIsSpace ch then
        if ch = '\n' then
          -- the rest of the line was blank
          let (d, v) := processKeyword d v
          .next .lexInitial d v
        else lexValueLoop v d r
      else if ch = singleQuote then .next .lexSingleQuoteString d v
      else if ch = doubleQuote then .next .lexDoubleQuoteString d v
      else .next .lexRawString { d with token := d.token ++ [ch] } v

def lexValue (d : Decoder n) (v : Values n) : Lexed n := lexValueLoop v d d.r

def lexSingleQuoteString (d : Decoder n) (v : Values n) : Lexed n :=
  match readBytes singleQuote d.r with
  | (_, rest, true) => .stop (some (.missingClosingQuote d.keyword)) { d with r := rest } v
  | (value, rest, false) =>
      let (d, v) := processKeyword { d with r := rest, token := d.token ++ value.dropLast } v
      .next .lexInitial d v

/-- The pairs of `unescapeReplacer`, without their backslashes. -/
def unescapeReplacer : List (Char × Char) :=
  [('b', Char.ofNat 0x08), ('t', Char.ofNat 0x09), ('n', Char.ofNat 0x0a),
    ('v', Char.ofNat 0x0b), ('f', Char.ofNat 0x0c), ('r', Char.ofNat 0x0d),
    (doubleQuote, doubleQuote), (escapeMark, escapeMark)]

/-- A replacer goes through its text once, from the left. -/
def unescape : Runes → Runes
  | [] => []
  | [ch] => [ch]
  | ch :: escaped :: rest =>
      match if ch = escapeMark then unescapeReplacer.lookup escaped else none with
      | some replaced => replaced :: unescape rest
      | none => ch :: unescape (escaped :: rest)

def lexDoubleQuoteString (d : Decoder n) (v : Values n) : Lexed n :=
  match readBytes doubleQuote d.r with
  | (_, rest, true) => .stop (some (.missingClosingQuote d.keyword)) { d with r := rest } v
  | (value, rest, false) =>
      let s := d.token ++ value.dropLast
      let (d, v) := processKeyword { d with r := rest, token := unescape s } v
      .next .lexInitial d v

/-- The line in front of its first `#` or `;`. -/
def stripTrailingComment (line : Runes) : Runes :=
  line.takeWhile fun ch => ch ≠ '#' && ch ≠ ';'

def trimRight (s : Runes) : Runes := s.rdropWhile unicodeIsSpace

def lexRawString (d : Decoder n) (v : Values n) : Lexed n :=
  match readBytes '\n' d.r with
  | (value, rest, eof) =>
      let value := trimRight (stripTrailingComment value)
      let (d, v) := processKeyword { d with r := rest, token := d.token ++ value } v
      if eof then .stop none d v else .next .lexInitial d v

/-- Reads lines, or parts of a long one, until one ends. `ReadLine` only fails when nothing is
left to read. -/
def lexComment (d : Decoder n) (v : Values n) : Lexed n :=
  if d.r = [] then .stop (some .eof) d v
  else .next .lexInitial { d with r := (readBytes '\n' d.r).2.1 } v

/-- `state(d, val)` -/
def call (U : UnicodeTables) (state : StateFn) (d : Decoder n) (v : Values n) : Lexed n :=
  match state with
  | .lexInitial => lexInitial U d v
  | .lexKeyword => lexKeyword U d v
  | .lexDelimiter => lexDelimiter d v
  | .lexValue => lexValue d v
  | .lexSingleQuoteString => lexSingleQuoteString d v
  | .lexDoubleQuoteString => lexDoubleQuoteString d v
  | .lexRawString => lexRawString d v
  | .lexComment => lexComment d v

/-- One round of the loop in `Decode`. -/
def lexStep (U : UnicodeTables) : Lexed n → Option (Lexed n)
  | .next state d v => some (call U state d v)
  | .stop .. => none

/-- The decoder in front of an item of the format. -/
def initial (fields : TypeInfo n) (v : Values n) (text : Runes) : Lexed n :=
  .next .lexInitial ⟨text, fields, [], []⟩ v

/-- `Decode` takes the end of the input for no error. -/
def decodeError (err : Option DecodeError) : Option DecodeError :=
  if err = some .eof then none else err

/-- `Decode`: its error, and the values that it leaves. -/
def decode (U : UnicodeTables) (fields : List StructField) (v : Values fields.length)
    (text : Runes) : Option (Option DecodeError × Values fields.length) :=
  match loopFor (lexStep U) (text.length + 2) (initial (getTypeInfo fields) v text) with
  | some (.stop err _ v) => some (decodeError err, v)
  | _ => none

/-! ### Reading up to a delimiter -/

theorem readBytes_append {delim : Char} {body : Runes} (h : delim ∉ body) (r : Runes) :
    readBytes delim (body ++ delim :: r) = (body ++ [delim], r, false) := by
  induction body with
  | nil => simp [readBytes]
  | cons ch body ih =>
      obtain ⟨hch, hbody⟩ := not_or.mp (fun hmem => h (List.mem_cons.mpr hmem))
      rw [List.cons_append, readBytes, if_neg (Ne.symm hch), ih hbody]
      rfl

theorem readBytes_of_notMem {delim : Char} {body : Runes} (h : delim ∉ body) :
    readBytes delim body = (body, [], true) := by
  induction body with
  | nil => rfl
  | cons ch body ih =>
      obtain ⟨hch, hbody⟩ := not_or.mp (fun hmem => h (List.mem_cons.mpr hmem))
      rw [readBytes, if_neg (Ne.symm hch), ih hbody]

/-- Either a text has a first delimiter, with less text behind it, or none. -/
theorem delim_cases (delim : Char) (r : Runes) :
    (∃ body text, r = body ++ delim :: text ∧ delim ∉ body ∧ text.length < r.length) ∨
      delim ∉ r := by
  by_cases h : delim ∈ r
  · obtain ⟨body, text, rfl, hbody⟩ := List.eq_append_cons_of_mem h
    refine .inl ⟨body, text, rfl, hbody, ?_⟩
    simp only [List.length_append, List.length_cons]
    omega
  · exact .inr h

theorem length_readBytes_lt (delim : Char) {r : Runes} (h : r ≠ []) :
    (readBytes delim r).2.1.length < r.length := by
  rcases delim_cases delim r with ⟨body, text, heq, hbody, hlength⟩ | hmem
  · rw [heq, readBytes_append hbody, ← heq]
    exact hlength
  · rw [readBytes_of_notMem hmem]
    exact List.length_pos_iff.mpr h

theorem length_of_readBytes {delim : Char} {r value rest : Runes}
    (h : readBytes delim r = (value, rest, false)) : rest.length < r.length := by
  have hne : r ≠ [] := by
    rintro rfl
    cases h
  have hlt := length_readBytes_lt delim hne
  rwa [h] at hlt

/-! ### Every round reads some of the input -/

section Progress

variable {U : UnicodeTables} {d d' : Decoder n} {v v' : Values n} {state state' : StateFn}

theorem length_lexInitialLoop {r : Runes} (h : lexInitialLoop U v d r = .next state' d' v') :
    d'.r.length < r.length := by
  induction r generalizing d with
  | nil => cases h
  | cons ch r ih =>
      rw [lexInitialLoop] at h
      split_ifs at h with hspace hcomment hletter
      · exact (ih h).trans (Nat.lt_succ_self _)
      · cases h
        exact Nat.lt_succ_self _
      · cases h
        exact Nat.lt_succ_self _

theorem length_lexKeywordLoop {r : Runes} (h : lexKeywordLoop U v d r = .next state' d' v') :
    d'.r.length < r.length := by
  induction r generalizing d with
  | nil => cases h
  | cons ch r ih =>
      rw [lexKeywordLoop] at h
      split_ifs at h with halnum hspace hdelim
      · exact (ih h).trans (Nat.lt_succ_self _)
      · cases h
        exact Nat.lt_succ_self _
      · cases h
        exact Nat.lt_succ_self _

theorem length_lexDelimiterLoop {r : Runes} (h : lexDelimiterLoop v d r = .next state' d' v') :
    d'.r.length < r.length := by
  induction r generalizing d with
  | nil => cases h
  | cons ch r ih =>
      rw [lexDelimiterLoop] at h
      split_ifs at h with hspace hdelim
      · exact (ih h).trans (Nat.lt_succ_self _)
      · cases h
        exact Nat.lt_succ_self _

theorem length_lexValueLoop {r : Runes} (h : lexValueLoop v d r = .next state' d' v') :
    d'.r.length < r.length := by
  induction r generalizing d with
  | nil => cases h
  | cons ch r ih =>
      rw [lexValueLoop] at h
      split_ifs at h with hspace hnewline hsingle hdouble
      · cases h
        exact Nat.lt_succ_self _
      · exact (ih h).trans (Nat.lt_succ_self _)
      all_goals
        cases h
        exact Nat.lt_succ_self _

theorem length_call (h : call U state d v = .next state' d' v') : d'.r.length < d.r.length := by
  cases state with
  | lexInitial => exact length_lexInitialLoop h
  | lexKeyword => exact length_lexKeywordLoop h
  | lexDelimiter => exact length_lexDelimiterLoop h
  | lexValue => exact length_lexValueLoop h
  | lexSingleQuoteString =>
      rw [call, lexSingleQuoteString] at h
      split at h
      · cases h
      · rename_i value rest hread
        cases h
        exact length_of_readBytes hread
  | lexDoubleQuoteString =>
      rw [call, lexDoubleQuoteString] at h
      split at h
      · cases h
      · rename_i value rest hread
        cases h
        exact length_of_readBytes hread
  | lexRawString =>
      rw [call, lexRawString] at h
      rcases hread : readBytes '\n' d.r with ⟨value, rest, eof⟩
      cases eof with
      | true => simp [hread] at h
      | false =>
          rw [hread] at h
          cases h
          exact length_of_readBytes hread
  | lexComment =>
      rw [call, lexComment] at h
      split_ifs at h with hnil
      cases h
      exact length_readBytes_lt '\n' hnil

/-- The length of the input that is left bounds the rounds. -/
def Lexed.measure : Lexed n → ℕ
  | .next _ d _ => d.r.length + 1
  | .stop .. => 0

theorem measure_lexStep {l l' : Lexed n} (h : lexStep U l = some l') :
    l'.measure < l.measure := by
  cases l with
  | stop err d v => cases h
  | next state d v =>
      simp only [lexStep, Option.some.injEq] at h
      cases l' with
      | stop err d' v' => exact Nat.succ_pos _
      | next state' d' v' => exact Nat.succ_lt_succ (length_call h)

end Progress

/-! ### How the loop ends -/

/-- From here the loop of `Decode` ends with this error, this token and these values. -/
def Returns (U : UnicodeTables) (l : Lexed n) (err : Option DecodeError) (token : Runes)
    (v : Values n) : Prop :=
  ∃ err' d, .stop err' d v ∈ eval (lexStep U) l ∧ decodeError err' = err ∧ d.token = token

variable {U : UnicodeTables} {d : Decoder n} {v v₁ v₂ : Values n} {l : Lexed n}
  {err err₁ err₂ : Option DecodeError} {token token₁ token₂ : Runes}

theorem returns_stop (U : UnicodeTables) (err : Option DecodeError) (d : Decoder n)
    (v : Values n) : Returns U (.stop err d v) (decodeError err) d.token v :=
  ⟨err, d, mem_eval.mpr ⟨.refl, rfl⟩, rfl, rfl⟩

theorem returns_next_iff {state : StateFn} :
    Returns U (.next state d v₁) err token v ↔ Returns U (call U state d v₁) err token v := by
  have hreach : Reaches (lexStep U) (.next state d v₁) (call U state d v₁) := .single rfl
  rw [Returns, Returns, reaches_eval hreach]

theorem Returns.of_call_eq {state state' : StateFn} {d' : Decoder n}
    (h : Returns U (.next state' d' v₁) err token v)
    (hcall : call U state d v₁ = call U state' d' v₁) :
    Returns U (.next state d v₁) err token v := by
  apply returns_next_iff.mpr
  rw [hcall]
  exact returns_next_iff.mp h

theorem Returns.unique (h₁ : Returns U l err₁ token₁ v₁) (h₂ : Returns U l err₂ token₂ v₂) :
    err₁ = err₂ ∧ token₁ = token₂ ∧ v₁ = v₂ := by
  obtain ⟨err, d, hmem, rfl, rfl⟩ := h₁
  obtain ⟨err', d', hmem', rfl, rfl⟩ := h₂
  cases Part.mem_unique hmem hmem'
  exact ⟨rfl, rfl, rfl⟩

/-- `Decode` returns on every text. -/
theorem exists_decode (U : UnicodeTables) (fields : List StructField)
    (v : Values fields.length) (text : Runes) :
    ∃ err token v', Returns U (initial (getTypeInfo fields) v text) err token v' ∧
      decode U fields v text = some (err, v') := by
  have hends : (loopFor (lexStep U) (text.length + 2)
      (initial (getTypeInfo fields) v text)).isSome = true :=
    loopFor_isSome (fun t u _ hstep => measure_lexStep hstep) (Nat.lt_succ_self _)
  obtain ⟨final, hfinal⟩ := Option.isSome_iff_exists.mp hends
  have hmem := loopFor_mem_eval hfinal
  cases final with
  | next state d v' => cases (mem_eval.mp hmem).2
  | stop err d v' =>
      refine ⟨decodeError err, d.token, v', ⟨err, d, hmem, rfl, rfl⟩, ?_⟩
      rw [decode, hfinal]

theorem decode_eq_some_iff {fields : List StructField} {v v' : Values fields.length}
    {text : Runes} : decode U fields v text = some (err, v') ↔
      ∃ token, Returns U (initial (getTypeInfo fields) v text) err token v' := by
  obtain ⟨err₁, token₁, v₁, hreturns, hdecode⟩ := exists_decode U fields v text
  rw [hdecode, Option.some.injEq, Prod.mk.injEq]
  constructor
  · rintro ⟨rfl, rfl⟩
    exact ⟨token₁, hreturns⟩
  · rintro ⟨token, h⟩
    obtain ⟨rfl, -, rfl⟩ := hreturns.unique h
    exact ⟨rfl, rfl⟩

end ConfigDecoder

end AxiomDaemon.Daemon

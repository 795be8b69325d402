import AxiomDaemon.Util.ObjectRoundTrip
import AxiomDaemon.Util.ParseMemory

/-!
For which texts `nro_create_from_json` stays where it may. A relation follows the
text through its values, its arrays and its hashes, and holds where every string
that is come to on the way fits. Recursion over the text, and a rule for each
thing a value can start with, take the readers in memory along it.
-/

namespace AxiomDaemon.Util

open AxiomDaemon.Lib AxiomDaemon.Lib.CText
open AxiomDaemon.Lib.Json (quote comma minus colon lbracket rbracket lbrace rbrace backslash)

/-! ### Values and what they are made of -/

/-- Arrays and hashes: what is between the brackets is read in the same way but for the keys. -/
inductive Container
  | array
  | hash
  deriving DecidableEq

namespace Container

def opening : Container → UInt8
  | array => lbracket
  | hash => lbrace

def closing : Container → UInt8
  | array => rbracket
  | hash => rbrace

theorem closing_ne_zero (c : Container) : c.closing ≠ 0 := by
  cases c with
  | array => decide
  | hash => decide

theorem closing_ne_comma (c : Container) : c.closing ≠ comma := by
  cases c with
  | array => decide
  | hash => decide

def empty : Container → NrObj
  | array => .array []
  | hash => .hash []

/-- One more value, under its key in a hash. -/
def add : Container → NrObj → Bytes → NrObj → NrObj
  | array, item, _, child => nroAppendArray item child
  | hash, item, key, child => nroSetHash item key child

end Container

/-- What is left behind a word. -/
def afterWord (text : Bytes) : Option Bytes :=
  if ascii "null" <+: text then some (text.drop 4)
  else if ascii "false" <+: text then some (text.drop 5)
  else if ascii "true" <+: text then some (text.drop 4)
  else none

/-- What the start of a text can be to `parse_value`. -/
inductive Start : Bytes → Prop
  | word {text rest : Bytes} (hword : afterWord text = some rest) : Start text
  | string (text : Bytes) : Start (quote :: text)
  | number {b : UInt8} (hb : b = minus ∨ isDigit b) (text : Bytes) : Start (b :: text)
  | empty {c : Container} {text rest : Bytes}
      (hclosing : ObjectJson.jsonSkip text = c.closing :: rest) : Start (c.opening :: text)
  | container {c : Container} {text : Bytes}
      (hclosing : (ObjectJson.jsonSkip text).head? ≠ some c.closing) : Start (c.opening :: text)
  | other {text : Bytes} (hword : afterWord text = none)
      (hhead : ∀ b ∈ text.head?, b ≠ quote ∧ ¬(b = minus ∨ isDigit b) ∧
        ∀ c : Container, b ≠ c.opening) : Start text

theorem start (text : Bytes) : Start text := by
  cases hword : afterWord text with
  | some rest => exact .word hword
  | none =>
      cases text with
      | nil => exact .other hword nofun
      | cons b text =>
          by_cases hquote : b = quote
          · exact hquote ▸ .string text
          by_cases hnumber : b = minus ∨ isDigit b
          · exact .number hnumber text
          by_cases hopening : ∃ c : Container, b = c.opening
          · obtain ⟨c, rfl⟩ := hopening
            by_cases hclosing : (ObjectJson.jsonSkip text).head? = some c.closing
            · obtain ⟨rest, hrest⟩ := List.head?_eq_some_iff.mp hclosing
              exact .empty hrest
            · exact .container hclosing
          · refine .other hword fun b' hb' => ?_
            obtain rfl : b = b' := Option.some.inj hb'
            exact ⟨hquote, hnumber, not_exists.mp hopening⟩

/-- Where a value is expected, or the items of a container. -/
inductive Place
  | value
  | items (c : Container)

section Reads

variable (unset : Bytes → ℕ)

/-- What is left of a text behind the key of an item and its colon. -/
inductive ReadsKey : Container → Bytes → Option Bytes → Prop
  | element (text : Bytes) : ReadsKey .array text (some text)
  | noKey {text : Bytes} (hquote : (ObjectJson.jsonSkip text).head? ≠ some quote) :
      ReadsKey .hash text none
  | refused {text s : Bytes} (hquote : ObjectJson.jsonSkip text = quote :: s)
      (hs : FitsString unset s none) : ReadsKey .hash text none
  | noColon {text s next : Bytes} (hquote : ObjectJson.jsonSkip text = quote :: s)
      (hs : FitsString unset s (some next))
      (hcolon : (ObjectJson.jsonSkip next).head? ≠ some colon) : ReadsKey .hash text none
  | colon {text s next rest : Bytes} (hquote : ObjectJson.jsonSkip text = quote :: s)
      (hs : FitsString unset s (some next)) (hcolon : ObjectJson.jsonSkip next = colon :: rest) :
      ReadsKey .hash text (some rest)

/-- What is left of a text behind what is read from its start on, nothing if that is given up. Every
string that is come to on the way fits. -/
inductive Reads : Place → Bytes → Option Bytes → Prop
  | word {text rest : Bytes} (hword : afterWord text = some rest) : Reads .value text (some rest)
  | string {text : Bytes} {o : Option Bytes} (hs : FitsString unset text o) :
      Reads .value (quote :: text) o
  | number {b : UInt8} {text : Bytes} (hb : b = minus ∨ isDigit b) :
      Reads .value (b :: text) (some (ObjectJson.parseNumber (b :: text)).2)
  | empty {c : Container} {text rest : Bytes}
      (hclosing : ObjectJson.jsonSkip text = c.closing :: rest) :
      Reads .value (c.opening :: text) (some rest)
  | container {c : Container} {text : Bytes} {o : Option Bytes}
      (hclosing : (ObjectJson.jsonSkip text).head? ≠ some c.closing)
      (hitems : Reads (.items c) (ObjectJson.jsonSkip text) o) : Reads .value (c.opening :: text) o
  | other {text : Bytes} (hword : afterWord text = none)
      (hhead : ∀ b ∈ text.head?, b ≠ quote ∧ ¬(b = minus ∨ isDigit b) ∧
        ∀ c : Container, b ≠ c.opening) : Reads .value text none
  | noKey {c : Container} {text : Bytes} (hkey : ReadsKey unset c text none) :
      Reads (.items c) text none
  | noValue {c : Container} {text v : Bytes} (hkey : ReadsKey unset c text (some v))
      (hvalue : Reads .value (ObjectJson.jsonSkip v) none) : Reads (.items c) text none
  | comma {c : Container} {text v next rest : Bytes} {o : Option Bytes}
      (hkey : ReadsKey unset c text (some v))
      (hvalue : Reads .value (ObjectJson.jsonSkip v) (some next))
      (hcomma : ObjectJson.jsonSkip next = comma :: rest) (hrest : Reads (.items c) rest o) :
      Reads (.items c) text o
  | closing {c : Container} {text v next rest : Bytes} (hkey : ReadsKey unset c text (some v))
      (hvalue : Reads .value (ObjectJson.jsonSkip v) (some next))
      (hclosing : ObjectJson.jsonSkip next = c.closing :: rest) : Reads (.items c) text (some rest)
  | neither {c : Container} {text v next : Bytes} (hkey : ReadsKey unset c text (some v))
      (hvalue : Reads .value (ObjectJson.jsonSkip v) (some next))
      (hnext : ∀ b ∈ (ObjectJson.jsonSkip next).head?, b ≠ comma ∧ b ≠ c.closing) :
      Reads (.items c) text none

end Reads

section Suffix

variable {unset : Bytes → ℕ}

theorem jsonSkip_suffix (text : Bytes) : ObjectJson.jsonSkip text <:+ text :=
  List.dropWhile_suffix _

/-- What `json_skip` comes to and what is behind its first byte. -/
theorem suffix_of_jsonSkip {text rest : Bytes} {b : UInt8}
    (h : ObjectJson.jsonSkip text = b :: rest) : rest <:+ text :=
  (List.suffix_cons b rest).trans (h ▸ jsonSkip_suffix text)

theorem ReadsKey.suffix {c : Container} {text rest : Bytes}
    (h : ReadsKey unset c text (some rest)) : rest <:+ text := by
  cases h with
  | element => exact List.suffix_rfl
  | colon hquote hs hcolon =>
      exact (suffix_of_jsonSkip hcolon).trans (hs.suffix.trans (suffix_of_jsonSkip hquote))

theorem afterWord_suffix {text rest : Bytes} (h : afterWord text = some rest) : rest <:+ text := by
  rw [afterWord] at h
  split_ifs at h
  all_goals
    obtain rfl := Option.some.inj h
    exact List.drop_suffix _ _

theorem Reads.suffix {place : Place} {text : Bytes} {o : Option Bytes}
    (h : Reads unset place text o) : ∀ rest ∈ o, rest <:+ text := by
  induction h with
  | word hword => exact fun rest hrest => afterWord_suffix (hrest ▸ hword)
  | @string text o hs =>
      intro rest hrest
      obtain rfl := Option.mem_def.mp hrest
      exact hs.suffix.trans (List.suffix_cons quote text)
  | @number b text hb =>
      intro rest hrest
      obtain rfl := Option.some.inj hrest
      exact Memory.parseNumber_suffix (b :: text)
  | empty hclosing =>
      intro rest hrest
      obtain rfl := Option.some.inj hrest
      exact (suffix_of_jsonSkip hclosing).trans (List.suffix_cons _ _)
  | @container c text o hclosing hitems ih =>
      exact fun rest hrest =>
        (ih rest hrest).trans ((jsonSkip_suffix text).trans (List.suffix_cons c.opening text))
  | other hword hhead => exact nofun
  | noKey hkey => exact nofun
  | noValue hkey hvalue ih => exact nofun
  | comma hkey hvalue hcomma hrest ihv ihr =>
      have hnext := (ihv _ rfl).trans ((jsonSkip_suffix _).trans hkey.suffix)
      exact fun rest hrest => (ihr rest hrest).trans ((suffix_of_jsonSkip hcomma).trans hnext)
  | closing hkey hvalue hclosing ih =>
      have hnext := (ih _ rfl).trans ((jsonSkip_suffix _).trans hkey.suffix)
      intro rest hrest
      obtain rfl := Option.some.inj hrest
      exact (suffix_of_jsonSkip hclosing).trans hnext
  | neither hkey hvalue hnext ih => exact nofun

end Suffix

/-! ### What the readers do in front of each kind of text -/

section Steps

variable (unset : Bytes → ℕ)

/-- The items of a container, in a list of bytes. -/
def Container.parse : Container → ℕ → NrObj → Bytes → Option (NrObj × Bytes)
  | array => ObjectJson.parseElements unset
  | hash => ObjectJson.parseMembers unset

/-- The key of an item and what is behind its colon. -/
def Container.key : Container → Bytes → Option (Bytes × Bytes)
  | array, text => some ([], text)
  | hash, text =>
      match ObjectJson.parseString unset (ObjectJson.jsonSkip text) with
      | none => none
      | some (key, next) =>
          match ObjectJson.jsonSkip next with
          | [] => none
          | b :: rest => if b = colon then some (key, rest) else none

theorem Container.parse_succ (c : Container) (fuel : ℕ) (item : NrObj) (text : Bytes) :
    c.parse unset (fuel + 1) item text =
      match c.key unset text with
      | none => none
      | some (key, v) =>
          match ObjectJson.parseValue unset fuel (ObjectJson.jsonSkip v) with
          | none => none
          | some (child, next) =>
              match ObjectJson.jsonSkip next with
              | [] => none
              | b :: rest =>
                  if b = comma then c.parse unset fuel (c.add item key child) rest
                  else if b = c.closing then some (c.add item key child, rest)
                  else none := by
  cases c with
  | array =>
      rw [Container.parse, ObjectJson.parseElements]
      rfl
  | hash =>
      rw [Container.parse, ObjectJson.parseMembers, Container.key]
      cases ObjectJson.parseString unset (ObjectJson.jsonSkip text) with
      | none => rfl
      | some r =>
          obtain ⟨key, next⟩ := r
          simp only
          cases ObjectJson.jsonSkip next with
          | nil => rfl
          | cons b rest =>
              by_cases hb : b = colon
              · simp only [if_pos hb]
                rfl
              · simp only [if_neg hb]

namespace Memory

def parseItems : Container → ℕ → NrObj → Bytes → Checked (Option (NrObj × Bytes))
  | .array => parseElements unset
  | .hash => parseMembers unset

def readKey : Container → Bytes → Checked (Option (Bytes × Bytes))
  | .array, value => return some ([], value)
  | .hash, value => do
      let value ← jsonSkip value
      match ← parseString unset value with
      | none => return none
      | some (key, value) => do
          let value ← jsonSkip value
          let b ← load value
          if b = colon then return some (key, value.tail) else return none

theorem parseItems_succ (c : Container) (fuel : ℕ) (item : NrObj) (value : Bytes) :
    parseItems unset c (fuel + 1) item value = do
      match ← readKey unset c value with
      | none => return none
      | some (key, value) => do
          let value ← jsonSkip value
          match ← parseValue unset fuel value with
          | none => return none
          | some (child, value) => do
              let value ← jsonSkip value
              let b ← load value
              if b = comma then parseItems unset c fuel (c.add item key child) value.tail
              else if b = c.closing then return some (c.add item key child, value.tail)
              else return none := by
  cases c with
  | array =>
      rw [parseItems, parseElements]
      rfl
  | hash =>
      rw [parseItems, parseMembers, readKey]
      cases jsonSkip value with
      | error e => rfl
      | ok value =>
          simp only [ok_bind]
          cases parseString unset value with
          | error e => rfl
          | ok o =>
              cases o with
              | none => rfl
              | some r =>
                  obtain ⟨key, value⟩ := r
                  simp only [ok_bind]
                  cases jsonSkip value with
                  | error e => rfl
                  | ok value =>
                      simp only [ok_bind]
                      cases load value with
                      | error e => rfl
                      | ok b =>
                          by_cases hb : b = colon
                          · simp only [ok_bind, if_pos hb]
                            rfl
                          · simp only [ok_bind, if_neg hb]
                            rfl

theorem zero_notMem_null : 0 ∉ ascii "null" ∧ 0 ∉ ascii "false" ∧ 0 ∉ ascii "true" := by decide

theorem parseValue_afterWord {text rest : Bytes} (h : afterWord text = some rest) (fuel : ℕ) :
    ∃ item, parseValue unset (fuel + 1) (terminated text) = .ok (some (item, terminated rest)) ∧
      ObjectJson.parseValue unset (fuel + 1) text = some (item, rest) := by
  obtain ⟨hnull, hfalse, htrue⟩ := zero_notMem_null
  rw [afterWord] at h
  rw [parseValue, ObjectJson.parseValue.eq_def]
  simp only [startsWith_terminated hnull, startsWith_terminated hfalse,
    startsWith_terminated htrue, ok_bind, decide_eq_true_eq, List.isPrefixOf_iff_prefix]
  split_ifs at h with h₁ h₂ h₃
  · obtain rfl := Option.some.inj h
    have hlen : 4 ≤ text.length := h₁.length_le
    simp only [if_pos h₁, drop_terminated hlen]
    exact ⟨.none, rfl, rfl⟩
  · obtain rfl := Option.some.inj h
    have hlen : 5 ≤ text.length := h₂.length_le
    simp only [if_neg h₁, if_pos h₂, drop_terminated hlen]
    exact ⟨.boolean false, rfl, rfl⟩
  · obtain rfl := Option.some.inj h
    have hlen : 4 ≤ text.length := h₃.length_le
    simp only [if_neg h₁, if_neg h₂, if_pos h₃, drop_terminated hlen]
    exact ⟨.boolean true, rfl, rfl⟩

theorem afterWord_cons {b : UInt8} (h : ObjectJson.startsWord b = false) (text : Bytes) :
    afterWord (b :: text) = none := by
  obtain ⟨hnull, hfalse, htrue⟩ := ObjectJson.isPrefixOf_of_startsWord h text
  simp only [afterWord, ← List.isPrefixOf_iff_prefix, hnull, hfalse, htrue, Bool.false_eq_true,
    if_false]

theorem parseValue_of_afterWord {text : Bytes} (h : afterWord text = none) (fuel : ℕ) :
    parseValue unset (fuel + 1) (terminated text) = (do
      let b ← load (terminated text)
      if b = quote then
        let r ← parseString unset (terminated text)
        return r.map fun r => (.string r.1, r.2)
      else if b = minus ∨ isDigit b then
        let r ← parseNumber (terminated text)
        return some r
      else if b = lbracket then
        let value ← jsonSkip (terminated text).tail
        let c ← load value
        if c = rbracket then return some (.array [], value.tail)
        else parseElements unset fuel (.array []) value
      else if b = lbrace then
        let value ← jsonSkip (terminated text).tail
        let c ← load value
        if c = rbrace then return some (.hash [], value.tail)
        else parseMembers unset fuel (.hash []) value
      else return none) := by
  obtain ⟨hnull, hfalse, htrue⟩ := zero_notMem_null
  rw [afterWord] at h
  rw [parseValue]
  split_ifs at h with h₁ h₂ h₃
  simp only [startsWith_terminated hnull, startsWith_terminated hfalse,
    startsWith_terminated htrue, ok_bind, decide_eq_true_eq, if_neg h₁, if_neg h₂, if_neg h₃]

theorem parseValue_quote (fuel : ℕ) (text : Bytes) :
    parseValue unset (fuel + 1) (terminated (quote :: text)) =
      (Option.map fun r => (.string r.1, r.2)) <$>
        parseString unset (terminated (quote :: text)) := by
  rw [parseValue_of_afterWord unset (afterWord_cons (by decide) text)]
  rfl

theorem parseValue_number {b : UInt8} (hb : b = minus ∨ isDigit b) {text : Bytes}
    (hzero : 0 ∉ b :: text) (fuel : ℕ) :
    parseValue unset (fuel + 1) (terminated (b :: text)) =
      .ok (some ((ObjectJson.parseNumber (b :: text)).1,
        terminated (ObjectJson.parseNumber (b :: text)).2)) := by
  have hrange : b = minus ∨ 0x30 ≤ b.toNat ∧ b.toNat ≤ 0x39 := by simpa [isDigit] using hb
  have hword : ObjectJson.startsWord b = false := by
    simp only [ObjectJson.startsWord, Bool.or_eq_false_iff, decide_eq_false_iff_not]
    refine ⟨⟨?_, ?_⟩, ?_⟩
    all_goals
      rintro rfl
      exact absurd hrange (by decide)
  have hquote : b ≠ quote := by
    rintro rfl
    exact absurd hrange (by decide)
  rw [parseValue_of_afterWord unset (afterWord_cons hword text), parseNumber_terminated hzero,
    terminated_cons, load_cons, ok_bind, if_neg hquote, if_pos hb]
  rfl

theorem parseValue_opening (c : Container) (fuel : ℕ) (text : Bytes) :
    parseValue unset (fuel + 1) (terminated (c.opening :: text)) = (do
      let value ← jsonSkip (terminated text)
      let b ← load value
      if b = c.closing then return some (c.empty, value.tail)
      else parseItems unset c fuel c.empty value) := by
  cases c with
  | array =>
      rw [parseValue_of_afterWord unset (afterWord_cons (by decide) text)]
      rfl
  | hash =>
      rw [parseValue_of_afterWord unset (afterWord_cons (by decide) text)]
      rfl

theorem parseValue_opening_list (c : Container) (fuel : ℕ) (text : Bytes) :
    ObjectJson.parseValue unset (fuel + 1) (c.opening :: text) =
      match ObjectJson.jsonSkip text with
      | [] => c.parse unset fuel c.empty []
      | b :: rest =>
          if b = c.closing then some (c.empty, rest)
          else c.parse unset fuel c.empty (b :: rest) := by
  cases c with
  | array =>
      obtain ⟨hnull, hfalse, htrue⟩ := ObjectJson.isPrefixOf_of_startsWord
        (show ObjectJson.startsWord lbracket = false by decide) text
      rw [Container.opening, ObjectJson.parseValue]
      simp only [hnull, hfalse, htrue]
      rfl
  | hash =>
      obtain ⟨hnull, hfalse, htrue⟩ := ObjectJson.isPrefixOf_of_startsWord
        (show ObjectJson.startsWord lbrace = false by decide) text
      rw [Container.opening, ObjectJson.parseValue]
      simp only [hnull, hfalse, htrue]
      rfl

theorem parseValue_empty {c : Container} {text rest : Bytes}
    (h : ObjectJson.jsonSkip text = c.closing :: rest) (fuel : ℕ) :
    parseValue unset (fuel + 1) (terminated (c.opening :: text)) =
        .ok (some (c.empty, terminated rest)) ∧
      ObjectJson.parseValue unset (fuel + 1) (c.opening :: text) = some (c.empty, rest) := by
  constructor
  · rw [parseValue_opening, jsonSkip_terminated, ok_bind, h, terminated_cons, load_cons, ok_bind,
      if_pos rfl]
    rfl
  · rw [parseValue_opening_list, h]
    exact if_pos rfl

theorem parseValue_container {c : Container} {text : Bytes}
    (h : (ObjectJson.jsonSkip text).head? ≠ some c.closing) (fuel : ℕ) :
    parseValue unset (fuel + 1) (terminated (c.opening :: text)) =
        parseItems unset c fuel c.empty (terminated (ObjectJson.jsonSkip text)) ∧
      ObjectJson.parseValue unset (fuel + 1) (c.opening :: text) =
        c.parse unset fuel c.empty (ObjectJson.jsonSkip text) := by
  rw [parseValue_opening, parseValue_opening_list, jsonSkip_terminated, ok_bind, load_terminated,
    ok_bind]
  cases hskip : ObjectJson.jsonSkip text with
  | nil => exact ⟨if_neg (Ne.symm c.closing_ne_zero), rfl⟩
  | cons b rest =>
      have hb : b ≠ c.closing := fun heq => h (by rw [hskip, heq]; rfl)
      exact ⟨if_neg hb, if_neg hb⟩

theorem parseValue_other {text : Bytes} (hword : afterWord text = none)
    (hhead : ∀ b ∈ text.head?, b ≠ quote ∧ ¬(b = minus ∨ isDigit b) ∧
      ∀ c : Container, b ≠ c.opening) (fuel : ℕ) :
    parseValue unset (fuel + 1) (terminated text) = .ok none ∧
      ObjectJson.parseValue unset (fuel + 1) text = none := by
  constructor
  · rw [parseValue_of_afterWord unset hword]
    cases text with
    | nil => rfl
    | cons b text =>
        obtain ⟨hquote, hnumber, hopening⟩ := hhead b rfl
        have harray : b ≠ lbracket := hopening .array
        have hhash : b ≠ lbrace := hopening .hash
        rw [terminated_cons, load_cons, ok_bind, if_neg hquote, if_neg hnumber, if_neg harray,
          if_neg hhash]
        rfl
  · rw [afterWord] at hword
    split_ifs at hword with h₁ h₂ h₃
    rw [ObjectJson.parseValue.eq_def]
    simp only [List.isPrefixOf_iff_prefix, if_neg h₁, if_neg h₂, if_neg h₃]
    cases text with
    | nil => rfl
    | cons b text =>
        obtain ⟨hquote, hnumber, hopening⟩ := hhead b rfl
        have harray : b ≠ lbracket := hopening .array
        have hhash : b ≠ lbrace := hopening .hash
        simp only [if_neg hquote, if_neg hnumber, if_neg harray, if_neg hhash]

/-- What `json_skip` comes to is what decides what is done next. -/
theorem jsonSkip_load {α : Type} (text : Bytes) (f : Bytes → UInt8 → Checked α) :
    (do
      let value ← jsonSkip (terminated text)
      let b ← load value
      f value b) =
      match ObjectJson.jsonSkip text with
      | [] => f [0] 0
      | b :: rest => f (b :: terminated rest) b := by
  rw [jsonSkip_terminated, ok_bind]
  cases ObjectJson.jsonSkip text with
  | nil => rfl
  | cons b rest => rfl

theorem notMem_of_suffix {rest text : Bytes} (h : rest <:+ text) (hzero : 0 ∉ text) : 0 ∉ rest :=
  fun hmem => hzero (h.subset hmem)

theorem readKey_yields (c : Container) {text : Bytes} (hzero : 0 ∉ text) :
    Yields (· ≠ .deep) (Agrees (ReadsKey unset c text) (c.key unset text))
      (readKey unset c (terminated text)) := by
  cases c with
  | array => exact Yields.ok ⟨rfl, .element text⟩
  | hash =>
      rw [readKey, Container.key, jsonSkip_terminated, ok_bind]
      cases hskip : ObjectJson.jsonSkip text with
      | nil =>
          have hne : ([] : Bytes).head? ≠ some quote := nofun
          obtain ⟨hmemory, hlist⟩ := parseString_of_ne unset hne
          rw [hmemory, hlist]
          exact Yields.ok ⟨rfl, .noKey (by rw [hskip]; nofun)⟩
      | cons b s =>
          by_cases hb : b = quote
          · subst hb
            have hs := notMem_of_suffix (suffix_of_jsonSkip hskip) hzero
            refine (parseString_yields unset hs).bind ?_
            rintro res ⟨rfl, hfits⟩
            cases hread : ObjectJson.parseString unset (quote :: s) with
            | none => 
                rw [hread] at hfits
                exact Yields.ok ⟨rfl, .refused hskip hfits⟩
            | some r =>
                obtain ⟨key, next⟩ := r
                rw [hread] at hfits
                simp only [Option.map_some, Prod.map_apply, id, jsonSkip_load]
                cases hnext : ObjectJson.jsonSkip next with
                | nil => exact Yields.ok ⟨rfl, .noColon hskip hfits (by rw [hnext]; nofun)⟩
                | cons b rest =>
                    simp only
                    split_ifs with hb
                    · subst hb
                      exact Yields.ok ⟨rfl, .colon hskip hfits hnext⟩
                    · refine Yields.ok ⟨rfl, .noColon hskip hfits ?_⟩
                      rw [hnext]
                      exact fun h => hb (Option.some.inj h)
          · have hne : (b :: s).head? ≠ some quote := fun h => hb (Option.some.inj h)
            obtain ⟨hmemory, hlist⟩ := parseString_of_ne unset hne
            rw [hmemory, hlist]
            exact Yields.ok ⟨rfl, .noKey (by rw [hskip]; exact hne)⟩

/-- A string that fits is read, and what is left of it is what is left of the text. -/
theorem parseString_of_fits_some {text next : Bytes} (hzero : 0 ∉ text)
    (h : FitsString unset text (some next)) :
    ∃ key, parseString unset (terminated (quote :: text)) = .ok (some (key, terminated next)) := by
  obtain ⟨res, hread, hres⟩ := parseString_of_fits unset hzero h
  obtain ⟨⟨key, ptr⟩, rfl, hptr⟩ := Option.map_eq_some_iff.mp hres
  exact ⟨key, by rw [hread, ← hptr]⟩

theorem readKey_of_readsKey {c : Container} {text : Bytes} (hzero : 0 ∉ text) {o : Option Bytes}
    (h : ReadsKey unset c text o) :
    ∃ res, readKey unset c (terminated text) = .ok res ∧ res.map Prod.snd = o.map terminated := by
  cases h with
  | element => exact ⟨_, rfl, rfl⟩
  | noKey hquote =>
      rw [readKey, jsonSkip_terminated, ok_bind, (parseString_of_ne unset hquote).1]
      exact ⟨none, rfl, rfl⟩
  | @refused text s hquote hs =>
      obtain ⟨res, hread, hres⟩ :=
        parseString_of_fits unset (notMem_of_suffix (suffix_of_jsonSkip hquote) hzero) hs
      obtain rfl := Option.map_eq_none_iff.mp hres
      rw [readKey, jsonSkip_terminated, ok_bind, hquote, hread]
      exact ⟨none, rfl, rfl⟩
  | @noColon text s next hquote hs hcolon =>
      obtain ⟨key, hread⟩ :=
        parseString_of_fits_some unset (notMem_of_suffix (suffix_of_jsonSkip hquote) hzero) hs
      rw [readKey, jsonSkip_terminated, ok_bind, hquote, hread]
      simp only [ok_bind, jsonSkip_load]
      cases hnext : ObjectJson.jsonSkip next with
      | nil => exact ⟨none, rfl, rfl⟩
      | cons b rest => exact ⟨none, if_neg fun hb => hcolon (by rw [hnext, hb]; rfl), rfl⟩
  | @colon text s next rest hquote hs hcolon =>
      obtain ⟨key, hread⟩ :=
        parseString_of_fits_some unset (notMem_of_suffix (suffix_of_jsonSkip hquote) hzero) hs
      rw [readKey, jsonSkip_terminated, ok_bind, hquote, hread]
      simp only [ok_bind, jsonSkip_load, hcolon]
      exact ⟨_, rfl, rfl⟩

end Memory

/-! ### The whole text -/

namespace Place

/-- The levels that a place may still open besides two for each byte. -/
def levels : Place → ℕ
  | value => 1
  | items _ => 2

theorem exists_eq_succ {place : Place} {n fuel : ℕ} (h : n + place.levels ≤ fuel) :
    ∃ m, fuel = m + 1 := by
  have hpos : 0 < place.levels := by
    cases place with
    | value => exact Nat.one_pos
    | items c => exact Nat.two_pos
  exact ⟨fuel - 1, by omega⟩

def read : Place → ℕ → NrObj → Bytes → Option (NrObj × Bytes)
  | value, fuel, _, text => ObjectJson.parseValue unset fuel text
  | items c, fuel, item, text => c.parse unset fuel item text

def readMemory : Place → ℕ → NrObj → Bytes → Checked (Option (NrObj × Bytes))
  | value, fuel, _, p => Memory.parseValue unset fuel p
  | items c, fuel, item, p => Memory.parseItems unset c fuel item p

end Place

/-- What is read in memory from a place on is what is read of the list, and every string fits. -/
def ReadsAll (fuel : ℕ) : Prop :=
  ∀ (place : Place) (item : NrObj) (text : Bytes), 0 ∉ text →
    2 * text.length + place.levels ≤ fuel →
    Yields (· ≠ .deep) (Memory.Agrees (Reads unset place text) (place.read unset fuel item text))
      (place.readMemory unset fuel item (terminated text))

theorem parseValue_yields {fuel : ℕ} (ih : ReadsAll unset fuel) {text : Bytes} (hzero : 0 ∉ text)
    (hfuel : 2 * text.length ≤ fuel) :
    Yields (· ≠ .deep)
      (Memory.Agrees (Reads unset .value text) (ObjectJson.parseValue unset (fuel + 1) text))
      (Memory.parseValue unset (fuel + 1) (terminated text)) := by
  cases start text with
  | word hword =>
      obtain ⟨item, hmemory, hlist⟩ := Memory.parseValue_afterWord unset hword fuel
      rw [hmemory, hlist]
      exact Yields.ok ⟨rfl, .word hword⟩
  | string text =>
      rw [Memory.parseValue_quote, ObjectJson.parseValue_string]
      refine (Memory.parseString_yields unset
        fun h => hzero (List.mem_cons_of_mem quote h)).map ?_
      rintro res ⟨rfl, hfits⟩
      cases hread : ObjectJson.parseString unset (quote :: text) with
      | none =>
          rw [hread] at hfits
          exact ⟨rfl, .string hfits⟩
      | some r =>
          rw [hread] at hfits
          exact ⟨rfl, .string hfits⟩
  | number hb text =>
      rw [Memory.parseValue_number unset hb hzero, ObjectJson.parseValue_number unset hb]
      exact Yields.ok ⟨rfl, .number hb⟩
  | empty hclosing =>
      obtain ⟨hmemory, hlist⟩ := Memory.parseValue_empty unset hclosing fuel
      rw [hmemory, hlist]
      exact Yields.ok ⟨rfl, .empty hclosing⟩
  | @container c text hclosing =>
      obtain ⟨hmemory, hlist⟩ := Memory.parseValue_container unset hclosing fuel
      have hskip := (jsonSkip_suffix text).trans (List.suffix_cons c.opening text)
      have hlevels : 2 * (ObjectJson.jsonSkip text).length + (Place.items c).levels ≤ fuel := by
        have hlen := (jsonSkip_suffix text).length_le
        rw [List.length_cons] at hfuel
        rw [Place.levels]
        omega
      rw [hmemory, hlist]
      exact (ih (.items c) c.empty _ (Memory.notMem_of_suffix hskip hzero) hlevels).mono
        fun res h => ⟨h.1, .container hclosing h.2⟩
  | other hword hhead =>
      obtain ⟨hmemory, hlist⟩ := Memory.parseValue_other unset hword hhead fuel
      rw [hmemory, hlist]
      exact Yields.ok ⟨rfl, .other hword hhead⟩

theorem parseItems_yields {fuel : ℕ} (ih : ReadsAll unset fuel) (c : Container) (item : NrObj)
    {text : Bytes} (hzero : 0 ∉ text) (hfuel : 2 * text.length + 1 ≤ fuel) :
    Yields (· ≠ .deep)
      (Memory.Agrees (Reads unset (.items c) text) (c.parse unset (fuel + 1) item text))
      (Memory.parseItems unset c (fuel + 1) item (terminated text)) := by
  rw [Memory.parseItems_succ, Container.parse_succ]
  refine (Memory.readKey_yields unset c hzero).bind ?_
  rintro res ⟨rfl, hkey⟩
  cases hread : c.key unset text with
  | none =>
      rw [hread] at hkey
      exact Yields.ok ⟨rfl, .noKey hkey⟩
  | some r =>
      obtain ⟨key, v⟩ := r
      rw [hread] at hkey
      have hv : ObjectJson.jsonSkip v <:+ text := (jsonSkip_suffix v).trans hkey.suffix
      have hlen := hv.length_le
      simp only [Option.map_some, Prod.map_apply, id, Memory.jsonSkip_terminated, ok_bind]
      refine (ih .value item _ (Memory.notMem_of_suffix hv hzero)
        (by rw [Place.levels]; omega)).bind ?_
      rintro res ⟨rfl, hvalue⟩
      rw [Place.read] at hvalue ⊢
      cases hchild : ObjectJson.parseValue unset fuel (ObjectJson.jsonSkip v) with
      | none =>
          rw [hchild] at hvalue
          exact Yields.ok ⟨rfl, .noValue hkey hvalue⟩
      | some r =>
          obtain ⟨child, next⟩ := r
          rw [hchild] at hvalue
          have hnext : next <:+ text := (hvalue.suffix next rfl).trans hv
          simp only [Option.map_some, Prod.map_apply, id, Memory.jsonSkip_load]
          cases hskip : ObjectJson.jsonSkip next with
          | nil =>
              simp only [if_neg (show (0 : UInt8) ≠ comma by decide),
                if_neg (Ne.symm c.closing_ne_zero)]
              exact Yields.ok ⟨rfl, .neither hkey hvalue (by rw [hskip]; nofun)⟩
          | cons b rest =>
              have hrest := suffix_of_jsonSkip hskip
              have hshort : rest.length + 1 ≤ text.length := by
                have hle := ((jsonSkip_suffix next).trans hnext).length_le
                rwa [hskip, List.length_cons] at hle
              simp only [List.tail_cons]
              by_cases hcomma : b = comma
              · subst hcomma
                rw [if_pos rfl, if_pos rfl]
                have hitems := ih (.items c) (c.add item key child) rest
                  (Memory.notMem_of_suffix (hrest.trans hnext) hzero)
                  (by rw [Place.levels]; omega)
                exact hitems.mono fun res h => ⟨h.1, .comma hkey hvalue hskip h.2⟩
              · rw [if_neg hcomma, if_neg hcomma]
                by_cases hclosing : b = c.closing
                · subst hclosing
                  rw [if_pos rfl, if_pos rfl]
                  exact Yields.ok ⟨rfl, .closing hkey hvalue hskip⟩
                · rw [if_neg hclosing, if_neg hclosing]
                  refine Yields.ok ⟨rfl, .neither hkey hvalue fun b' hb' => ?_⟩
                  rw [hskip] at hb'
                  obtain rfl : b = b' := Option.some.inj hb'
                  exact ⟨hcomma, hclosing⟩

theorem readsAll (fuel : ℕ) : ReadsAll unset fuel := by
  induction fuel with
  | zero =>
      intro place item text hzero hfuel
      cases place with
      | value => exact absurd hfuel (by rw [Place.levels]; omega)
      | items c => exact absurd hfuel (by rw [Place.levels]; omega)
  | succ fuel ih =>
      intro place item text hzero hfuel
      cases place with
      | value =>
          rw [Place.levels] at hfuel
          exact parseValue_yields unset ih hzero (by omega)
      | items c =>
          rw [Place.levels] at hfuel
          exact parseItems_yields unset ih c item hzero (by omega)

theorem parseItems_of_value {c : Container} {text v next : Bytes} (hzero : 0 ∉ text)
    (hkey : ReadsKey unset c text (some v)) {fuel : ℕ}
    (hvalue : ∃ res, Memory.parseValue unset fuel (terminated (ObjectJson.jsonSkip v)) = .ok res ∧
      res.map Prod.snd = some (terminated next)) (item : NrObj) :
    ∃ item', Memory.parseItems unset c (fuel + 1) item (terminated text) =
      match ObjectJson.jsonSkip next with
      | [] => .ok none
      | b :: rest =>
          if b = comma then Memory.parseItems unset c fuel item' (terminated rest)
          else if b = c.closing then .ok (some (item', terminated rest))
          else .ok none := by
  obtain ⟨res, hread, hres⟩ := Memory.readKey_of_readsKey unset hzero hkey
  obtain ⟨⟨key, ptr⟩, rfl, rfl⟩ := Option.map_eq_some_iff.mp hres
  obtain ⟨res, hchild, hres⟩ := hvalue
  obtain ⟨⟨child, ptr⟩, rfl, rfl⟩ := Option.map_eq_some_iff.mp hres
  refine ⟨c.add item key child, ?_⟩
  rw [Memory.parseItems_succ, hread]
  simp only [ok_bind]
  rw [Memory.jsonSkip_terminated, ok_bind, hchild]
  simp only [ok_bind, Memory.jsonSkip_load]
  cases ObjectJson.jsonSkip next with
  | nil =>
      simp only [if_neg (show (0 : UInt8) ≠ comma by decide), if_neg (Ne.symm c.closing_ne_zero)]
      rfl
  | cons b rest => rfl

theorem levels_value {c : Container} {text value : Bytes} {fuel : ℕ} (hvalue : value <:+ text)
    (hfuel : 2 * text.length + (Place.items c).levels ≤ fuel + 1) :
    2 * value.length + Place.value.levels ≤ fuel := by
  have hlen := hvalue.length_le
  rw [Place.levels] at hfuel
  rw [Place.levels]
  omega

/-- The other way round: where every string fits the text is read, with two levels for each byte. -/
theorem readMemory_of_reads {place : Place} {text : Bytes} {o : Option Bytes}
    (h : Reads unset place text o) (hzero : 0 ∉ text) {fuel : ℕ}
    (hfuel : 2 * text.length + place.levels ≤ fuel) (item : NrObj) :
    ∃ res, place.readMemory unset fuel item (terminated text) = .ok res ∧
      res.map Prod.snd = o.map terminated := by
  induction h generalizing fuel item with
  | word hword =>
      obtain ⟨fuel, rfl⟩ := Place.exists_eq_succ hfuel
      obtain ⟨child, hmemory, -⟩ := Memory.parseValue_afterWord unset hword fuel
      exact ⟨_, hmemory, rfl⟩
  | @string text o hs =>
      obtain ⟨fuel, rfl⟩ := Place.exists_eq_succ hfuel
      obtain ⟨res, hread, hres⟩ := Memory.parseString_of_fits unset
        (fun h => hzero (List.mem_cons_of_mem quote h)) hs
      refine ⟨res.map fun r => (.string r.1, r.2), ?_, ?_⟩
      · rw [Place.readMemory, Memory.parseValue_quote, hread, map_ok]
      · rw [← hres, Option.map_map]
        rfl
  | number hb =>
      obtain ⟨fuel, rfl⟩ := Place.exists_eq_succ hfuel
      exact ⟨_, Memory.parseValue_number unset hb hzero fuel, rfl⟩
  | empty hclosing =>
      obtain ⟨fuel, rfl⟩ := Place.exists_eq_succ hfuel
      exact ⟨_, (Memory.parseValue_empty unset hclosing fuel).1, rfl⟩
  | @container c text o hclosing hitems ih =>
      obtain ⟨fuel, rfl⟩ := Place.exists_eq_succ hfuel
      have hskip := (jsonSkip_suffix text).trans (List.suffix_cons c.opening text)
      have hlen := (jsonSkip_suffix text).length_le
      rw [Place.levels, List.length_cons] at hfuel
      rw [Place.readMemory, (Memory.parseValue_container unset hclosing fuel).1]
      exact ih (Memory.notMem_of_suffix hskip hzero) (by rw [Place.levels]; omega) c.empty
  | other hword hhead =>
      obtain ⟨fuel, rfl⟩ := Place.exists_eq_succ hfuel
      exact ⟨none, (Memory.parseValue_other unset hword hhead fuel).1, rfl⟩
  | noKey hkey =>
      obtain ⟨fuel, rfl⟩ := Place.exists_eq_succ hfuel
      obtain ⟨res, hread, hres⟩ := Memory.readKey_of_readsKey unset hzero hkey
      obtain rfl := Option.map_eq_none_iff.mp hres
      refine ⟨none, ?_, rfl⟩
      rw [Place.readMemory, Memory.parseItems_succ, hread]
      rfl
  | @noValue c text v hkey hvalue ih =>
      obtain ⟨fuel, rfl⟩ := Place.exists_eq_succ hfuel
      have hv := (jsonSkip_suffix v).trans hkey.suffix
      have hlevels := levels_value hv hfuel
      obtain ⟨res, hread, hres⟩ := Memory.readKey_of_readsKey unset hzero hkey
      obtain ⟨⟨key, ptr⟩, rfl, rfl⟩ := Option.map_eq_some_iff.mp hres
      obtain ⟨res, hchild, hres⟩ := ih (Memory.notMem_of_suffix hv hzero) hlevels item
      obtain rfl := Option.map_eq_none_iff.mp hres
      refine ⟨none, ?_, rfl⟩
      rw [Place.readMemory] at hchild
      rw [Place.readMemory, Memory.parseItems_succ, hread]
      simp only [ok_bind, Memory.jsonSkip_terminated, hchild]
      rfl
  | @comma c text v next rest o hkey hvalue hcomma hrest ihv ihr =>
      obtain ⟨fuel, rfl⟩ := Place.exists_eq_succ hfuel
      have hv := (jsonSkip_suffix v).trans hkey.suffix
      have hlevels := levels_value hv hfuel
      rw [Place.levels] at hfuel
      have hnext := hvalue.suffix next rfl
      have hshort : rest.length + 1 ≤ text.length := by
        have hle := ((jsonSkip_suffix next).trans (hnext.trans hv)).length_le
        rwa [hcomma, List.length_cons] at hle
      obtain ⟨item', hread⟩ := parseItems_of_value unset hzero hkey
        (ihv (Memory.notMem_of_suffix hv hzero) hlevels item) item
      rw [Place.readMemory, hread, hcomma]
      exact ihr (Memory.notMem_of_suffix ((suffix_of_jsonSkip hcomma).trans (hnext.trans hv)) hzero)
        (by rw [Place.levels]; omega) item'
  | @closing c text v next rest hkey hvalue hclosing ih =>
      obtain ⟨fuel, rfl⟩ := Place.exists_eq_succ hfuel
      have hv := (jsonSkip_suffix v).trans hkey.suffix
      have hlevels := levels_value hv hfuel
      obtain ⟨item', hread⟩ := parseItems_of_value unset hzero hkey
        (ih (Memory.notMem_of_suffix hv hzero) hlevels item) item
      refine ⟨some (item', terminated rest), ?_, rfl⟩
      rw [Place.readMemory, hread, hclosing]
      simp only [if_neg c.closing_ne_comma, if_pos]
  | @neither c text v next hkey hvalue hnext ih =>
      obtain ⟨fuel, rfl⟩ := Place.exists_eq_succ hfuel
      have hv := (jsonSkip_suffix v).trans hkey.suffix
      have hlevels := levels_value hv hfuel
      obtain ⟨item', hread⟩ := parseItems_of_value unset hzero hkey
        (ih (Memory.notMem_of_suffix hv hzero) hlevels item) item
      refine ⟨none, ?_, rfl⟩
      rw [Place.readMemory, hread]
      cases hskip : ObjectJson.jsonSkip next with
      | nil => rfl
      | cons b rest =>
          rw [hskip] at hnext
          obtain ⟨hcomma, hclosing⟩ := hnext b rfl
          simp only [if_neg hcomma, if_neg hclosing]

theorem finish_terminated {next : Bytes} (hzero : 0 ∉ next) (rv : NrObj) :
    (do
      let b ← load (terminated next)
      if b = 0 then return some rv
      else
        let next ← Memory.jsonSkip (terminated next)
        let b ← load next
        if b = 0 then return some rv else return none) =
      (.ok (if ObjectJson.jsonSkip next = [] then some rv else none) : Checked (Option NrObj)) := by
  cases next with
  | nil => rfl
  | cons b next =>
      have hb : b ≠ 0 := fun h => hzero (h ▸ List.mem_cons_self)
      rw [terminated_cons, load_cons, ok_bind, if_neg hb, ← terminated_cons, Memory.jsonSkip_load]
      cases hskip : ObjectJson.jsonSkip (b :: next) with
      | nil => rfl
      | cons c rest =>
          have hc : c ≠ 0 := fun h => Memory.notMem_of_suffix (jsonSkip_suffix _) hzero
            (by rw [hskip, h]; exact List.mem_cons_self)
          simp only [if_neg hc]
          rfl

/-- `nro_create_from_json` returns what it is to return where every string of the text fits, and
does not run out of levels elsewhere. -/
theorem nroCreateFromJson_yields {json : Bytes} (hzero : 0 ∉ json) :
    Yields (· ≠ .deep) (fun obj => obj = nroCreateFromJson unset json ∧
      ∃ o, Reads unset .value (ObjectJson.jsonSkip json) o)
      (Memory.nroCreateFromJson unset (some (terminated json))) := by
  cases json with
  | nil => exact Yields.ok ⟨rfl, none, .other rfl nofun⟩
  | cons b json =>
      have hb : b ≠ 0 := fun h => hzero (h ▸ List.mem_cons_self)
      have hskip := jsonSkip_suffix (b :: json)
      have hlen := hskip.length_le
      have hfuel : 2 * (terminated (b :: json)).length = 2 * (b :: json).length + 2 := by
        rw [terminated, List.length_append, List.length_singleton, Nat.mul_add]
      rw [Memory.nroCreateFromJson, nroCreateFromJson, if_neg (List.cons_ne_nil b json)]
      simp only [load_terminated, List.head?_cons, Option.getD_some, ok_bind, if_neg hb, hfuel,
        Memory.jsonSkip_terminated]
      refine (readsAll unset (2 * (b :: json).length + 2) .value .none _
        (Memory.notMem_of_suffix hskip hzero) (by rw [Place.levels]; omega)).bind ?_
      rintro res ⟨rfl, hreads⟩
      rw [Place.read] at hreads ⊢
      cases hvalue : ObjectJson.parseValue unset (2 * (b :: json).length + 2)
          (ObjectJson.jsonSkip (b :: json)) with
      | none => exact Yields.ok ⟨rfl, _, hreads⟩
      | some r =>
          obtain ⟨rv, next⟩ := r
          have hnext : next <:+ b :: json := (hreads.suffix next (by rw [hvalue]; rfl)).trans hskip
          simp only [Option.map_some, Prod.map_apply, id]
          rw [finish_terminated (Memory.notMem_of_suffix hnext hzero)]
          exact Yields.ok ⟨rfl, _, hreads⟩

theorem nroCreateFromJson_of_reads {json : Bytes} (hzero : 0 ∉ json)
    (h : ∃ o, Reads unset .value (ObjectJson.jsonSkip json) o) :
    Memory.nroCreateFromJson unset (some (terminated json)) =
      .ok (nroCreateFromJson unset json) := by
  have hok : ∃ obj, Memory.nroCreateFromJson unset (some (terminated json)) = .ok obj := by
    obtain ⟨o, ho⟩ := h
    cases json with
    | nil => exact ⟨none, rfl⟩
    | cons b json =>
        have hb : b ≠ 0 := fun h => hzero (h ▸ List.mem_cons_self)
        have hskip := jsonSkip_suffix (b :: json)
        have hlevels : 2 * (ObjectJson.jsonSkip (b :: json)).length + Place.value.levels ≤
            2 * (terminated (b :: json)).length := by
          have hlen := hskip.length_le
          rw [terminated, List.length_append, List.length_singleton, Place.levels]
          omega
        obtain ⟨res, hread, hres⟩ := readMemory_of_reads unset ho
          (Memory.notMem_of_suffix hskip hzero) hlevels .none
        rw [Place.readMemory] at hread
        rw [Memory.nroCreateFromJson]
        simp only [load_terminated, List.head?_cons, Option.getD_some, ok_bind, if_neg hb,
          Memory.jsonSkip_terminated, hread]
        cases o with
        | none =>
            obtain rfl := Option.map_eq_none_iff.mp hres
            exact ⟨none, rfl⟩
        | some next =>
            obtain ⟨⟨rv, ptr⟩, rfl, rfl⟩ := Option.map_eq_some_iff.mp hres
            have hnext := (ho.suffix next rfl).trans hskip
            exact ⟨_, finish_terminated (Memory.notMem_of_suffix hnext hzero) rv⟩
  obtain ⟨obj, hobj⟩ := hok
  have hyields := nroCreateFromJson_yields unset hzero
  rw [hobj] at hyields ⊢
  rw [hyields.1]

/-- `nro_create_from_json` reads and writes where it may for the texts whose strings, those that it
comes to, all fit. -/
theorem nroCreateFromJson_inBounds {json : Bytes} (hzero : 0 ∉ json) :
    (∃ obj, Memory.nroCreateFromJson unset (some (terminated json)) = .ok obj) ↔
      ∃ o, Reads unset .value (ObjectJson.jsonSkip json) o := by
  constructor
  · rintro ⟨obj, hobj⟩
    have hyields := nroCreateFromJson_yields unset hzero
    rw [hobj] at hyields
    exact hyields.2
  · exact fun h => ⟨_, nroCreateFromJson_of_reads unset hzero h⟩

end Steps

/-- A string with an escape in it. -/
theorem nroCreateFromJson_inBounds_escape :
    ∃ obj, Memory.nroCreateFromJson (fun _ => 0)
      (some (terminated [quote, backslash, 0x6e, quote])) = .ok obj :=
  (nroCreateFromJson_inBounds (fun _ => 0) (by decide)).mpr
    ⟨_, .string (.closed (.escaped 0x6e (.quote [])) (by decide)
      (.escaped (by decide) (.stop (.inl rfl) [])) le_rfl)⟩

theorem nroCreateFromJson_of_parseString (unset : Bytes → ℕ) {text : Bytes} {e : Fault}
    (h : Memory.parseString unset (terminated (quote :: text)) = .error e) :
    Memory.nroCreateFromJson unset (some (terminated (quote :: text))) = .error e := by
  have hskip : Memory.jsonSkip (terminated (quote :: text)) = .ok (terminated (quote :: text)) := by
    rw [Memory.jsonSkip_terminated, ObjectJson.jsonSkip_of_lt (by decide)]
  have hvalue : Memory.parseValue unset (2 * (terminated (quote :: text)).length)
      (terminated (quote :: text)) = .error e := by
    have hfuel : 2 * (terminated (quote :: text)).length = (2 * text.length + 3) + 1 := by
      rw [terminated, List.length_append, List.length_singleton, List.length_cons]
      omega
    rw [hfuel, Memory.parseValue_quote, h, map_error]
  rw [Memory.nroCreateFromJson]
  simp only [hskip, hvalue, ok_bind, error_bind]
  rfl

/-- A backslash that ends the text takes the first loop over the zero. A unit whose digits are
missing takes the second one over the closing quote, to bytes that the first has not counted. -/
theorem nroCreateFromJson_leaves :
    Memory.nroCreateFromJson (fun _ => 0) (some (terminated [quote, backslash])) = .error .read ∧
      Memory.nroCreateFromJson (fun _ => 0) (some (terminated [quote, backslash, 0x75, quote])) =
        .error .read ∧
      Memory.nroCreateFromJson (fun _ => 0)
        (some (terminated [quote, backslash, 0x75, quote, 0x61, 0x61, 0x61, 0x61, 0x61])) =
        .error .write := by
  refine ⟨?_, ?_, ?_⟩
  · exact nroCreateFromJson_of_parseString _ rfl
  · exact nroCreateFromJson_of_parseString _ rfl
  · exact nroCreateFromJson_of_parseString _ rfl

end AxiomDaemon.Util

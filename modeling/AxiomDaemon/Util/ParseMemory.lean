import AxiomDaemon.Lib.CText
import AxiomDaemon.Util.ObjectJson

/-!
`nro_create_from_json` in memory: what it reads of a text and what it writes into
the buffer for a string. `parse_string` goes over a string twice. The first loop
counts the characters that stand before the closing quote, where a backslash and
the byte behind it are one character; the second loop fills a buffer of that size,
and moves over the four bytes behind `\u` whatever they are.
-/

namespace AxiomDaemon.Util

open AxiomDaemon.Lib AxiomDaemon.Lib.CText
open AxiomDaemon.Lib.Json (quote comma minus colon lbracket rbracket lbrace rbrace backslash)
open ObjectJson (transcode escapedByte)

namespace Memory

/-- `json_skip`. -/
def jsonSkip : Bytes → Checked Bytes
  | [] => .error .read
  | b :: p => if b ≠ 0 ∧ b.toNat ≤ 32 then jsonSkip p else .ok (b :: p)

/-- `parse_number`. The functions that read numbers read no byte behind the zero; the copy that
`nr_strtod` makes of the text is left out. -/
def parseNumber (num : Bytes) : Checked (NrObj × Bytes) := do
  let text ← readText num
  let (item, rest) := ObjectJson.parseNumber text
  return (item, num.drop (text.length - rest.length))

/-- The first loop of `parse_string`: the number of characters up to the closing quote. -/
def countString : Bytes → ℕ → Checked (Option ℕ)
  | [], _ => .error .read
  | b :: p, len =>
      if b = quote then .ok (some len)
      else if b = backslash then
        -- the byte behind the backslash is not looked at
        match p with
        | [] => .error .read
        | _ :: p => do
            let len ← toInt (len + 1)
            countString p len
      else if b.toNat < 32 then .ok none
      else do
        let len ← toInt (len + 1)
        countString p len

theorem countString_quote (p : Bytes) (len : ℕ) :
    countString (quote :: p) len = .ok (some len) := by
  rw [countString.eq_def]
  rfl

theorem countString_control {b : UInt8} (hb : b.toNat < 32) (p : Bytes) (len : ℕ) :
    countString (b :: p) len = .ok none := by
  have hquote : b ≠ quote := by
    rintro rfl
    exact absurd hb (by decide)
  have hbackslash : b ≠ backslash := by
    rintro rfl
    exact absurd hb (by decide)
  rw [countString.eq_def]
  simp only [if_neg hquote, if_neg hbackslash, if_pos hb]

theorem countString_escape (c : UInt8) (p : Bytes) (len : ℕ) :
    countString (backslash :: c :: p) len = toInt (len + 1) >>= countString p := by
  rw [countString.eq_def]
  rfl

theorem countString_plain {b : UInt8} (hquote : b ≠ quote) (hbackslash : b ≠ backslash)
    (hb : ¬b.toNat < 32) (p : Bytes) (len : ℕ) :
    countString (b :: p) len = toInt (len + 1) >>= countString p := by
  rw [countString.eq_def]
  simp only [if_neg hquote, if_neg hbackslash, if_neg hb]

section Reader

variable (unset : Bytes → ℕ)

/-- The second loop of `parse_string`, with the zero behind it: the buffer as it is left, and where
the loop stops. -/
def copyString (capacity : ℕ) : Bytes → Bytes → Checked (Bytes × Bytes)
  | [], _ => .error .read
  | b :: p, out =>
      if b = quote ∨ b.toNat ≤ 31 then do
        let out ← store capacity out [0]
        return (out, b :: p)
      else if b = backslash then
        match p with
        | [] => .error .read
        | c :: p =>
            if c = 0x75 then do
              let text ← readText p
              let out ← store capacity out (transcode ((scanHex4 text).getD (unset text)))
              -- nor are the four bytes of the code unit
              match p with
              | _ :: _ :: _ :: _ :: p => copyString capacity p out
              | _ => .error .read
            else do
              let out ← store capacity out [escapedByte c]
              copyString capacity p out
      else do
        let out ← store capacity out [b]
        copyString capacity p out

theorem copyString_stop {b : UInt8} (hb : b = quote ∨ b.toNat ≤ 31) (capacity : ℕ) (p out : Bytes) :
    copyString unset capacity (b :: p) out =
      store capacity out [0] >>= fun out => .ok (out, b :: p) := by
  rw [copyString.eq_def]
  simp only [if_pos hb]
  rfl

theorem copyString_unit (capacity : ℕ) (w x y z : UInt8) (p out : Bytes) :
    copyString unset capacity (backslash :: 0x75 :: w :: x :: y :: z :: p) out =
      readText (w :: x :: y :: z :: p) >>= fun text =>
        store capacity out (transcode ((scanHex4 text).getD (unset text))) >>=
          copyString unset capacity p := by
  rw [copyString.eq_def]
  rfl

/-- With less than four bytes and the one behind them the pointer is moved out of the string. -/
theorem copyString_unit_cut (capacity : ℕ) {p : Bytes} (hp : p.length ≤ 4) (out : Bytes) :
    copyString unset capacity (backslash :: 0x75 :: p) out =
      readText p >>= fun text =>
        store capacity out (transcode ((scanHex4 text).getD (unset text))) >>= fun _ =>
          .error .read := by
  rw [copyString.eq_def]
  match p, hp with
  | [], _ | [_], _ | [_, _], _ | [_, _, _], _ | [_, _, _, _], _ => rfl

theorem copyString_escape {c : UInt8} (hc : c ≠ 0x75) (capacity : ℕ) (p out : Bytes) :
    copyString unset capacity (backslash :: c :: p) out =
      store capacity out [escapedByte c] >>= copyString unset capacity p := by
  rw [copyString.eq_def]
  simp only [if_neg (show ¬(backslash = quote ∨ backslash.toNat ≤ 31) by decide), if_neg hc]
  rfl

theorem copyString_plain {b : UInt8} (hstop : ¬(b = quote ∨ b.toNat ≤ 31))
    (hbackslash : b ≠ backslash) (capacity : ℕ) (p out : Bytes) :
    copyString unset capacity (b :: p) out =
      store capacity out [b] >>= copyString unset capacity p := by
  rw [copyString.eq_def]
  simp only [if_neg hstop, if_neg hbackslash]

/-- `parse_string`. -/
def parseString (str : Bytes) : Checked (Option (Bytes × Bytes)) := do
  let b ← load str
  if b = quote then
    match ← countString str.tail 0 with
    | none => return none
    | some len => do
        let capacity ← toInt (len + 1)
        let (out, ptr) ← copyString unset capacity str.tail []
        let c ← load ptr
        return some (out.takeWhile (· ≠ 0), if c = quote then ptr.tail else ptr)
  else return none

mutual

/-- `parse_value`. The first argument bounds the depth of the recursion. -/
def parseValue : ℕ → Bytes → Checked (Option (NrObj × Bytes))
  | 0, _ => .error .deep
  | fuel + 1, value => do
      if ← startsWith (ascii "null") value then return some (.none, value.drop 4)
      else if ← startsWith (ascii "false") value then return some (.boolean false, value.drop 5)
      else if ← startsWith (ascii "true") value then return some (.boolean true, value.drop 4)
      else
        let b ← load value
        if b = quote then
          let r ← parseString unset value
          return r.map fun r => (.string r.1, r.2)
        else if b = minus ∨ isDigit b then
          let r ← parseNumber value
          return some r
        else if b = lbracket then
          -- `parse_array`
          let value ← jsonSkip value.tail
          let c ← load value
          if c = rbracket then return some (.array [], value.tail)
          else parseElements fuel (.array []) value
        else if b = lbrace then
          -- `parse_object`
          let value ← jsonSkip value.tail
          let c ← load value
          if c = rbrace then return some (.hash [], value.tail)
          else parseMembers fuel (.hash []) value
        else return none

/-- The elements of an array from where one is expected. -/
def parseElements : ℕ → NrObj → Bytes → Checked (Option (NrObj × Bytes))
  | 0, _, _ => .error .deep
  | fuel + 1, item, value => do
      let value ← jsonSkip value
      match ← parseValue fuel value with
      | none => return none
      | some (child, value) => do
          let value ← jsonSkip value
          let b ← load value
          if b = comma then parseElements fuel (nroAppendArray item child) value.tail
          else if b = rbracket then return some (nroAppendArray item child, value.tail)
          else return none

/-- The members of an object from where a key is expected. -/
def parseMembers : ℕ → NrObj → Bytes → Checked (Option (NrObj × Bytes))
  | 0, _, _ => .error .deep
  | fuel + 1, item, value => do
      let value ← jsonSkip value
      match ← parseString unset value with
      | none => return none
      | some (key, value) => do
          let value ← jsonSkip value
          let b ← load value
          if b = colon then
            let value ← jsonSkip value.tail
            match ← parseValue fuel value with
            | none => return none
            | some (child, value) => do
                let value ← jsonSkip value
                let b ← load value
                if b = comma then parseMembers fuel (nroSetHash item key child) value.tail
                else if b = rbrace then return some (nroSetHash item key child, value.tail)
                else return none
          else return none

end

/-- `nro_create_from_json`. -/
def nroCreateFromJson (json : Option Bytes) : Checked (Option NrObj) :=
  match json with
  | none => return none
  | some json => do
      let b ← load json
      if b = 0 then return none
      else
        let value ← jsonSkip json
        match ← parseValue unset (2 * json.length) value with
        | none => return none
        | some (rv, next) => do
            let b ← load next
            if b = 0 then return some rv
            else
              let next ← jsonSkip next
              let b ← load next
              if b = 0 then return some rv else return none

end Reader

/-! ### On a text -/

theorem jsonSkip_terminated (text : Bytes) :
    jsonSkip (terminated text) = .ok (terminated (ObjectJson.jsonSkip text)) := by
  induction text with
  | nil => rfl
  | cons b text ih =>
      rw [terminated_cons, jsonSkip, ObjectJson.jsonSkip]
      split_ifs with h
      · rw [ih, List.dropWhile_cons_of_pos (by simpa using h)]
        rfl
      · rw [List.dropWhile_cons_of_neg (by simpa using h), terminated_cons]

theorem parseNumber_suffix (num : Bytes) : (ObjectJson.parseNumber num).2 <:+ num := by
  have hint := strtol_suffix num
  have hdouble := strtod_suffix num
  simp only [ObjectJson.parseNumber]
  split_ifs
  · split
    · exact hint
    · exact hdouble
  · exact hint
  · exact hint

theorem parseNumber_terminated {num : Bytes} (h : 0 ∉ num) :
    parseNumber (terminated num) =
      .ok ((ObjectJson.parseNumber num).1, terminated (ObjectJson.parseNumber num).2) := by
  obtain ⟨digits, hdigits⟩ := parseNumber_suffix num
  have hdrop : (terminated num).drop (num.length - (ObjectJson.parseNumber num).2.length) =
      terminated (ObjectJson.parseNumber num).2 := by
    have hlen : num.length - (ObjectJson.parseNumber num).2.length = digits.length := by
      rw [← congrArg List.length hdigits, List.length_append, Nat.add_sub_cancel]
    rw [hlen, drop_terminated (List.IsPrefix.length_le ⟨_, hdigits⟩),
      ← congrArg (List.drop digits.length) hdigits, List.drop_left]
  rw [parseNumber, readText_terminated h, ok_bind]
  exact congrArg (fun ptr => Except.ok ((ObjectJson.parseNumber num).1, ptr)) hdrop

end Memory

/-! ### The two loops over a string -/

/-- A byte that both loops take for a character of its own. -/
def IsPlain (b : UInt8) : Prop := b ≠ quote ∧ b ≠ backslash ∧ 32 ≤ b.toNat

/-- The first loop takes `n` characters of a text, and comes to a closing quote or to something
that is not in a string. It comes to neither where a backslash ends the text. -/
inductive Counts : Bytes → ℕ → Bool → Prop
  | quote (text : Bytes) : Counts (quote :: text) 0 true
  | control {b : UInt8} (hb : b.toNat < 32) (text : Bytes) : Counts (b :: text) 0 false
  | ended : Counts [] 0 false
  | escaped {text : Bytes} {n : ℕ} {closed : Bool} (c : UInt8) (h : Counts text n closed) :
      Counts (backslash :: c :: text) (n + 1) closed
  | plain {b : UInt8} {text : Bytes} {n : ℕ} {closed : Bool} (hb : IsPlain b)
      (h : Counts text n closed) : Counts (b :: text) (n + 1) closed

section Loops

variable (unset : Bytes → ℕ)

/-- The second loop stores `n` bytes for a text, and stops in front of a part of it. It does not
where the text ends in an escape. -/
inductive Decodes : Bytes → ℕ → Bytes → Prop
  | stop {b : UInt8} (hb : b = quote ∨ b.toNat ≤ 31) (text : Bytes) :
      Decodes (b :: text) 0 (b :: text)
  | ended : Decodes [] 0 []
  | unit {text ptr : Bytes} {n : ℕ} (w x y z : UInt8) (h : Decodes text n ptr) :
      Decodes (backslash :: 0x75 :: w :: x :: y :: z :: text)
        ((transcode ((scanHex4 (w :: x :: y :: z :: text)).getD
          (unset (w :: x :: y :: z :: text)))).length + n) ptr
  | escaped {c : UInt8} {text ptr : Bytes} {n : ℕ} (hc : c ≠ 0x75) (h : Decodes text n ptr) :
      Decodes (backslash :: c :: text) (n + 1) ptr
  | plain {b : UInt8} {text ptr : Bytes} {n : ℕ} (hb : IsPlain b) (h : Decodes text n ptr) :
      Decodes (b :: text) (n + 1) ptr

/-- The text behind the closing quote, if that is where the second loop stops. -/
def skipQuote (ptr : Bytes) : Bytes := if ptr.head? = some quote then ptr.tail else ptr

/-- `parse_string` stays where it may with the text behind an opening quote: it refuses it, or the
second loop stops in the text and stores no more than the first one has counted. -/
inductive FitsString (text : Bytes) : Option Bytes → Prop
  | refused {n : ℕ} (hcount : Counts text n false) (hn : n < 2 ^ 31) : FitsString text none
  | closed {n k : ℕ} {ptr : Bytes} (hcount : Counts text n true) (hn : n + 1 < 2 ^ 31)
      (hdecode : Decodes unset text k ptr) (hk : k ≤ n) : FitsString text (some (skipQuote ptr))

variable {unset}

theorem Decodes.suffix {text ptr : Bytes} {n : ℕ} (h : Decodes unset text n ptr) :
    ptr <:+ text := by
  induction h with
  | stop hb text => exact List.suffix_rfl
  | ended => exact List.suffix_rfl
  | @unit text ptr n w x y z h ih =>
      exact ih.trans (List.suffix_append [backslash, 0x75, w, x, y, z] text)
  | @escaped c text ptr n hc h ih => exact ih.trans (List.suffix_append [backslash, c] text)
  | plain hb h ih => exact ih.trans (List.suffix_cons _ _)

theorem skipQuote_suffix (ptr : Bytes) : skipQuote ptr <:+ ptr := by
  rw [skipQuote]
  split_ifs
  · exact List.tail_suffix ptr
  · exact List.suffix_rfl

theorem FitsString.suffix {text rest : Bytes} (h : FitsString unset text (some rest)) :
    rest <:+ text := by
  cases h with
  | closed hcount hn hdecode hk => exact (skipQuote_suffix _).trans hdecode.suffix

end Loops

namespace Memory

/-- Counting one more character, which `int` may not hold. -/
theorem yields_succ {α : Type} {post : α → Prop} {len : ℕ} {f : ℕ → Checked α}
    (h : len + 1 < 2 ^ 31 → Yields (· ≠ .deep) post (f (len + 1))) :
    Yields (· ≠ .deep) post (toInt (len + 1) >>= f) := by
  rw [toInt]
  split_ifs with hlen
  · exact h hlen
  · show Fault.range ≠ .deep
    simp

theorem countString_yields (text : Bytes) {len : ℕ} (hlen : len < 2 ^ 31) :
    Yields (· ≠ .deep) (fun res => ∃ n, Counts text n (ObjectJson.hasClosingQuote text) ∧
      len + n < 2 ^ 31 ∧ res = if ObjectJson.hasClosingQuote text then some (len + n) else none)
      (countString (terminated text) len) := by
  fun_induction ObjectJson.hasClosingQuote text generalizing len with
  | case1 => exact Yields.ok ⟨0, .ended, hlen, rfl⟩
  | case2 bs =>
      rw [terminated_cons, countString_quote]
      exact Yields.ok ⟨0, .quote bs, hlen, rfl⟩
  | case3 => exact yields_succ fun _ => nofun
  | case4 c cs hquote ih =>
      rw [terminated_cons, terminated_cons, countString_escape]
      refine yields_succ fun hlen => (ih hlen).mono ?_
      rintro res ⟨n, hcount, hn, hres⟩
      exact ⟨n + 1, .escaped c hcount, by omega, by rw [hres, Nat.add_assoc, Nat.add_comm 1 n]⟩
  | case5 b bs hquote hbackslash hb =>
      rw [terminated_cons, countString_control hb]
      exact Yields.ok ⟨0, .control hb bs, hlen, rfl⟩
  | case6 b bs hquote hbackslash hb ih =>
      rw [terminated_cons, countString_plain hquote hbackslash hb]
      refine yields_succ fun hlen => (ih hlen).mono ?_
      rintro res ⟨n, hcount, hn, hres⟩
      exact ⟨n + 1, .plain ⟨hquote, hbackslash, not_lt.mp hb⟩ hcount, by omega,
        by rw [hres, Nat.add_assoc, Nat.add_comm 1 n]⟩

theorem countString_of_counts {text : Bytes} {n len : ℕ} {closed : Bool}
    (h : Counts text n closed) (hn : len + n < 2 ^ 31) :
    countString (terminated text) len = .ok (if closed then some (len + n) else none) := by
  induction h generalizing len with
  | quote text => exact countString_quote (terminated text) len
  | control hb text => exact countString_control hb (terminated text) len
  | ended => rfl
  | escaped c h ih =>
      rw [terminated_cons, terminated_cons, countString_escape, toInt_of_lt (by omega), ok_bind,
        ih (by omega), Nat.add_assoc, Nat.add_comm 1]
  | plain hb h ih =>
      rw [terminated_cons, countString_plain hb.1 hb.2.1 (not_lt.mpr hb.2.2),
        toInt_of_lt (by omega), ok_bind, ih (by omega), Nat.add_assoc, Nat.add_comm 1]

variable (unset : Bytes → ℕ)

theorem yields_store {α : Type} {post : α → Prop} {capacity : ℕ} {out bytes : Bytes}
    {f : Bytes → Checked α} (h : out.length + bytes.length ≤ capacity →
      Yields (· ≠ .deep) post (f (out ++ bytes))) :
    Yields (· ≠ .deep) post (store capacity out bytes >>= f) := by
  rw [store]
  split_ifs with hroom
  · exact h hroom
  · exact nofun

/-- The second loop has stored what is copied of a text, and a zero behind it. -/
def Copied (capacity : ℕ) (text out : Bytes) (copied res : Bytes × Bytes) : Prop :=
  ∃ n, Decodes unset text n copied.2 ∧ out.length + n + 1 ≤ capacity ∧
    res = (out ++ (copied.1 ++ [0]), terminated copied.2)

theorem copyString_yields {text : Bytes} (hzero : 0 ∉ text) (capacity : ℕ) (out : Bytes) :
    Yields (· ≠ .deep) (Copied unset capacity text out (ObjectJson.copyString unset text))
      (copyString unset capacity (terminated text) out) := by
  fun_induction ObjectJson.copyString unset text generalizing out with
  | case1 => exact yields_store fun hroom => Yields.ok ⟨0, .ended, hroom, rfl⟩
  | case2 b bs hb =>
      rw [terminated_cons, copyString_stop unset hb]
      exact yields_store fun hroom => Yields.ok ⟨0, .stop hb bs, hroom, rfl⟩
  | case3 hstop =>
      rw [terminated_cons, terminated_nil, copyString_escape unset (by decide)]
      exact yields_store fun _ => nofun
  | case4 w x y z ds hstop uc ih =>
      have htext : 0 ∉ w :: x :: y :: z :: ds := fun h =>
        hzero (List.mem_cons_of_mem _ (List.mem_cons_of_mem _ h))
      have hds : 0 ∉ ds := fun h => htext (by simp only [List.mem_cons, h, or_true])
      have hread := readText_terminated htext
      simp only [terminated_cons] at hread ⊢
      rw [copyString_unit, hread, ok_bind]
      refine yields_store fun _ => (ih hds _).mono ?_
      rintro res ⟨n, hdecode, hroom, rfl⟩
      refine ⟨_, .unit w x y z hdecode, ?_, ?_⟩
      · rw [List.length_append] at hroom
        omega
      · simp only [List.append_assoc]
        rfl
  | case5 cs uc hshort hstop =>
      have hcs : 0 ∉ cs := fun h => hzero (List.mem_cons_of_mem _ (List.mem_cons_of_mem _ h))
      have hlen : (terminated cs).length ≤ 4 := by
        rw [terminated, List.length_append, List.length_singleton]
        match cs with
        | [] | [_] | [_, _] | [_, _, _] => simp only [List.length_cons, List.length_nil]; omega
        | w :: x :: y :: z :: ds => exact absurd rfl (hshort w x y z ds)
      rw [terminated_cons, terminated_cons, copyString_unit_cut unset capacity hlen,
        readText_terminated hcs, ok_bind]
      exact yields_store fun _ => nofun
  | case6 c cs hc hstop ih =>
      have hcs : 0 ∉ cs := fun h => hzero (List.mem_cons_of_mem _ (List.mem_cons_of_mem _ h))
      rw [terminated_cons, terminated_cons, copyString_escape unset hc]
      refine yields_store fun _ => (ih hcs _).mono ?_
      rintro res ⟨n, hdecode, hroom, rfl⟩
      refine ⟨n + 1, .escaped hc hdecode, ?_, ?_⟩
      · rw [List.length_append, List.length_singleton] at hroom
        omega
      · rw [List.append_assoc, List.singleton_append]
        rfl
  | case7 b bs hstop hbackslash ih =>
      have hbs : 0 ∉ bs := fun h => hzero (List.mem_cons_of_mem _ h)
      rw [terminated_cons, copyString_plain unset hstop hbackslash]
      refine yields_store fun _ => (ih hbs _).mono ?_
      rintro res ⟨n, hdecode, hroom, rfl⟩
      refine ⟨n + 1, .plain ?_ hdecode, ?_, ?_⟩
      · obtain ⟨hquote, hb⟩ := not_or.mp hstop
        exact ⟨hquote, hbackslash, by omega⟩
      · rw [List.length_append, List.length_singleton] at hroom
        omega
      · rw [List.append_assoc, List.singleton_append]
        rfl

theorem copyString_of_decodes {text ptr : Bytes} {n : ℕ} (h : Decodes unset text n ptr)
    (hzero : 0 ∉ text) {capacity : ℕ} {out : Bytes} (hroom : out.length + n + 1 ≤ capacity) :
    ∃ stored, copyString unset capacity (terminated text) out = .ok (stored, terminated ptr) := by
  induction h generalizing out with
  | stop hb text =>
      rw [terminated_cons, copyString_stop unset hb, store_of_le hroom]
      exact ⟨_, rfl⟩
  | ended =>
      rw [terminated_nil, copyString_stop unset (.inr (by decide)), store_of_le hroom]
      exact ⟨_, rfl⟩
  | @unit text ptr n w x y z h ih =>
      have htext : 0 ∉ w :: x :: y :: z :: text := fun h =>
        hzero (List.mem_cons_of_mem _ (List.mem_cons_of_mem _ h))
      have hrest : 0 ∉ text := fun h => htext (by simp only [List.mem_cons, h, or_true])
      have hread := readText_terminated htext
      simp only [terminated_cons] at hread ⊢
      rw [copyString_unit, hread, ok_bind, store_of_le (by omega), ok_bind]
      exact ih hrest (by rw [List.length_append]; omega)
  | escaped hc h ih =>
      have hrest := fun h => hzero (List.mem_cons_of_mem _ (List.mem_cons_of_mem _ h))
      rw [terminated_cons, terminated_cons, copyString_escape unset hc,
        store_of_le (by rw [List.length_singleton]; omega), ok_bind]
      exact ih hrest (by rw [List.length_append, List.length_singleton]; omega)
  | @plain b text ptr n hb h ih =>
      obtain ⟨hquote, hbackslash, hcontrol⟩ := hb
      have hstop : ¬(b = quote ∨ b.toNat ≤ 31) := not_or.mpr ⟨hquote, by omega⟩
      have hrest := fun h => hzero (List.mem_cons_of_mem _ h)
      rw [terminated_cons, copyString_plain unset hstop hbackslash,
        store_of_le (by rw [List.length_singleton]; omega), ok_bind]
      exact ih hrest (by rw [List.length_append, List.length_singleton]; omega)

/-- A reader of the text in memory does what the one of lists does, and goes on where `rel` says. -/
def Agrees {α : Type} (rel : Option Bytes → Prop) (o res : Option (α × Bytes)) : Prop :=
  res = o.map (Prod.map id terminated) ∧ rel (o.map Prod.snd)

theorem skipQuote_terminated (ptr : Bytes) :
    (if ptr.head?.getD 0 = quote then (terminated ptr).tail else terminated ptr) =
      terminated (skipQuote ptr) := by
  cases ptr with
  | nil => rfl
  | cons b ptr =>
      by_cases hb : b = quote
      · rw [skipQuote, if_pos (show (b :: ptr).head?.getD 0 = quote from hb),
          if_pos (show (b :: ptr).head? = some quote from congrArg some hb)]
        rfl
      · rw [skipQuote, if_neg (show (b :: ptr).head?.getD 0 ≠ quote from hb),
          if_neg (show (b :: ptr).head? ≠ some quote from fun h => hb (Option.some.inj h))]

theorem takeWhile_append_zero (stored : Bytes) :
    (stored ++ [0]).takeWhile (· ≠ 0) = stored.takeWhile (· ≠ 0) := by
  rw [List.takeWhile_append]
  split_ifs with h
  · rw [(List.takeWhile_prefix _).eq_of_length h]
    exact List.append_nil stored
  · rfl

theorem parseString_yields {text : Bytes} (hzero : 0 ∉ text) :
    Yields (· ≠ .deep)
      (Agrees (FitsString unset text) (ObjectJson.parseString unset (quote :: text)))
      (parseString unset (terminated (quote :: text))) := by
  rw [terminated_cons, parseString, load_cons, ok_bind, if_pos rfl, List.tail_cons]
  refine (countString_yields text (by decide)).bind ?_
  rintro res ⟨n, hcount, hn, rfl⟩
  rw [Nat.zero_add] at hn ⊢
  cases hclosed : ObjectJson.hasClosingQuote text with
  | false =>
      have hread : ObjectJson.parseString unset (quote :: text) = none := by
        simp only [ObjectJson.parseString, hclosed, Bool.false_eq_true, and_false, if_false]
      rw [hclosed] at hcount
      rw [hread]
      exact Yields.ok ⟨rfl, .refused hcount hn⟩
  | true =>
      have hread : ObjectJson.parseString unset (quote :: text) =
          some ((ObjectJson.copyString unset text).1.takeWhile (· ≠ 0),
            skipQuote (ObjectJson.copyString unset text).2) := by
        simp only [ObjectJson.parseString, hclosed, and_self, if_true]
        rfl
      rw [hclosed] at hcount
      rw [hread, if_pos rfl]
      refine yields_succ fun hcapacity => ?_
      refine (copyString_yields unset hzero (n + 1) []).bind ?_
      rintro ⟨stored, ptr⟩ ⟨k, hdecode, hroom, heq⟩
      obtain ⟨rfl, rfl⟩ := Prod.mk.inj heq
      rw [List.length_nil] at hroom
      simp only [load_terminated, ok_bind, skipQuote_terminated, List.nil_append,
        takeWhile_append_zero]
      exact Yields.ok ⟨rfl, .closed hcount hcapacity hdecode (by omega)⟩

theorem parseString_of_ne {text : Bytes} (h : text.head? ≠ some quote) :
    parseString unset (terminated text) = .ok none ∧ ObjectJson.parseString unset text = none := by
  cases text with
  | nil => exact ⟨rfl, rfl⟩
  | cons b text =>
      have hb : b ≠ quote := fun heq => h (congrArg some heq)
      constructor
      · rw [terminated_cons, parseString, load_cons, ok_bind, if_neg hb]
        rfl
      · rw [ObjectJson.parseString, if_neg (not_and_of_not_left _ hb)]

theorem parseString_of_fits {text : Bytes} (hzero : 0 ∉ text) {o : Option Bytes}
    (h : FitsString unset text o) :
    ∃ res, parseString unset (terminated (quote :: text)) = .ok res ∧
      res.map Prod.snd = o.map terminated := by
  rw [terminated_cons, parseString, load_cons, ok_bind, if_pos rfl, List.tail_cons]
  cases h with
  | refused hcount hn =>
      rw [countString_of_counts hcount (by omega)]
      exact ⟨none, rfl, rfl⟩
  | @closed n k ptr hcount hn hdecode hk =>
      obtain ⟨stored, hstored⟩ := copyString_of_decodes unset hdecode hzero
        (show ([] : Bytes).length + k + 1 ≤ n + 1 by rw [List.length_nil]; omega)
      rw [countString_of_counts hcount (by omega), ok_bind, if_pos rfl, Nat.zero_add]
      simp only [toInt_of_lt hn, ok_bind, hstored, load_terminated, skipQuote_terminated]
      exact ⟨_, rfl, rfl⟩

end Memory

end AxiomDaemon.Util

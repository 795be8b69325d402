import AxiomDaemon.Lib.CText
import AxiomDaemon.Lib.MediaType

/-!
The media type of a `Content-Type` header, `nr_header_parse_content_type` of `nr_header.c`.
The name of the header may be missing, and a colon anywhere is taken for the one behind it.
-/

namespace AxiomDaemon.Axiom

open AxiomDaemon.Lib AxiomDaemon.Lib.CText AxiomDaemon.Lib.Json AxiomDaemon.Lib.MediaType

/-- `nr_header_is_valid_token_char`. -/
def nrHeaderIsValidTokenChar (ch : UInt8) : Bool :=
  if 0x61 ≤ ch.toNat ∧ ch.toNat ≤ 0x7a then true
  else if 0x41 ≤ ch.toNat ∧ ch.toNat ≤ 0x5a then true
  else if 0x30 ≤ ch.toNat ∧ ch.toNat ≤ 0x39 then true
  else ch ∈ ascii "!#$%&'*+-.^_`|~"

/-- The loop that finds the start of the media type. -/
def skipBlanks : Bytes → Checked Bytes
  | [] => .error .read
  | b :: start =>
      if b = 0 then .ok (b :: start)
      else if b ≠ 0x20 ∧ b ≠ 0x09 then .ok (b :: start)
      else skipBlanks start

/-- The loops that consume a token: how many bytes it has. -/
def consumeToken : Bytes → Checked ℕ
  | [] => .error .read
  | b :: start =>
      if b = 0 then .ok 0
      else if nrHeaderIsValidTokenChar b then (· + 1) <$> consumeToken start
      else .ok 0

/-- What `nr_header_parse_content_type` does from the start of the media type on. -/
def consumeMediaType (start : Bytes) : Checked (Option Bytes) := do
  let type ← consumeToken start
  if type = 0 then .ok none
  else do
    let separator ← load (start.drop type)
    if separator ≠ slash then .ok none
    else do
      let subtype ← consumeToken (start.drop (type + 1))
      let len := type + 1 + subtype
      let behind ← load (start.drop len)
      if behind = 0 ∨ behind = 0x20 ∨ behind = 0x09 ∨ behind = 0x3b then do
        let last ← load (start.drop (len - 1))
        if last = slash then .ok none else .ok (some (start.take len))
      else .ok none

/-- `nr_header_parse_content_type`. -/
def nrHeaderParseContentType (header : Option Bytes) : Checked (Option Bytes) :=
  match header with
  | none => .ok none
  | some header => do
      let found ← strchr colon header
      if found = some header then .ok none
      else do
        let start ← skipBlanks ((found.map List.tail).getD header)
        let first ← load start
        if first = 0 ∧ found.isSome then .ok (some []) else consumeMediaType start

/-! ### What is read -/

theorem nrHeaderIsValidTokenChar_eq (b : UInt8) : nrHeaderIsValidTokenChar b = isTchar b := by
  rw [nrHeaderIsValidTokenChar, isTchar, isDigit]
  split_ifs <;> simp_all

theorem skipBlanks_terminated (text : Bytes) :
    skipBlanks (terminated text) = .ok (terminated (text.dropWhile isBlank)) := by
  induction text with
  | nil => rfl
  | cons b text ih =>
      rw [terminated_cons, skipBlanks, ih]
      by_cases hblank : isBlank b = true
      · rw [List.dropWhile_cons_of_pos hblank]
        simp only [isBlank, Bool.or_eq_true, decide_eq_true_eq] at hblank
        rw [if_neg, if_neg]
        · tauto
        · rintro rfl
          exact absurd hblank (by decide)
      · rw [List.dropWhile_cons_of_neg hblank, terminated_cons]
        simp only [isBlank, Bool.or_eq_true, decide_eq_true_eq, not_or] at hblank
        rw [if_pos hblank, ite_self]

theorem consumeToken_terminated (text : Bytes) :
    consumeToken (terminated text) = .ok (text.takeWhile isTchar).length := by
  induction text with
  | nil => rfl
  | cons b text ih =>
      rw [terminated_cons, consumeToken, ih, nrHeaderIsValidTokenChar_eq]
      by_cases hb : isTchar b = true
      · rw [if_neg (isTchar_ne hb).1, if_pos hb, List.takeWhile_cons_of_pos hb]
        rfl
      · rw [if_neg hb, ite_self, List.takeWhile_cons_of_neg hb]
        rfl

theorem exists_token (text : Bytes) : ∃ token rest, text = token ++ rest ∧
    (∀ b ∈ token, isTchar b = true) ∧ ∀ b ∈ rest.head?, isTchar b = false := by
  refine ⟨text.takeWhile isTchar, text.dropWhile isTchar, ?_, ?_, ?_⟩
  · exact List.takeWhile_append_dropWhile.symm
  · exact fun b hb => List.mem_takeWhile_imp hb
  · intro b hb
    have hnot := List.head?_dropWhile_not isTchar text
    rw [hb] at hnot
    simpa using hnot

theorem consumeToken_append {token rest : Bytes} (htoken : ∀ b ∈ token, isTchar b = true)
    (hrest : ∀ b ∈ rest.head?, isTchar b = false) :
    consumeToken (terminated (token ++ rest)) = .ok token.length := by
  rw [consumeToken_terminated, takeWhile_token htoken hrest]

theorem drop_terminated_append (s t : Bytes) :
    (terminated (s ++ t)).drop s.length = terminated t := by
  rw [terminated_append, List.drop_left]

/-- Whether a byte may stand behind a subtype; a zero may. -/
def endsSubtype (behind : UInt8) : Prop :=
  behind = 0 ∨ behind = 0x20 ∨ behind = 0x09 ∨ behind = 0x3b

instance (behind : UInt8) : Decidable (endsSubtype behind) :=
  inferInstanceAs (Decidable (behind = 0 ∨ behind = 0x20 ∨ behind = 0x09 ∨ behind = 0x3b))

theorem endsSubtype_of_endsMediaType {rest : Bytes} (h : EndsMediaType rest) :
    endsSubtype (rest.head?.getD 0) := by
  cases rest with
  | nil => exact Or.inl rfl
  | cons b rest =>
      rcases h b rfl with hblank | rfl
      · simp only [isBlank, Bool.or_eq_true, decide_eq_true_eq] at hblank
        exact Or.inr (hblank.imp_right Or.inl)
      · exact Or.inr (Or.inr (Or.inr rfl))

theorem endsMediaType_of_endsSubtype {rest : Bytes} (hzero : 0 ∉ rest)
    (h : endsSubtype (rest.head?.getD 0)) : EndsMediaType rest := by
  intro b hb
  cases rest with
  | nil => cases hb
  | cons c rest =>
      obtain rfl := Option.some.inj hb
      have hne : c ≠ 0 := fun hc => hzero (hc ▸ List.mem_cons_self)
      rcases h with hc | hc | hc | hc
      · exact absurd hc hne
      · exact Or.inl (by rw [isBlank]; simp_all)
      · exact Or.inl (by rw [isBlank]; simp_all)
      · exact Or.inr hc

/-- Behind a type and a slash the subtype is read, and the byte behind that. -/
theorem consumeMediaType_append {type subtype rest : Bytes} (htype : IsToken type)
    (hsubtype : ∀ b ∈ subtype, isTchar b = true) (hrest : ∀ b ∈ rest.head?, isTchar b = false) :
    consumeMediaType (terminated (type ++ slash :: (subtype ++ rest))) =
      if endsSubtype (rest.head?.getD 0) then
        if subtype = [] then .ok none else .ok (some (type ++ slash :: subtype))
      else .ok none := by
  have hslash : ∀ b ∈ (slash :: (subtype ++ rest)).head?, isTchar b = false := by
    intro b hb
    obtain rfl := Option.some.inj hb
    decide
  have hlength : type.length ≠ 0 := (List.length_pos_iff.mpr htype.ne_nil).ne'
  have hsub : (terminated (type ++ slash :: (subtype ++ rest))).drop (type.length + 1) =
      terminated (subtype ++ rest) := by
    rw [← List.drop_drop, drop_terminated_append]
    rfl
  have hbehind : (terminated (type ++ slash :: (subtype ++ rest))).drop
      (type.length + 1 + subtype.length) = terminated rest := by
    rw [← List.drop_drop, hsub, drop_terminated_append]
  have htake : (terminated (type ++ slash :: (subtype ++ rest))).take
      (type.length + 1 + subtype.length) = type ++ slash :: subtype := by
    have hlength : type.length + 1 + subtype.length = (type ++ slash :: subtype).length := by
      rw [List.length_append, List.length_cons]
      omega
    have htext : type ++ slash :: (subtype ++ rest) = (type ++ slash :: subtype) ++ rest := by
      rw [List.append_assoc, List.cons_append]
    rw [htext, terminated_append, hlength, List.take_left]
  rw [consumeMediaType, consumeToken_append htype.all hslash, ok_bind, if_neg hlength,
    drop_terminated_append, terminated_cons, load_cons, ok_bind, if_neg (not_not.mpr rfl), hsub,
    consumeToken_append hsubtype hrest, ok_bind]
  simp only [hbehind, load_terminated, ok_bind, htake]
  by_cases hend : endsSubtype (rest.head?.getD 0)
  · rw [if_pos hend]
    refine (if_pos hend).trans ?_
    rcases List.eq_nil_or_concat subtype with rfl | ⟨before, last, rfl⟩
    · -- the last byte that was consumed is the slash
      have hlast : (terminated (type ++ slash :: ([] ++ rest))).drop (type.length + 1 + 0 - 1) =
          terminated (slash :: rest) := by
        rw [Nat.add_zero, Nat.add_sub_cancel, drop_terminated_append, List.nil_append]
      rw [List.length_nil, hlast, terminated_cons, load_cons, ok_bind, if_pos rfl, if_pos rfl]
    · have hne : last ≠ slash := (isTchar_ne (hsubtype last (by simp))).2.2
      have hlast : (terminated (type ++ slash :: (before.concat last ++ rest))).drop
          (type.length + 1 + (before.concat last).length - 1) = terminated (last :: rest) := by
        have hsum : type.length + 1 + (before.concat last).length - 1 =
            type.length + 1 + before.length := by
          rw [List.length_concat]
          omega
        rw [hsum, ← List.drop_drop, hsub, List.concat_eq_append, List.append_assoc,
          drop_terminated_append, List.singleton_append]
      rw [hlast, terminated_cons, load_cons, ok_bind, if_neg hne, if_neg (by simp)]
  · rw [if_neg hend]
    exact if_neg hend

/-! ### What is recognised -/

theorem consumeMediaType_complete {text mediaType : Bytes}
    (h : StartsWithMediaType text mediaType) :
    consumeMediaType (terminated text) = .ok (some mediaType) := by
  obtain ⟨⟨type, subtype, rfl, htype, hsubtype⟩, rest, hrest, rfl⟩ := h
  rw [List.append_assoc, List.cons_append,
    consumeMediaType_append htype hsubtype.all hrest.head_not_tchar,
    if_pos (endsSubtype_of_endsMediaType hrest), if_neg hsubtype.ne_nil]

/-- Nothing is read behind the end of a text, and what is recognised is a media type. -/
theorem consumeMediaType_sound {text : Bytes} (hzero : 0 ∉ text) :
    ∃ result, consumeMediaType (terminated text) = .ok result ∧
      ∀ mediaType, result = some mediaType → StartsWithMediaType text mediaType := by
  obtain ⟨type, behind, rfl, htype, hbehind⟩ := exists_token text
  by_cases hne : type = []
  · refine ⟨none, ?_, by simp⟩
    rw [consumeMediaType, consumeToken_append htype hbehind, hne]
    rfl
  by_cases hslash : behind.head? = some slash
  · obtain ⟨behind, rfl⟩ := List.head?_eq_some_iff.mp hslash
    obtain ⟨subtype, rest, rfl, hsubtype, hrest⟩ := exists_token behind
    rw [consumeMediaType_append ⟨hne, htype⟩ hsubtype hrest]
    have hzero : 0 ∉ rest := fun hmem => hzero (by simp [hmem])
    split_ifs with hend hsub
    · exact ⟨none, rfl, by simp⟩
    · refine ⟨_, rfl, ?_⟩
      intro mediaType heq
      obtain rfl := Option.some.inj heq
      refine ⟨⟨type, subtype, rfl, ⟨hne, htype⟩, ⟨hsub, hsubtype⟩⟩, rest, ?_, ?_⟩
      · exact endsMediaType_of_endsSubtype hzero hend
      · rw [List.append_assoc, List.cons_append]
    · exact ⟨none, rfl, by simp⟩
  · refine ⟨none, ?_, by simp⟩
    have hseparator : behind.head?.getD 0 ≠ slash := by
      cases behind with
      | nil => decide
      | cons b behind => exact fun hb => hslash (congrArg some hb)
    rw [consumeMediaType, consumeToken_append htype hbehind, ok_bind,
      if_neg (List.length_pos_iff.mpr hne).ne', drop_terminated_append, load_terminated, ok_bind,
      if_pos hseparator]

/-- Without a colon the media type is looked for from the start on. -/
theorem nrHeaderParseContentType_of_notMem {text : Bytes} (hzero : 0 ∉ text)
    (hcolon : colon ∉ text) :
    nrHeaderParseContentType (some (terminated text)) =
      consumeMediaType (terminated (text.dropWhile isBlank)) := by
  rw [nrHeaderParseContentType]
  simp only [strchr_terminated_of_notMem (show colon ≠ 0 by decide) hcolon hzero, ok_bind]
  rw [if_neg (by simp), Option.map_none, Option.getD_none, skipBlanks_terminated, ok_bind,
    load_terminated, ok_bind, if_neg (by simp)]

theorem nrHeaderParseContentType_of_colon {name rest : Bytes} (hzero : 0 ∉ name ++ colon :: rest)
    (hcolon : colon ∉ name) (hne : name ≠ []) :
    nrHeaderParseContentType (some (terminated (name ++ colon :: rest))) =
      if rest.dropWhile isBlank = [] then .ok (some [])
      else consumeMediaType (terminated (rest.dropWhile isBlank)) := by
  have hname : 0 ∉ name := fun hmem => hzero (List.mem_append_left _ hmem)
  have hrest : 0 ∉ rest.dropWhile isBlank := by
    intro hmem
    exact hzero (by simp [(List.dropWhile_suffix isBlank).subset hmem])
  have hheader : ¬some (colon :: terminated rest) = some (terminated (name ++ colon :: rest)) := by
    intro heq
    have hlength := congrArg List.length (Option.some.inj heq)
    have hpos := List.length_pos_iff.mpr hne
    rw [terminated_append, terminated_cons, List.length_append] at hlength
    omega
  rw [nrHeaderParseContentType]
  simp only [strchr_terminated hcolon hname rest, ok_bind]
  rw [if_neg hheader, Option.map_some, Option.getD_some, List.tail_cons, skipBlanks_terminated,
    ok_bind, load_terminated, ok_bind]
  cases hstart : rest.dropWhile isBlank with
  | nil => rfl
  | cons b start =>
      have hb : b ≠ 0 := by
        rintro rfl
        exact hrest (by rw [hstart]; exact List.mem_cons_self)
      rw [if_neg (fun h => hb h.1), if_neg (List.cons_ne_nil b start)]

/-! ### Headers -/

/-- A colon in a value does no harm if what follows the first one starts with the same media
type. -/
def ColonHarmless (value mediaType : Bytes) : Prop :=
  colon ∈ value →
    StartsWithMediaType (((value.dropWhile (· ≠ colon)).tail).dropWhile isBlank) mediaType

theorem startsWith_of_contentType {value mediaType : Bytes} (h : ContentType value mediaType) :
    StartsWithMediaType value mediaType := by
  obtain ⟨hmedia, parameters, hparameters, rfl⟩ := h
  exact ⟨hmedia, parameters, hparameters.endsMediaType, rfl⟩

theorem exists_tchar_of_contentType {value mediaType : Bytes} (h : ContentType value mediaType) :
    ∃ b rest, value = b :: rest ∧ isTchar b = true := by
  obtain ⟨⟨type, subtype, rfl, htype, -⟩, parameters, -, rfl⟩ := h
  cases type with
  | nil => exact absurd rfl htype.ne_nil
  | cons b type => exact ⟨b, _, rfl, htype.all b (by simp)⟩

theorem isBlank_of_isTchar {b : UInt8} (h : isTchar b = true) : isBlank b = false := by
  rw [isBlank, Bool.or_eq_false_iff, decide_eq_false_iff_not, decide_eq_false_iff_not]
  refine ⟨?_, ?_⟩
  · rintro rfl
    exact absurd h (by decide)
  · rintro rfl
    exact absurd h (by decide)

theorem dropWhile_blanks_contentType {value mediaType : Bytes} (h : ContentType value mediaType)
    {blanks : Bytes} (hblanks : ∀ b ∈ blanks, isBlank b = true) :
    (blanks ++ value).dropWhile isBlank = value := by
  obtain ⟨b, rest, rfl, hb⟩ := exists_tchar_of_contentType h
  rw [List.dropWhile_append_of_pos hblanks,
    List.dropWhile_cons_of_neg (ne_true_of_eq_false (isBlank_of_isTchar hb))]

/-- Behind the name of a header every value has its media type recognised. -/
theorem nrHeaderParseContentType_named {name blanks value mediaType : Bytes} (hname : IsToken name)
    (hblanks : ∀ b ∈ blanks, isBlank b = true) (h : ContentType value mediaType) :
    nrHeaderParseContentType (some (terminated (name ++ colon :: (blanks ++ value)))) =
      .ok (some mediaType) := by
  have hcolon : colon ∉ name := fun hmem => (isTchar_ne (hname.all colon hmem)).2.1 rfl
  have hzero : 0 ∉ name ++ colon :: (blanks ++ value) := by
    have hne : 0 ≠ colon := by decide
    simp [hname.zero_notMem, zero_notMem_of_isBlank hblanks, h.zero_notMem, hne]
  obtain ⟨b, rest, hvalue, -⟩ := exists_tchar_of_contentType h
  rw [nrHeaderParseContentType_of_colon hzero hcolon hname.ne_nil,
    dropWhile_blanks_contentType h hblanks, if_neg (by simp [hvalue]),
    consumeMediaType_complete (startsWith_of_contentType h)]

/-- Alone a value has it recognised if it has no colon, or one that does no harm. -/
theorem nrHeaderParseContentType_alone {value mediaType : Bytes}
    (h : ContentType value mediaType) :
    nrHeaderParseContentType (some (terminated value)) = .ok (some mediaType) ↔
      ColonHarmless value mediaType := by
  have hzero := h.zero_notMem
  by_cases hcolon : colon ∈ value
  · obtain ⟨name, rest, rfl, hname⟩ := List.eq_append_cons_of_mem hcolon
    have hne : name ≠ [] := by
      rintro rfl
      obtain ⟨b, tail, hvalue, hb⟩ := exists_tchar_of_contentType h
      exact (isTchar_ne hb).2.1 (List.cons.inj hvalue).1.symm
    have hbehind : ((name ++ colon :: rest).dropWhile (· ≠ colon)).tail = rest := by
      have hall : ∀ b ∈ name, decide (b ≠ colon) = true := fun b hb =>
        decide_eq_true fun heq => hname (heq ▸ hb)
      rw [List.dropWhile_append_of_pos hall]
      simp
    have hrest : 0 ∉ rest.dropWhile isBlank := by
      intro hmem
      exact hzero (by simp [(List.dropWhile_suffix isBlank).subset hmem])
    rw [nrHeaderParseContentType_of_colon hzero hname hne, ColonHarmless, hbehind]
    obtain ⟨result, hresult, hsound⟩ := consumeMediaType_sound hrest
    constructor
    · intro hparse _
      split_ifs at hparse with hnil
      · obtain rfl : [] = mediaType := Option.some.inj (Except.ok.inj hparse)
        obtain ⟨⟨type, subtype, hmedia, -⟩, -⟩ := h
        simp at hmedia
      · exact hsound mediaType (Except.ok.inj (hresult.symm.trans hparse))
    · intro hharmless
      have hstarts := hharmless hcolon
      rw [if_neg, consumeMediaType_complete hstarts]
      intro hnil
      obtain ⟨⟨type, subtype, rfl, -⟩, tail, -, htext⟩ := hstarts
      rw [hnil] at htext
      simp at htext
  · have hnil : ∀ b ∈ ([] : Bytes), isBlank b = true := by simp
    have hblanks : value.dropWhile isBlank = value := dropWhile_blanks_contentType h hnil
    rw [nrHeaderParseContentType_of_notMem hzero hcolon, hblanks,
      consumeMediaType_complete (startsWith_of_contentType h)]
    exact iff_of_true rfl fun hmem => absurd hmem hcolon

/-- Whatever the header is, nothing is read behind its end, and what is recognised is a media
type or nothing. -/
theorem nrHeaderParseContentType_sound {text : Bytes} (hzero : 0 ∉ text) :
    ∃ result, nrHeaderParseContentType (some (terminated text)) = .ok result ∧
      ∀ mediaType, result = some mediaType → mediaType ≠ [] → IsMediaType mediaType := by
  by_cases hcolon : colon ∈ text
  · obtain ⟨name, rest, rfl, hname⟩ := List.eq_append_cons_of_mem hcolon
    by_cases hne : name = []
    · refine ⟨none, ?_, by simp⟩
      rw [hne, List.nil_append, terminated_cons, nrHeaderParseContentType]
      simp [strchr]
    · have hrest : 0 ∉ rest.dropWhile isBlank := by
        intro hmem
        exact hzero (by simp [(List.dropWhile_suffix isBlank).subset hmem])
      obtain ⟨result, hresult, hsound⟩ := consumeMediaType_sound hrest
      rw [nrHeaderParseContentType_of_colon hzero hname hne]
      split_ifs with hnil
      · exact ⟨some [], rfl, fun mediaType heq hmedia => absurd (Option.some.inj heq).symm hmedia⟩
      · exact ⟨result, hresult, fun mediaType heq _ => (hsound mediaType heq).1⟩
  · have hrest : 0 ∉ text.dropWhile isBlank := fun hmem =>
      hzero ((List.dropWhile_suffix isBlank).subset hmem)
    obtain ⟨result, hresult, hsound⟩ := consumeMediaType_sound hrest
    refine ⟨result, ?_, fun mediaType heq _ => (hsound mediaType heq).1⟩
    rw [nrHeaderParseContentType_of_notMem hzero hcolon, hresult]

/-- The media type of every value is recognised behind the name of a header, and that of one
which stands alone exactly if it has no colon that does harm. Nothing is read behind the end
of any header, and nothing but a media type is recognised in one. -/
theorem nrHeaderParseContentType_exact (name blanks value mediaType text : Bytes) :
    (ContentType value mediaType →
      (nrHeaderParseContentType (some (terminated value)) = .ok (some mediaType) ↔
        ColonHarmless value mediaType)) ∧
    (IsToken name → (∀ b ∈ blanks, isBlank b = true) → ContentType value mediaType →
      nrHeaderParseContentType (some (terminated (name ++ colon :: (blanks ++ value)))) =
        .ok (some mediaType)) ∧
    (0 ∉ text → ∃ result, nrHeaderParseContentType (some (terminated text)) = .ok result ∧
      ∀ found, result = some found → found ≠ [] → IsMediaType found) := by
  refine ⟨?_, ?_, ?_⟩
  · intro h
    exact nrHeaderParseContentType_alone h
  · intro hname hblanks h
    exact nrHeaderParseContentType_named hname hblanks h
  · intro hzero
    exact nrHeaderParseContentType_sound hzero

/-- A colon in a quoted string hides the media type in front of it. -/
theorem nrHeaderParseContentType_quoted_colon :
    ContentType (ascii "text/html; a=\"b:c\"") (ascii "text/html") ∧
      nrHeaderParseContentType (some (terminated (ascii "text/html; a=\"b:c\""))) = .ok none := by
  have htoken : ∀ token : Bytes, token ≠ [] → token.all isTchar = true → IsToken token :=
    fun token hne hall => ⟨hne, fun b hb => List.all_eq_true.mp hall b hb⟩
  have hquoted : Quoted (ascii "b:c") := by
    refine .qdtext (by decide) (by decide) (by decide) ?_
    refine .qdtext (by decide) (by decide) (by decide) ?_
    exact .qdtext (by decide) (by decide) (by decide) .nil
  have hparameter := Parameter.quoted (htoken (ascii "a") (by decide) (by decide)) hquoted
  have hbefore : ∀ b ∈ ([] : Bytes), isBlank b = true := by simp
  have hbehind : ∀ b ∈ ascii " ", isBlank b = true := List.all_eq_true.mp (by decide)
  have hparameters : Parameters (ascii "; a=\"b:c\"") :=
    .cons hbefore hbehind hparameter .nil
  refine ⟨⟨⟨ascii "text", ascii "html", rfl, ?_, ?_⟩, _, hparameters, rfl⟩, by decide⟩
  · exact htoken _ (by decide) (by decide)
  · exact htoken _ (by decide) (by decide)

end AxiomDaemon.Axiom

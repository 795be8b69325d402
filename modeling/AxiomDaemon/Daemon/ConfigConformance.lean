import AxiomDaemon.Daemon.ConfigGrammar
import Mathlib.Data.Bool.AllAny

/-!
The decoder against the grammar. An item of the grammar brings the decoder from the front
of the item to the front of what follows; a text that does not go on with an item is an
error, unless it is the start of a keyword and then ends.
-/

namespace AxiomDaemon.Daemon.ConfigDecoder

open Lib StateTransition

variable {U : UnicodeTables} {n : ℕ} {fields : TypeInfo n} {v v' : Values n}
  {err : Option DecodeError} {token token₁ : Runes}

theorem isAlnum_or_dot_iff {ch : Char} :
    (isAlnum U ch || ch = '.') = true ↔ IsKeywordRune U ch := by
  simp only [isAlnum, IsKeywordRune, Bool.or_eq_true, decide_eq_true_eq]
  tauto

theorem not_isKeywordRune {ch : Char} (h : unicodeIsSpace ch = true ∨ ch = '=') :
    ¬ IsKeywordRune U ch := by
  have hapart : U.isLetter ch = false ∧ U.isNumber ch = false :=
    U.apart ch (h.imp id fun heq => by simp [heq])
  have hne : ch ≠ '_' ∧ ch ≠ '.' := by
    constructor <;> rintro rfl <;> revert h <;> decide
  simp [IsKeywordRune, hapart, hne]

/-! ### What one state function does with the front of its input -/

section Fronts

theorem lexInitial_space {ch : Char} (h : unicodeIsSpace ch = true) (text : Runes) :
    lexInitial U ⟨ch :: text, fields, [], []⟩ v = lexInitial U ⟨text, fields, [], []⟩ v := by
  rw [lexInitial, lexInitialLoop, if_pos h]
  rfl

theorem lexInitial_mark {mark : Char} (h : mark = '#' ∨ mark = ';') (text : Runes) :
    lexInitial U ⟨mark :: text, fields, [], []⟩ v =
      .next .lexComment ⟨text, fields, [], []⟩ v := by
  have hspace : ¬ unicodeIsSpace mark = true := by
    rcases h with rfl | rfl <;> decide
  rw [lexInitial, lexInitialLoop, if_neg hspace, if_pos (by simpa using h)]

theorem lexInitial_letter {first : Char} (h : U.isLetter first = true) (text : Runes) :
    lexInitial U ⟨first :: text, fields, [], []⟩ v =
      .next .lexKeyword ⟨text, fields, [], [first]⟩ v := by
  have hspace : ¬ unicodeIsSpace first = true := by
    intro hspace
    simp [(U.apart first (.inl hspace)).1] at h
  have hmark : ¬ (first = '#' || first = ';') = true := by
    intro hmark
    simp [(U.apart first (.inr (by simp at hmark ⊢; tauto))).1] at h
  rw [lexInitial, lexInitialLoop, if_neg hspace, if_neg hmark, if_pos h]
  rfl

theorem lexKeyword_append {more : Runes} (h : ∀ ch ∈ more, IsKeywordRune U ch)
    (text token : Runes) : lexKeyword U ⟨more ++ text, fields, [], token⟩ v =
      lexKeyword U ⟨text, fields, [], token ++ more⟩ v := by
  induction more generalizing token with
  | nil => simp
  | cons ch more ih =>
      have hch := isAlnum_or_dot_iff.mpr (h ch List.mem_cons_self)
      rw [List.cons_append, lexKeyword, lexKeywordLoop, if_pos hch]
      refine (ih (fun ch hmem => h ch (List.mem_cons_of_mem _ hmem)) (token ++ [ch])).trans ?_
      rw [List.append_assoc, List.singleton_append]

theorem lexKeyword_space {ch : Char} (h : unicodeIsSpace ch = true) (text token : Runes) :
    lexKeyword U ⟨ch :: text, fields, [], token⟩ v =
      .next .lexDelimiter ⟨text, fields, token, []⟩ v := by
  have hrune := isAlnum_or_dot_iff.not.mpr (not_isKeywordRune (U := U) (.inl h))
  rw [lexKeyword, lexKeywordLoop, if_neg hrune, if_pos h]

theorem lexKeyword_delimiter (text token : Runes) :
    lexKeyword U ⟨'=' :: text, fields, [], token⟩ v =
      .next .lexValue ⟨text, fields, token, []⟩ v := by
  have hrune := isAlnum_or_dot_iff.not.mpr (not_isKeywordRune (U := U) (.inr rfl))
  rw [lexKeyword, lexKeywordLoop, if_neg hrune, if_neg (by decide), if_pos rfl]

theorem lexDelimiter_append {gap : Runes} (h : ∀ ch ∈ gap, unicodeIsSpace ch = true)
    (text keyword : Runes) : lexDelimiter ⟨gap ++ '=' :: text, fields, keyword, []⟩ v =
      .next .lexValue ⟨text, fields, keyword, []⟩ v := by
  induction gap with
  | nil => rw [List.nil_append, lexDelimiter, lexDelimiterLoop, if_neg (by decide), if_pos rfl]
  | cons ch gap ih =>
      rw [List.cons_append, lexDelimiter, lexDelimiterLoop, if_pos (h ch List.mem_cons_self)]
      exact ih fun ch hmem => h ch (List.mem_cons_of_mem _ hmem)

theorem lexValue_blank {ch : Char} (hspace : unicodeIsSpace ch = true) (hline : ch ≠ '\n')
    (text keyword : Runes) : lexValue ⟨ch :: text, fields, keyword, []⟩ v =
      lexValue ⟨text, fields, keyword, []⟩ v := by
  rw [lexValue, lexValueLoop, if_pos hspace, if_neg hline]
  rfl

theorem lexValue_raw {first : Char} (hspace : unicodeIsSpace first = false)
    (hsingle : first ≠ singleQuote) (hdouble : first ≠ doubleQuote) (text keyword : Runes) :
    lexValue ⟨first :: text, fields, keyword, []⟩ v =
      .next .lexRawString ⟨text, fields, keyword, [first]⟩ v := by
  rw [lexValue, lexValueLoop, if_neg (by simp [hspace]), if_neg hsingle, if_neg hdouble]
  rfl

end Fronts

/-! ### An item brings the decoder in front of the next one -/

section Steps

theorem returns_initial_nil (U : UnicodeTables) (fields : TypeInfo n) (v : Values n) :
    Returns U (initial fields v []) none [] v := by
  apply returns_next_iff.mpr
  exact returns_stop U (some .eof) ⟨[], fields, [], []⟩ v

theorem returns_space {ch : Char} {text : Runes} (hspace : unicodeIsSpace ch = true)
    (h : Returns U (initial fields v text) err token v') :
    Returns U (initial fields v (ch :: text)) err token v' :=
  h.of_call_eq (lexInitial_space hspace text)

theorem returns_comment {mark : Char} {line tail text : Runes} (hmark : mark = '#' ∨ mark = ';')
    (hline : '\n' ∉ line) (hend : EndsLine tail text)
    (h : Returns U (initial fields v text) err token v') :
    Returns U (initial fields v (mark :: (line ++ tail))) err token v' := by
  apply returns_next_iff.mpr
  rw [call, lexInitial_mark hmark]
  apply returns_next_iff.mpr
  rw [call, lexComment]
  cases hend with
  | newline =>
      rw [if_neg (by simp), readBytes_append hline]
      exact h
  | endOfInput =>
      rw [List.append_nil]
      split_ifs with hnil
      · simp only at hnil
        subst hnil
        exact returns_next_iff.mp h
      · rw [readBytes_of_notMem hline]
        exact h

/-- A keyword and its delimiter bring the decoder in front of the value. -/
theorem returns_keyword {keyword gap after : Runes} (hkeyword : IsKeyword U keyword)
    (hgap : ∀ ch ∈ gap, unicodeIsSpace ch = true)
    (h : Returns U (.next .lexValue ⟨after, fields, keyword, []⟩ v) err token v') :
    Returns U (initial fields v (keyword ++ (gap ++ '=' :: after))) err token v' := by
  obtain ⟨hfirst, hmore⟩ := hkeyword
  apply returns_next_iff.mpr
  rw [List.cons_append, call, lexInitial_letter hfirst]
  apply returns_next_iff.mpr
  rw [call, lexKeyword_append hmore]
  cases gap with
  | nil => rwa [List.nil_append, lexKeyword_delimiter]
  | cons ch gap =>
      rw [List.cons_append, lexKeyword_space (hgap ch List.mem_cons_self)]
      apply returns_next_iff.mpr
      rwa [call, lexDelimiter_append fun ch hmem => hgap ch (List.mem_cons_of_mem _ hmem)]

theorem returns_empty {tail text keyword : Runes} (hend : EndsLine tail text)
    (h : Returns U (initial fields (unmarshalValue fields keyword [] v) text) err token v') :
    Returns U (.next .lexValue ⟨tail, fields, keyword, []⟩ v) err token v' := by
  apply returns_next_iff.mpr
  cases hend with
  | newline => exact h
  | endOfInput =>
      obtain ⟨rfl, rfl, rfl⟩ := h.unique (returns_initial_nil U fields _)
      exact returns_stop U none ⟨[], fields, [], []⟩ _

theorem returns_raw {more tail text keyword : Runes} (hline : '\n' ∉ more)
    (hend : EndsLine tail text) (h : Returns U (initial fields (unmarshalValue fields keyword
      (token₁ ++ trimRight (stripTrailingComment more)) v) text) err token v') :
    Returns U (.next .lexRawString ⟨more ++ tail, fields, keyword, token₁⟩ v) err token v' := by
  apply returns_next_iff.mpr
  rw [call, lexRawString]
  cases hend with
  | newline =>
      simp only [readBytes_append hline, trimRight_stripTrailingComment_newline]
      exact h
  | endOfInput =>
      obtain ⟨rfl, rfl, rfl⟩ := h.unique (returns_initial_nil U fields _)
      simp only [List.append_nil, readBytes_of_notMem hline]
      exact returns_stop U none ⟨[], fields, [], []⟩ _

theorem returns_value {after text keyword : Runes} {spelling : Spelling}
    (hvalue : Value after spelling text)
    (h : Returns U (initial fields (unmarshalValue fields keyword spelling.stored v) text)
      err token v') :
    Returns U (.next .lexValue ⟨after, fields, keyword, []⟩ v) err token v' := by
  induction hvalue with
  | blank hspace hline hvalue ih => exact (ih h).of_call_eq (lexValue_blank hspace hline _ _)
  | quoted text hbody =>
      apply returns_next_iff.mpr
      apply returns_next_iff.mpr
      simp only [call, lexSingleQuoteString, readBytes_append hbody, List.dropLast_concat]
      exact h
  | dquoted text hbody =>
      apply returns_next_iff.mpr
      apply returns_next_iff.mpr
      simp only [call, lexDoubleQuoteString, readBytes_append hbody, List.dropLast_concat]
      exact h
  | empty hend => exact returns_empty hend h
  | raw hspace hsingle hdouble hline hend =>
      apply returns_next_iff.mpr
      rw [call, lexValue_raw hspace hsingle hdouble]
      exact returns_raw hline hend h

/-- The items in front of a text are stored, and decoding goes on with the text. -/
theorem Items.returns {text rest : Runes} {settings : List Setting}
    (hitems : Items U text rest settings)
    (h : Returns U (initial fields (store fields settings v) rest) err token v') :
    Returns U (initial fields v text) err token v' := by
  induction hitems generalizing v with
  | nil rest => exact h
  | space hspace hitems ih => exact returns_space hspace (ih h)
  | comment hmark hline hend hitems ih => exact returns_comment hmark hline hend (ih h)
  | setting hkeyword hgap hvalue hitems ih =>
      exact returns_keyword hkeyword hgap (returns_value hvalue (ih h))

/-- At the end of the input, a keyword is dropped without an error. -/
theorem IsKeyword.returns {keyword : Runes} (h : IsKeyword U keyword) (fields : TypeInfo n)
    (v : Values n) : Returns U (initial fields v keyword) none keyword v := by
  obtain ⟨hfirst, hmore⟩ := h
  rename_i first more
  apply returns_next_iff.mpr
  rw [call, lexInitial_letter hfirst]
  apply returns_next_iff.mpr
  have hall : lexKeyword U ⟨more ++ [], fields, [], [first]⟩ v =
      .stop (some .eof) ⟨[], fields, [], first :: more⟩ v := lexKeyword_append hmore [] [first]
  rw [List.append_nil] at hall
  rw [call, hall]
  exact returns_stop U (some .eof) ⟨[], fields, [], first :: more⟩ v

end Steps

/-! ### A text that does not go on with an item is an error -/

/-- The loop ends from here with an error. -/
def Fails (U : UnicodeTables) (l : Lexed n) : Prop :=
  ∃ err token v, Returns U l (some err) token v

theorem fails_stop {error : DecodeError} (h : error ≠ .eof) (d : Decoder n) (v : Values n) :
    Fails U (.stop (some error) d v) := by
  refine ⟨error, d.token, v, ?_⟩
  have hreturns := returns_stop U (some error) d v
  rwa [decodeError, if_neg (by simpa using h)] at hreturns

theorem Fails.imp {l l' : Lexed n} (h : Fails U l)
    (himp : ∀ {err token v}, Returns U l err token v → Returns U l' err token v) : Fails U l' := by
  obtain ⟨err, token, v, hreturns⟩ := h
  exact ⟨err, token, v, himp hreturns⟩

theorem Fails.of_call {state : StateFn} {d : Decoder n} (h : Fails U (call U state d v)) :
    Fails U (.next state d v) :=
  h.imp returns_next_iff.mpr

section Classification

theorem endsLine_cases (r : Runes) :
    ∃ line tail text, r = line ++ tail ∧ '\n' ∉ line ∧ EndsLine tail text ∧
      text.length ≤ r.length := by
  rcases delim_cases '\n' r with ⟨line, text, heq, hline, hlength⟩ | hmem
  · exact ⟨line, '\n' :: text, text, heq, hline, .newline text, hlength.le⟩
  · exact ⟨r, [], [], r.append_nil.symm, hmem, .endOfInput, Nat.zero_le _⟩

theorem value_cases (after : Runes) :
    (∃ spelling text, Value after spelling text ∧ text.length ≤ after.length) ∨
      ∀ (fields : TypeInfo n) (keyword : Runes) (v : Values n),
        Fails U (.next .lexValue ⟨after, fields, keyword, []⟩ v) := by
  induction after with
  | nil => exact .inl ⟨_, [], .empty .endOfInput, Nat.le_refl _⟩
  | cons ch after ih =>
      by_cases hspace : unicodeIsSpace ch = true
      · by_cases hnewline : ch = '\n'
        · subst hnewline
          exact .inl ⟨_, after, .empty (.newline after), Nat.le_succ _⟩
        · rcases ih with ⟨spelling, text, hvalue, hlength⟩ | hfails
          · have hblank := Value.blank hspace hnewline hvalue
            exact .inl ⟨spelling, text, hblank, hlength.trans (Nat.le_succ _)⟩
          · exact .inr fun fields keyword v => (hfails fields keyword v).imp fun h =>
              h.of_call_eq (lexValue_blank hspace hnewline _ _)
      by_cases hsingle : ch = singleQuote
      · subst hsingle
        rcases delim_cases singleQuote after with ⟨body, text, rfl, hbody, hlength⟩ | hclosed
        · exact .inl ⟨_, text, .quoted text hbody, hlength.le.trans (Nat.le_succ _)⟩
        · refine .inr fun fields keyword v => Fails.of_call (Fails.of_call ?_)
          simp only [call, lexSingleQuoteString, readBytes_of_notMem hclosed]
          exact fails_stop (by simp) _ _
      by_cases hdouble : ch = doubleQuote
      · subst hdouble
        rcases delim_cases doubleQuote after with ⟨body, text, rfl, hbody, hlength⟩ | hclosed
        · exact .inl ⟨_, text, .dquoted text hbody, hlength.le.trans (Nat.le_succ _)⟩
        · refine .inr fun fields keyword v => Fails.of_call (Fails.of_call ?_)
          simp only [call, lexDoubleQuoteString, readBytes_of_notMem hclosed]
          exact fails_stop (by simp) _ _
      · obtain ⟨more, tail, text, rfl, hmore, hend, hlength⟩ := endsLine_cases after
        have hvalue := Value.raw (by simpa using hspace) hsingle hdouble hmore hend
        exact .inl ⟨_, text, hvalue, hlength.trans (Nat.le_succ _)⟩

theorem delimiter_cases (r : Runes) :
    (∃ gap after, r = gap ++ '=' :: after ∧ ∀ ch ∈ gap, unicodeIsSpace ch = true) ∨
      ∀ (fields : TypeInfo n) (keyword : Runes) (v : Values n),
        Fails U (.next .lexDelimiter ⟨r, fields, keyword, []⟩ v) := by
  induction r with
  | nil => exact .inr fun fields keyword v => Fails.of_call (fails_stop (by simp) _ _)
  | cons ch r ih =>
      by_cases hspace : unicodeIsSpace ch = true
      · rcases ih with ⟨gap, after, rfl, hgap⟩ | hfails
        · exact .inl ⟨ch :: gap, after, rfl, List.forall_mem_cons.mpr ⟨hspace, hgap⟩⟩
        · exact .inr fun fields keyword v => (hfails fields keyword v).imp fun h =>
            h.of_call_eq (if_pos hspace)
      by_cases hdelim : ch = '='
      · subst hdelim
        exact .inl ⟨[], r, rfl, by simp⟩
      · refine .inr fun fields keyword v => Fails.of_call ?_
        rw [call, lexDelimiter, lexDelimiterLoop, if_neg hspace, if_neg hdelim]
        exact fails_stop (by simp) _ _

theorem keyword_cases (r : Runes) :
    (∀ ch ∈ r, IsKeywordRune U ch) ∨
      (∃ more gap after, r = more ++ (gap ++ '=' :: after) ∧ (∀ ch ∈ more, IsKeywordRune U ch) ∧
        ∀ ch ∈ gap, unicodeIsSpace ch = true) ∨
      ∀ (fields : TypeInfo n) (token : Runes) (v : Values n),
        Fails U (.next .lexKeyword ⟨r, fields, [], token⟩ v) := by
  induction r with
  | nil => exact .inl (by simp)
  | cons ch r ih =>
      by_cases hrune : IsKeywordRune U ch
      · rcases ih with hall | ⟨more, gap, after, rfl, hmore, hgap⟩ | hfails
        · exact .inl (List.forall_mem_cons.mpr ⟨hrune, hall⟩)
        · exact .inr (.inl ⟨ch :: more, gap, after, rfl,
            List.forall_mem_cons.mpr ⟨hrune, hmore⟩, hgap⟩)
        · exact .inr (.inr fun fields token v => (hfails fields (token ++ [ch]) v).imp fun h =>
            h.of_call_eq (if_pos (isAlnum_or_dot_iff.mpr hrune)))
      have halnum := isAlnum_or_dot_iff.not.mpr hrune
      by_cases hspace : unicodeIsSpace ch = true
      · rcases delimiter_cases (n := n) (U := U) r with ⟨gap, after, rfl, hgap⟩ | hfails
        · exact .inr (.inl ⟨[], ch :: gap, after, rfl, by simp,
            List.forall_mem_cons.mpr ⟨hspace, hgap⟩⟩)
        · refine .inr (.inr fun fields token v => Fails.of_call ?_)
          rw [call, lexKeyword_space hspace]
          exact hfails fields token v
      by_cases hdelim : ch = '='
      · subst hdelim
        exact .inr (.inl ⟨[], [], r, rfl, by simp, by simp⟩)
      · refine .inr (.inr fun fields token v => Fails.of_call ?_)
        rw [call, lexKeyword, lexKeywordLoop, if_neg halnum, if_neg hspace, if_neg hdelim]
        exact fails_stop (by simp) _ _

/-- Every text is a configuration, perhaps but for a keyword at its end, or an error. -/
theorem items_or_fails (U : UnicodeTables) (n : ℕ) (text : Runes) :
    (∃ rest settings, (rest = [] ∨ IsKeyword U rest) ∧ Items U text rest settings) ∨
      ∀ (fields : TypeInfo n) (v : Values n), Fails U (initial fields v text) := by
  induction hlength : text.length using Nat.strong_induction_on generalizing text with
  | h length ih =>
      subst hlength
      cases text with
      | nil => exact .inl ⟨[], [], .inl rfl, .nil []⟩
      | cons ch r =>
          by_cases hspace : unicodeIsSpace ch = true
          · rcases ih r.length (Nat.lt_succ_self _) r rfl with ⟨rest, settings, hrest, h⟩ | hfails
            · exact .inl ⟨rest, settings, hrest, .space hspace h⟩
            · exact .inr fun fields v => (hfails fields v).imp (returns_space hspace)
          by_cases hmark : ch = '#' ∨ ch = ';'
          · obtain ⟨line, tail, text, rfl, hline, hend, hle⟩ := endsLine_cases r
            rcases ih text.length (Nat.lt_succ_of_le hle) text rfl with
              ⟨rest, settings, hrest, h⟩ | hfails
            · exact .inl ⟨rest, settings, hrest, .comment hmark hline hend h⟩
            · exact .inr fun fields v => (hfails fields v).imp (returns_comment hmark hline hend)
          by_cases hletter : U.isLetter ch = true
          · rcases keyword_cases (n := n) (U := U) r with
              hall | ⟨more, gap, after, rfl, hmore, hgap⟩ | hfails
            · exact .inl ⟨ch :: r, [], .inr (.intro hletter hall), .nil _⟩
            · have hkeyword : IsKeyword U (ch :: more) := .intro hletter hmore
              rcases value_cases (n := n) (U := U) after with
                ⟨spelling, text, hvalue, hle⟩ | hfails
              · have hlt : text.length < (ch :: (more ++ (gap ++ '=' :: after))).length := by
                  simp only [List.length_cons, List.length_append]
                  omega
                rcases ih text.length hlt text rfl with ⟨rest, settings, hrest, h⟩ | hfails
                · exact .inl ⟨rest, _, hrest, .setting hkeyword hgap hvalue h⟩
                · exact .inr fun fields v => (hfails fields _).imp fun h =>
                    returns_keyword hkeyword hgap (returns_value hvalue h)
              · exact .inr fun fields v =>
                  (hfails fields _ v).imp (returns_keyword hkeyword hgap)
            · refine .inr fun fields v => Fails.of_call ?_
              rw [call, lexInitial_letter hletter]
              exact hfails fields [ch] v
          · refine .inr fun fields v => Fails.of_call ?_
            rw [call, lexInitial, lexInitialLoop, if_neg hspace, if_neg (by simpa using hmark),
              if_neg hletter]
            exact fails_stop (by simp) _ _

end Classification

/-! ### When the decoder keeps to the format -/

theorem Ini.returns {text : Runes} {settings : List Setting} (h : Ini U text settings)
    (fields : TypeInfo n) (v : Values n) :
    Returns U (initial fields v text) none [] (store fields settings v) :=
  Items.returns h (returns_initial_nil U fields _)

theorem EndsInKeyword.returns {text : Runes} (h : EndsInKeyword U text) (fields : TypeInfo n)
    (v : Values n) : ∃ keyword v', keyword ≠ [] ∧
      Returns U (initial fields v text) none keyword v' := by
  obtain ⟨keyword, settings, hkeyword, hitems⟩ := h
  refine ⟨keyword, _, ?_, hitems.returns (hkeyword.returns fields _)⟩
  cases hkeyword
  simp

theorem EndsInKeyword.not_ini {text : Runes} (h : EndsInKeyword U text)
    (settings : List Setting) : ¬ Ini U text settings := by
  intro hini
  obtain ⟨keyword, v', hne, hreturns⟩ := h.returns (fun _ => none) Fin.elim0
  exact hne (hreturns.unique (hini.returns _ _)).2.1

variable {configFields : List StructField}

theorem decode_accepts_iff (U : UnicodeTables) (configFields : List StructField)
    (v : Values configFields.length) (text : Runes) :
    (∃ v', decode U configFields v text = some (none, v')) ↔
      (∃ settings, Ini U text settings) ∨ EndsInKeyword U text := by
  constructor
  · rintro ⟨v', hdecode⟩
    obtain ⟨token, hreturns⟩ := decode_eq_some_iff.mp hdecode
    rcases items_or_fails U configFields.length text with ⟨rest, settings, hrest, hitems⟩ | hfails
    · rcases hrest with rfl | hkeyword
      · exact .inl ⟨settings, hitems⟩
      · exact .inr ⟨rest, settings, hkeyword, hitems⟩
    · obtain ⟨err, token', v'', herr⟩ := hfails (getTypeInfo configFields) v
      cases (hreturns.unique herr).1
  · rintro (⟨settings, hini⟩ | hends)
    · exact ⟨_, decode_eq_some_iff.mpr ⟨_, hini.returns _ v⟩⟩
    · obtain ⟨keyword, v', -, hreturns⟩ := hends.returns (getTypeInfo configFields) v
      exact ⟨v', decode_eq_some_iff.mpr ⟨keyword, hreturns⟩⟩

/-- The field of every keyword holds the last value that it is given, and is as before if
it is given none. -/
def Holds (configFields : List StructField) (settings : List Setting)
    (v v' : Values configFields.length) : Prop :=
  ∀ keyword idx, getTypeInfo configFields keyword = some idx →
    v' idx = ((lastSpelling keyword settings).map Spelling.value).getD (v idx)

/-- `Decode` accepts this text exactly if it is a configuration, and then the fields hold
its values. -/
structure Conforms (U : UnicodeTables) (configFields : List StructField)
    (v : Values configFields.length) (text : Runes) : Prop where
  accepts : (∃ v', decode U configFields v text = some (none, v')) ↔
    ∃ settings, Ini U text settings
  values : ∀ settings v', Ini U text settings → decode U configFields v text = some (none, v') →
    Holds configFields settings v v'

/-- The value of a field is the last one as it is spelled, not as a comment. -/
theorem holds_store_iff {settings : List Setting}
    (hstored : ∀ setting ∈ settings,
      (setting.2.stored = setting.2.value ↔ ¬ setting.2.StartsWithComment))
    (v : Values configFields.length) :
    Holds configFields settings v (store (getTypeInfo configFields) settings v) ↔
      ∀ keyword idx spelling, getTypeInfo configFields keyword = some idx →
        lastSpelling keyword settings = some spelling → ¬ spelling.StartsWithComment := by
  constructor
  · intro hholds keyword idx spelling hidx hlast
    have heq := hholds keyword idx hidx
    rw [store_eq (separate_getTypeInfo configFields) hidx, hlast] at heq
    exact (hstored _ (mem_of_lastSpelling hlast)).mp heq
  · intro hplain keyword idx hidx
    rw [store_eq (separate_getTypeInfo configFields) hidx]
    cases hlast : lastSpelling keyword settings with
    | none => rfl
    | some spelling =>
        exact (hstored _ (mem_of_lastSpelling hlast)).mpr (hplain keyword idx spelling hidx hlast)

/-- `Decode` keeps to the format on a text exactly if it does not end in a keyword, and the
last value of no keyword that has a field begins with a comment. -/
theorem decode_conforms_iff (U : UnicodeTables) (configFields : List StructField)
    (v : Values configFields.length) (text : Runes) :
    Conforms U configFields v text ↔ ¬ EndsInKeyword U text ∧
      ∀ settings, Ini U text settings → ∀ keyword idx spelling,
        getTypeInfo configFields keyword = some idx →
        lastSpelling keyword settings = some spelling → ¬ spelling.StartsWithComment := by
  constructor
  · intro hconforms
    refine ⟨fun hends => ?_, fun settings hini => ?_⟩
    · have haccepts := (decode_accepts_iff U configFields v text).mpr (.inr hends)
      obtain ⟨settings, hini⟩ := hconforms.accepts.mp haccepts
      exact hends.not_ini settings hini
    · apply (holds_store_iff hini.stored_eq_value_iff v).mp
      exact hconforms.values settings _ hini (decode_eq_some_iff.mpr ⟨[], hini.returns _ v⟩)
  · rintro ⟨hends, hplain⟩
    refine ⟨(decode_accepts_iff U configFields v text).trans (or_iff_left hends), ?_⟩
    intro settings v' hini hdecode
    obtain ⟨token, hreturns⟩ := decode_eq_some_iff.mp hdecode
    obtain ⟨-, -, rfl⟩ := hreturns.unique (hini.returns _ v)
    exact (holds_store_iff hini.stored_eq_value_iff v).mpr (hplain settings hini)

/-! ### Two texts that are not decoded by the format -/

/-- The tables cut down to the letters and digits of ASCII. -/
def asciiTables : UnicodeTables where
  isLetter := Char.isAlpha
  isNumber := Char.isDigit
  apart := by
    have hspaces : ∀ code ∈ whiteSpace,
        (Char.ofNat code).isAlpha = false ∧ (Char.ofNat code).isDigit = false :=
      List.all_iff_forall_prop.mp (by decide)
    have hmarks : ∀ ch ∈ ['#', ';', '='], ch.isAlpha = false ∧ ch.isDigit = false :=
      List.all_iff_forall_prop.mp (by decide)
    rintro ch (hspace | hmark)
    · have hcode := hspaces ch.toNat (by simpa [unicodeIsSpace] using hspace)
      rwa [Char.ofNat_toNat] at hcode
    · exact hmarks ch hmark

/-- `S string` -/
def structS : List StructField := [⟨['S'], [], []⟩]

/-- A keyword alone is no configuration but accepted, and a comment is stored. -/
theorem not_conforms_keyword_comment :
    ¬ Conforms asciiTables structS (fun _ => []) ['S'] ∧
      ¬ Conforms asciiTables structS (fun _ => []) ['S', '=', '#', 'x'] := by
  have hkeyword : IsKeyword asciiTables ['S'] := .intro (by decide) (by simp)
  constructor
  · intro hconforms
    obtain ⟨settings, hini⟩ := hconforms.accepts.mp ⟨fun _ => [], rfl⟩
    exact EndsInKeyword.not_ini ⟨['S'], [], hkeyword, .nil _⟩ settings hini
  · intro hconforms
    have hvalue : Value ('#' :: (['x'] ++ [])) (.raw ['#', 'x']) [] :=
      .raw (by decide) (by decide) (by decide) (by decide) .endOfInput
    have hini : Ini asciiTables (['S'] ++ ([] ++ '=' :: ['#', 'x']))
        [(['S'], .raw ['#', 'x'])] := .setting hkeyword (by simp) hvalue (.nil [])
    have hholds := hconforms.values _ _ hini rfl
    exact absurd (hholds ['S'] ⟨0, by decide⟩ rfl) (by decide)

end AxiomDaemon.Daemon.ConfigDecoder

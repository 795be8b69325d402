import AxiomDaemon.Daemon.ConfigDecoder

/-!
The format of the configuration files, after the grammar that `Decode` documents:

    INI     = ((KEYWORD WS* '=' WS* VALUE) / COMMENT / WS)*
    KEYWORD = ALPHA (ALPHA / NUMERIC / '_' / '.')*
    VALUE   = QUOTED / DQUOTED / RAW
    QUOTED  = '\'' .* '\''
    DQUOTED = '"' .* '"'
    RAW     = .* EOL
    COMMENT = ('#' / ';') .* EOL

The text of a quoted value goes up to the first closing quote, the one of a raw value or a
comment up to the end of its line, which may be the end of the input. As the choices are
ordered, a value that begins with a quote is a quoted one. The white space in front of a
value stays on the line of the `=`: what is left of a blank line is the empty raw value.
-/

namespace AxiomDaemon.Daemon.ConfigDecoder

/-! ### The grammar -/

/-- `EOL`, and the text behind it. -/
inductive EndsLine : Runes → Runes → Prop
  | newline (text : Runes) : EndsLine ('\n' :: text) text
  | endOfInput : EndsLine [] []

def IsKeywordRune (U : UnicodeTables) (ch : Char) : Prop :=
  U.isLetter ch = true ∨ U.isNumber ch = true ∨ ch = '_' ∨ ch = '.'

/-- `KEYWORD` -/
inductive IsKeyword (U : UnicodeTables) : Runes → Prop
  | intro {first : Char} {more : Runes} (hfirst : U.isLetter first = true)
      (hmore : ∀ ch ∈ more, IsKeywordRune U ch) : IsKeyword U (first :: more)

/-- The spellings of a value, without their quotes and line ends. -/
inductive Spelling
  | quoted (body : Runes)
  | dquoted (body : Runes)
  | raw (line : Runes)

/-- The value that is spelled: escapes are replaced in double quotes, and a raw value is
without its trailing comment and blanks. -/
def Spelling.value : Spelling → Runes
  | .quoted body => body
  | .dquoted body => unescape body
  | .raw line => trimRight (stripTrailingComment line)

/-- `WS* VALUE`, and the text behind it. -/
inductive Value : Runes → Spelling → Runes → Prop
  | blank {ch : Char} {after text : Runes} {spelling : Spelling}
      (hspace : unicodeIsSpace ch = true) (hline : ch ≠ '\n') (h : Value after spelling text) :
      Value (ch :: after) spelling text
  | quoted {body : Runes} (text : Runes) (hbody : singleQuote ∉ body) :
      Value (singleQuote :: (body ++ singleQuote :: text)) (.quoted body) text
  | dquoted {body : Runes} (text : Runes) (hbody : doubleQuote ∉ body) :
      Value (doubleQuote :: (body ++ doubleQuote :: text)) (.dquoted body) text
  | empty {tail text : Runes} (hend : EndsLine tail text) : Value tail (.raw []) text
  | raw {first : Char} {more tail text : Runes} (hspace : unicodeIsSpace first = false)
      (hsingle : first ≠ singleQuote) (hdouble : first ≠ doubleQuote) (hline : '\n' ∉ more)
      (hend : EndsLine tail text) : Value (first :: (more ++ tail)) (.raw (first :: more)) text

/-- A keyword and its value. -/
abbrev Setting : Type := Runes × Spelling

/-- `INI`, the settings in it, and the text behind it. -/
inductive Items (U : UnicodeTables) : Runes → Runes → List Setting → Prop
  | nil (rest : Runes) : Items U rest rest []
  | space {ch : Char} {text rest : Runes} {settings : List Setting}
      (hspace : unicodeIsSpace ch = true) (h : Items U text rest settings) :
      Items U (ch :: text) rest settings
  | comment {mark : Char} {line tail text rest : Runes} {settings : List Setting}
      (hmark : mark = '#' ∨ mark = ';') (hline : '\n' ∉ line) (hend : EndsLine tail text)
      (h : Items U text rest settings) : Items U (mark :: (line ++ tail)) rest settings
  | setting {keyword gap after text rest : Runes} {spelling : Spelling}
      {settings : List Setting} (hkeyword : IsKeyword U keyword)
      (hgap : ∀ ch ∈ gap, unicodeIsSpace ch = true) (hvalue : Value after spelling text)
      (h : Items U text rest settings) :
      Items U (keyword ++ (gap ++ '=' :: after)) rest ((keyword, spelling) :: settings)

/-- The text is a configuration with these settings. -/
def Ini (U : UnicodeTables) (text : Runes) (settings : List Setting) : Prop :=
  Items U text [] settings

/-- The text is a configuration but for a keyword at its very end. -/
def EndsInKeyword (U : UnicodeTables) (text : Runes) : Prop :=
  ∃ keyword settings, IsKeyword U keyword ∧ Items U text keyword settings

/-- The last spelling of a keyword's value, if it is given one. -/
def lastSpelling (keyword : Runes) (settings : List Setting) : Option Spelling :=
  (settings.filter (·.1 = keyword)).getLast?.map (·.2)

/-- A raw value that is all comment. -/
def Spelling.StartsWithComment : Spelling → Prop
  | .raw (first :: _) => first = '#' ∨ first = ';'
  | _ => False

/-! ### The value that the decoder stores -/

/-- The first rune of a raw value is in the token before the rest of the line is read. -/
def Spelling.stored : Spelling → Runes
  | .raw (first :: more) => first :: trimRight (stripTrailingComment more)
  | spelling => spelling.value

theorem trimRight_cons {first : Char} (hfirst : unicodeIsSpace first = false) (more : Runes) :
    trimRight (first :: more) = first :: trimRight more := by
  induction more using List.reverseRecOn with
  | nil => simp [trimRight, hfirst]
  | append_singleton more last ih =>
      rw [trimRight, trimRight, ← List.cons_append]
      by_cases hlast : unicodeIsSpace last = true
      · rw [List.rdropWhile_concat_pos _ _ _ hlast, List.rdropWhile_concat_pos _ _ _ hlast]
        exact ih
      · rw [List.rdropWhile_concat_neg _ _ _ hlast, List.rdropWhile_concat_neg _ _ _ hlast]
        rfl

/-- The line end that is read with a raw value goes with its blanks or its comment. -/
theorem trimRight_stripTrailingComment_newline (line : Runes) :
    trimRight (stripTrailingComment (line ++ ['\n'])) = trimRight (stripTrailingComment line) := by
  rw [stripTrailingComment, stripTrailingComment, List.takeWhile_append]
  split_ifs with hall
  · have hline := (List.takeWhile_prefix fun ch => ch ≠ '#' && ch ≠ ';').eq_of_length hall
    rw [hline]
    exact List.rdropWhile_concat_pos _ _ _ (by decide)
  · rfl

theorem value_raw_cons {first : Char} (hspace : unicodeIsSpace first = false)
    (hfirst : ¬ (first = '#' ∨ first = ';')) (more : Runes) :
    (Spelling.raw (first :: more)).value = (Spelling.raw (first :: more)).stored := by
  obtain ⟨hhash, hsemicolon⟩ := not_or.mp hfirst
  have hstrip : stripTrailingComment (first :: more) = first :: stripTrailingComment more := by
    simp [stripTrailingComment, hhash, hsemicolon]
  rw [Spelling.value, hstrip, trimRight_cons hspace]
  rfl

theorem value_raw_comment {first : Char} (hfirst : first = '#' ∨ first = ';') (more : Runes) :
    (Spelling.raw (first :: more)).value = [] := by
  have hstrip : stripTrailingComment (first :: more) = [] := by
    rcases hfirst with rfl | rfl <;> rfl
  rw [Spelling.value, hstrip]
  rfl

theorem Value.stored_eq_value_iff {after text : Runes} {spelling : Spelling}
    (h : Value after spelling text) :
    spelling.stored = spelling.value ↔ ¬ spelling.StartsWithComment := by
  induction h with
  | blank hspace hline h ih => exact ih
  | quoted text hbody => simp [Spelling.stored, Spelling.StartsWithComment]
  | dquoted text hbody => simp [Spelling.stored, Spelling.StartsWithComment]
  | empty hend => simp [Spelling.stored, Spelling.StartsWithComment]
  | raw hspace hsingle hdouble hline hend =>
      rename_i first more tail text
      by_cases hfirst : first = '#' ∨ first = ';'
      · rw [value_raw_comment hfirst]
        simp [Spelling.stored, Spelling.StartsWithComment, hfirst]
      · rw [value_raw_cons hspace hfirst]
        simp [Spelling.StartsWithComment, hfirst]

theorem Items.stored_eq_value_iff {U : UnicodeTables} {text rest : Runes}
    {settings : List Setting} (h : Items U text rest settings) :
    ∀ setting ∈ settings,
      (setting.2.stored = setting.2.value ↔ ¬ setting.2.StartsWithComment) := by
  induction h with
  | nil rest => simp
  | space hspace h ih => exact ih
  | comment hmark hline hend h ih => exact ih
  | setting hkeyword hgap hvalue h ih =>
      intro setting hmem
      rcases List.mem_cons.mp hmem with rfl | hmem
      · exact hvalue.stored_eq_value_iff
      · exact ih setting hmem

/-! ### The last value of a keyword -/

section Last

variable {keyword : Runes} {spelling : Spelling} {settings : List Setting} {n : ℕ}

theorem lastSpelling_cons (keyword keyword' : Runes) (spelling : Spelling)
    (settings : List Setting) : lastSpelling keyword ((keyword', spelling) :: settings) =
      (lastSpelling keyword settings).or (if keyword' = keyword then some spelling else none) := by
  rw [lastSpelling, lastSpelling, List.filter_cons]
  by_cases hkeyword : keyword' = keyword
  · simp only [hkeyword, decide_true, if_true, List.getLast?_cons]
    cases (settings.filter (·.1 = keyword)).getLast? <;> rfl
  · simp [hkeyword]

theorem mem_of_lastSpelling (h : lastSpelling keyword settings = some spelling) :
    (keyword, spelling) ∈ settings := by
  obtain ⟨⟨keyword', spelling'⟩, hlast, rfl⟩ := Option.map_eq_some_iff.mp h
  obtain ⟨hmem, hkeyword⟩ := List.mem_filter.mp (List.mem_of_getLast? hlast)
  obtain rfl : keyword' = keyword := by simpa using hkeyword
  exact hmem

/-- The fields after these settings have been stored one after the other. -/
def store (fields : TypeInfo n) (settings : List Setting) (v : Values n) : Values n :=
  settings.foldl (fun v setting => unmarshalValue fields setting.1 setting.2.stored v) v

/-- No two keywords have one field. -/
def Separate (fields : TypeInfo n) : Prop :=
  ∀ keyword keyword' idx, fields keyword = some idx → fields keyword' = some idx →
    keyword = keyword'

theorem store_eq {fields : TypeInfo n} (hsep : Separate fields) {idx : Fin n}
    (hidx : fields keyword = some idx) (settings : List Setting) (v : Values n) :
    store fields settings v idx =
      ((lastSpelling keyword settings).map Spelling.stored).getD (v idx) := by
  induction settings generalizing v with
  | nil => rfl
  | cons setting settings ih =>
      obtain ⟨keyword', spelling⟩ := setting
      have hhead : unmarshalValue fields keyword' spelling.stored v idx =
          if keyword' = keyword then spelling.stored else v idx := by
        rw [unmarshalValue]
        by_cases hkeyword : keyword' = keyword
        · simp [hkeyword, hidx]
        · rw [if_neg hkeyword]
          cases hidx' : fields keyword' with
          | none => rfl
          | some idx' =>
              refine Function.update_of_ne (fun heq => hkeyword ?_) _ _
              exact hsep keyword' keyword idx (heq ▸ hidx') hidx
      rw [store, List.foldl_cons]
      refine (ih _).trans ?_
      rw [hhead, lastSpelling_cons]
      cases lastSpelling keyword settings with
      | some last => rfl
      | none => by_cases hkeyword : keyword' = keyword <;> simp [hkeyword]

end Last

/-- Every keyword is the one of its field. -/
def NamedBy (fields : List StructField) (info : TypeInfo fields.length) : Prop :=
  ∀ keyword idx, info keyword = some idx → (fields.get idx).keyword = keyword

theorem NamedBy.addField {fields : List StructField} {info : TypeInfo fields.length}
    (h : NamedBy fields info) (i : Fin fields.length) :
    NamedBy fields (addField fields info i) := by
  intro keyword idx hidx
  rw [ConfigDecoder.addField] at hidx
  split_ifs at hidx with hskip
  · exact h keyword idx hidx
  · by_cases hkeyword : keyword = (fields.get i).keyword
    · subst hkeyword
      rw [Function.update_self, Option.some.injEq] at hidx
      rw [hidx]
    · rw [Function.update_of_ne hkeyword] at hidx
      exact h keyword idx hidx

theorem namedBy_getTypeInfo (fields : List StructField) : NamedBy fields (getTypeInfo fields) := by
  rw [getTypeInfo]
  refine List.foldlRecOn _ _ (motive := NamedBy fields) ?_ fun info h i _ => h.addField i
  intro keyword idx hidx
  cases hidx

theorem separate_getTypeInfo (fields : List StructField) : Separate (getTypeInfo fields) := by
  intro keyword keyword' idx h h'
  rw [← namedBy_getTypeInfo fields keyword idx h, ← namedBy_getTypeInfo fields keyword' idx h']

end AxiomDaemon.Daemon.ConfigDecoder

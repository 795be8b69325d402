import AxiomDaemon.Lib.Json

/-!
Media types as HTTP writes them: a type and a subtype, which are tokens, and parameters,
the values of which are tokens or quoted strings.
-/

namespace AxiomDaemon.Lib

open Json

namespace MediaType

/-! ### The grammar -/

/-- `tchar`. -/
def isTchar (b : UInt8) : Bool :=
  isDigit b || (0x41 ≤ b.toNat && b.toNat ≤ 0x5a) || (0x61 ≤ b.toNat && b.toNat ≤ 0x7a) ||
    b ∈ ascii "!#$%&'*+-.^_`|~"

/-- `SP / HTAB`. -/
def isBlank (b : UInt8) : Bool := b = 0x20 || b = 0x09

/-- `VCHAR / obs-text`. -/
def isVisible (b : UInt8) : Bool := 0x21 ≤ b.toNat && b.toNat ≠ 0x7f

structure IsToken (token : Bytes) : Prop where
  ne_nil : token ≠ []
  all : ∀ b ∈ token, isTchar b = true

/-- What may stand between the quotes of a `quoted-string`. -/
inductive Quoted : Bytes → Prop
  | nil : Quoted []
  | qdtext {b : UInt8} {text : Bytes} (hb : isBlank b = true ∨ isVisible b = true)
      (hquote : b ≠ quote) (hbackslash : b ≠ Json.backslash) (h : Quoted text) : Quoted (b :: text)
  | quotedPair {b : UInt8} {text : Bytes} (hb : isBlank b = true ∨ isVisible b = true)
      (h : Quoted text) : Quoted (Json.backslash :: b :: text)

/-- `token "=" ( token / quoted-string )`. -/
inductive Parameter : Bytes → Prop
  | token {name value : Bytes} (hname : IsToken name) (hvalue : IsToken value) :
      Parameter (name ++ 0x3d :: value)
  | quoted {name text : Bytes} (hname : IsToken name) (htext : Quoted text) :
      Parameter (name ++ 0x3d :: quote :: (text ++ [quote]))

/-- `*( OWS ";" OWS parameter )`. -/
inductive Parameters : Bytes → Prop
  | nil : Parameters []
  | cons {before behind parameter rest : Bytes} (hbefore : ∀ b ∈ before, isBlank b = true)
      (hbehind : ∀ b ∈ behind, isBlank b = true) (hparameter : Parameter parameter)
      (hrest : Parameters rest) : Parameters (before ++ 0x3b :: (behind ++ (parameter ++ rest)))

/-- `token "/" token`. -/
def IsMediaType (mediaType : Bytes) : Prop :=
  ∃ type subtype, mediaType = type ++ slash :: subtype ∧ IsToken type ∧ IsToken subtype

/-- `content-type`, with the media type that it has in front of its parameters. -/
def ContentType (value mediaType : Bytes) : Prop :=
  IsMediaType mediaType ∧ ∃ parameters, Parameters parameters ∧ value = mediaType ++ parameters

/-! ### Which bytes there are -/

theorem isTchar_ne {b : UInt8} (h : isTchar b = true) : b ≠ 0 ∧ b ≠ colon ∧ b ≠ slash := by
  refine ⟨?_, ?_, ?_⟩
  · rintro rfl
    exact absurd h (by decide)
  · rintro rfl
    exact absurd h (by decide)
  · rintro rfl
    exact absurd h (by decide)

theorem IsToken.zero_notMem {token : Bytes} (h : IsToken token) : 0 ∉ token := fun hmem =>
  (isTchar_ne (h.all 0 hmem)).1 rfl

theorem zero_notMem_of_isBlank {blanks : Bytes} (h : ∀ b ∈ blanks, isBlank b = true) :
    0 ∉ blanks := fun hmem => absurd (h 0 hmem) (by decide)

theorem ne_zero_of_text {b : UInt8} (h : isBlank b = true ∨ isVisible b = true) : 0 ≠ b := by
  rintro rfl
  exact absurd h (by decide)

theorem Quoted.zero_notMem {text : Bytes} (h : Quoted text) : 0 ∉ text := by
  induction h with
  | nil => exact List.not_mem_nil
  | qdtext hb hquote hbackslash h ih =>
      exact List.not_mem_cons_of_ne_of_not_mem (ne_zero_of_text hb) ih
  | quotedPair hb h ih =>
      exact List.not_mem_cons_of_ne_of_not_mem (by decide)
        (List.not_mem_cons_of_ne_of_not_mem (ne_zero_of_text hb) ih)

theorem Parameter.zero_notMem {parameter : Bytes} (h : Parameter parameter) : 0 ∉ parameter := by
  cases h with
  | token hname hvalue =>
      have hname := hname.zero_notMem
      have hvalue := hvalue.zero_notMem
      simp [hname, hvalue]
  | quoted hname htext =>
      have hname := hname.zero_notMem
      have htext := htext.zero_notMem
      have hquote : 0 ≠ quote := by decide
      simp [hname, htext, hquote]

theorem Parameters.zero_notMem {parameters : Bytes} (h : Parameters parameters) :
    0 ∉ parameters := by
  induction h with
  | nil => exact List.not_mem_nil
  | cons hbefore hbehind hparameter hrest ih =>
      have hbefore := zero_notMem_of_isBlank hbefore
      have hbehind := zero_notMem_of_isBlank hbehind
      have hparameter := hparameter.zero_notMem
      simp [hbefore, hbehind, hparameter, ih]

theorem IsMediaType.zero_notMem {mediaType : Bytes} (h : IsMediaType mediaType) :
    0 ∉ mediaType := by
  obtain ⟨type, subtype, rfl, htype, hsubtype⟩ := h
  have htype := htype.zero_notMem
  have hsubtype := hsubtype.zero_notMem
  have hslash : 0 ≠ slash := by decide
  simp [htype, hsubtype, hslash]

theorem ContentType.zero_notMem {value mediaType : Bytes} (h : ContentType value mediaType) :
    0 ∉ value := by
  obtain ⟨hmedia, parameters, hparameters, rfl⟩ := h
  simp [hmedia.zero_notMem, hparameters.zero_notMem]

/-! ### Where a media type ends -/

/-- What may follow a media type. -/
def EndsMediaType (rest : Bytes) : Prop := ∀ b ∈ rest.head?, isBlank b = true ∨ b = 0x3b

/-- A text that starts with a media type, all of it. -/
def StartsWithMediaType (text mediaType : Bytes) : Prop :=
  IsMediaType mediaType ∧ ∃ rest, EndsMediaType rest ∧ text = mediaType ++ rest

theorem Parameters.endsMediaType {parameters : Bytes} (h : Parameters parameters) :
    EndsMediaType parameters := by
  cases h with
  | nil => exact fun b hb => by cases hb
  | @cons before behind parameter rest hbefore hbehind hparameter hrest =>
      intro b hb
      cases before with
      | nil => exact Or.inr (Option.some.inj hb).symm
      | cons c before =>
          obtain rfl := Option.some.inj hb
          exact Or.inl (hbefore c (by simp))

theorem EndsMediaType.head_not_tchar {rest : Bytes} (h : EndsMediaType rest) :
    ∀ b ∈ rest.head?, isTchar b = false := by
  intro b hb
  rcases h b hb with hblank | rfl
  · simp only [isBlank, Bool.or_eq_true, decide_eq_true_eq] at hblank
    rcases hblank with rfl | rfl
    · decide
    · decide
  · decide

/-- A token is all that is taken of one, where no more of it follows. -/
theorem takeWhile_token {token rest : Bytes} (h : ∀ b ∈ token, isTchar b = true)
    (hrest : ∀ b ∈ rest.head?, isTchar b = false) : (token ++ rest).takeWhile isTchar = token := by
  rw [List.takeWhile_append_of_pos h]
  cases rest with
  | nil => rw [List.takeWhile_nil, List.append_nil]
  | cons b rest =>
      rw [List.takeWhile_cons_of_neg (ne_true_of_eq_false (hrest b rfl)), List.append_nil]

end MediaType

end AxiomDaemon.Lib

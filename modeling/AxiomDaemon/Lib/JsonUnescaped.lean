import AxiomDaemon.Lib.JsonText

/-!
Text that was put between quotes without being escaped. What a JSON parser
reads of it is the text itself exactly if every byte is plain: an escape
stands for less than it takes, a quote ends the string, and a backslash at
the end lets the string go on beyond it.
-/

namespace AxiomDaemon.Lib.Json

/-- How what is read of an unescaped text in quotes, followed by a comma and
another quote, compares to the text: it is the text if that is plain, it is
shorter, or it ends with the comma where the text ends with a backslash. -/
def Compares (s : Bytes) (read units : List ℕ) : Prop :=
  (s.all isPlain = true ∧ read = units) ∨ read.length < units.length ∨
    (read.getLast? = some comma.toNat ∧ units.getLast? = some backslash.toNat)

theorem Compares.plain {s p : Bytes} {read units w : List ℕ} (h : Compares s read units)
    (hp : p.all isPlain = true) : Compares (p ++ s) (w ++ read) (w ++ units) := by
  rcases h with ⟨hs, rfl⟩ | hlt | ⟨hread, hunits⟩
  · exact Or.inl ⟨by rw [List.all_append, hp, hs]; rfl, rfl⟩
  · exact Or.inr (Or.inl (by simpa using hlt))
  · refine Or.inr (Or.inr ⟨?_, ?_⟩)
    · rw [List.getLast?_append, hread, Option.some_or]
    · rw [List.getLast?_append, hunits, Option.some_or]

theorem Compares.escape {s p : Bytes} {read units w : List ℕ} {u : ℕ}
    (h : Compares s read units) (hw : 1 < w.length) :
    Compares (p ++ s) (u :: read) (w ++ units) := by
  rcases h with ⟨-, rfl⟩ | hlt | ⟨hread, hunits⟩
  · exact Or.inr (Or.inl (by simp only [List.length_cons, List.length_append]; omega))
  · exact Or.inr (Or.inl (by simp only [List.length_cons, List.length_append]; omega))
  · refine Or.inr (Or.inr ⟨?_, ?_⟩)
    · rw [← List.singleton_append, List.getLast?_append, hread, Option.some_or]
    · rw [List.getLast?_append, hunits, Option.some_or]

theorem isPlain_of_not_ascii {b : UInt8} (h : 0x80 ≤ b.toNat) : isPlain b = true := by
  have hquote : b ≠ quote := by
    rintro rfl
    exact absurd h (by decide)
  have hbackslash : b ≠ backslash := by
    rintro rfl
    exact absurd h (by decide)
  simp only [isPlain, hquote, hbackslash, ne_eq, not_false_eq_true, decide_true, Bool.true_and,
    Bool.not_eq_true', decide_eq_false_iff_not]
  omega

theorem isPlain_of_isContinuation {b : UInt8} (h : isContinuation b = true) : isPlain b = true := by
  have hrange : 0x80 ≤ b.toNat ∧ b.toNat < 0xc0 := by simpa [isContinuation] using h
  exact isPlain_of_not_ascii hrange.1

theorem hexValue_ascii {b : UInt8} {n : ℕ} (h : hexValue b = some n) : b.toNat < 0x80 := by
  simp only [hexValue] at h
  split_ifs at h with h₁ h₂ h₃
  · have hrange : 0x30 ≤ b.toNat ∧ b.toNat ≤ 0x39 := by simpa [isDigit] using h₁
    omega
  · omega
  · omega

theorem hexValue_quote : hexValue quote = none := by decide

theorem hexUnit_ascii {w x y z : UInt8} {u : ℕ} (h : hexUnit w x y z = some u) :
    w.toNat < 0x80 ∧ x.toNat < 0x80 ∧ y.toNat < 0x80 ∧ z.toNat < 0x80 := by
  simp only [hexUnit] at h
  split at h
  · next hw hx hy hz =>
      exact ⟨hexValue_ascii hw, hexValue_ascii hx, hexValue_ascii hy, hexValue_ascii hz⟩
  · simp at h

theorem unescape_ascii {e : UInt8} {u : ℕ} (h : unescape e = some u) : e.toNat < 0x80 := by
  simp only [unescape] at h
  split_ifs at h with h₁ h₂ h₃ h₄ h₅ h₆
  · rcases h₁ with rfl | rfl | rfl <;> decide
  all_goals subst e; decide

theorem scanString_plain_append {p : Bytes} (hp : p.all isPlain = true) (bs : Bytes) :
    scanString (p ++ bs) = (scanString bs).map fun q => (p.map .lit ++ q.1, q.2) := by
  induction p with
  | nil => simp
  | cons b p ih =>
      rw [List.all_cons, Bool.and_eq_true] at hp
      rw [List.cons_append, scanString_isPlain hp.1, ih hp.2, Option.map_map]
      rfl

/-- One step of the comparison: a character that is scanned as it is. -/
theorem compares_plain_step {p s ext rest : Bytes} {items : List Item} {read w : List ℕ}
    {units : List ℕ} (hp : p.all isPlain = true)
    (hw : ∀ items, unitsOf (p.map .lit ++ items) = (unitsOf items).map (w ++ ·))
    (h : scanString ((p ++ s) ++ ext) = some (items, rest)) (hread : unitsOf items = some read)
    (ih : ∀ {items read}, scanString (s ++ ext) = some (items, rest) →
      unitsOf items = some read → Compares s read units) :
    Compares (p ++ s) read (w ++ units) := by
  rw [List.append_assoc, scanString_plain_append hp] at h
  obtain ⟨items', hrec, rfl⟩ := of_map_eq_some h
  rw [hw] at hread
  obtain ⟨read', hread', rfl⟩ := Option.map_eq_some_iff.mp hread
  exact (ih hrec hread').plain hp

theorem compares_backslash_step {bs ext rest : Bytes} {items : List Item} {read units : List ℕ}
    (h : scanString (backslash :: bs ++ quote :: comma :: quote :: ext) = some (items, rest))
    (hread : unitsOf items = some read) (hunits : utf16 bs = some units)
    (ih : ∀ {s items read units}, s.length ≤ bs.length →
      scanString (s ++ quote :: comma :: quote :: ext) = some (items, rest) →
      unitsOf items = some read → utf16 s = some units → Compares s read units) :
    Compares (backslash :: bs) read (backslash.toNat :: units) := by
  cases bs with
  | nil =>
      -- the closing quote is taken for an escaped one, and the next quote closes
      have hscan : scanString (backslash :: [] ++ quote :: comma :: quote :: ext) =
          some ([.unit quote.toNat, .lit comma], ext) := by
        rw [List.singleton_append, scanString_escape (show unescape quote = some quote.toNat by decide),
          scanString_isPlain (by decide), scanString_quote]
        rfl
      rw [hscan] at h
      obtain ⟨rfl, -⟩ : _ = items ∧ _ := by simpa using h
      obtain rfl : [] = units := by simpa [utf16_nil] using hunits
      obtain rfl : [quote.toNat, comma.toNat] = read := by
        have hcomma : comma.toNat < 0x80 := by decide
        simpa [unitsOf, hcomma] using hread
      exact Or.inr (Or.inr ⟨rfl, rfl⟩)
  | cons e cs =>
      rw [List.cons_append, List.cons_append, scanString.eq_def] at h
      simp only [show backslash ≠ quote by decide, if_false, if_true] at h
      split at h
      · next he =>
          subst he
          -- four hexadecimal digits do not reach beyond the text
          obtain ⟨w, x, y, z, ds, rfl⟩ : ∃ w x y z ds, cs = w :: x :: y :: z :: ds := by
            rcases cs with _ | ⟨w, _ | ⟨x, _ | ⟨y, _ | ⟨z, ds⟩⟩⟩⟩
            · cases ext with
              | nil => simp at h
              | cons d ds => simp [hexUnit, hexValue_quote] at h
            · simp [hexUnit, hexValue_quote] at h
            · simp [hexUnit, hexValue_quote] at h
            · simp [hexUnit, hexValue_quote] at h
            · exact ⟨w, x, y, z, ds, rfl⟩
          simp only [List.cons_append] at h
          cases hu : hexUnit w x y z with
          | none => simp [hu] at h
          | some u =>
              simp only [hu] at h
              obtain ⟨items', hrec, rfl⟩ := of_map_eq_some h
              obtain ⟨hw, hx, hy, hz⟩ := hexUnit_ascii hu
              rw [utf16_cons_ascii (by decide), utf16_cons_ascii hw, utf16_cons_ascii hx,
                utf16_cons_ascii hy, utf16_cons_ascii hz] at hunits
              cases hds : utf16 ds with
              | none => simp [hds] at hunits
              | some vs =>
                  rw [hds] at hunits
                  obtain rfl := Option.some.inj hunits
                  obtain ⟨read', hread', rfl⟩ := Option.map_eq_some_iff.mp hread
                  have hcompares := ih (by simp only [List.length_cons]; omega) hrec hread' hds
                  exact hcompares.escape
                    (p := [backslash, 0x75, w, x, y, z])
                    (w := [backslash.toNat, UInt8.toNat 0x75, w.toNat, x.toNat, y.toNat, z.toNat])
                    (by simp)
      · cases hu : unescape e with
        | none => simp [hu] at h
        | some u =>
            simp only [hu] at h
            obtain ⟨items', hrec, rfl⟩ := of_map_eq_some h
            rw [utf16_cons_ascii (unescape_ascii hu)] at hunits
            obtain ⟨vs, hvs, rfl⟩ := Option.map_eq_some_iff.mp hunits
            obtain ⟨read', hread', rfl⟩ := Option.map_eq_some_iff.mp hread
            have hcompares := ih (by simp) hrec hread' hvs
            exact hcompares.escape (p := [backslash, e]) (w := [backslash.toNat, e.toNat]) (by simp)

theorem compares_of_scanString {s ext rest : Bytes} {items : List Item} {read units : List ℕ}
    (h : scanString (s ++ quote :: comma :: quote :: ext) = some (items, rest))
    (hread : unitsOf items = some read) (hunits : utf16 s = some units) :
    Compares s read units := by
  induction hlen : s.length using Nat.strong_induction_on generalizing s items read units with
  | _ n ih =>
      subst hlen
      cases s with
      | nil =>
          rw [List.nil_append, scanString_quote] at h
          obtain ⟨rfl, -⟩ : [] = items ∧ _ := by simpa using h
          obtain rfl : [] = read := by simpa [unitsOf] using hread
          obtain rfl : [] = units := by simpa [utf16_nil] using hunits
          exact Or.inl ⟨rfl, rfl⟩
      | cons b bs =>
          rcases utf16_cons_eq_some hunits with ⟨hb, vs, hvs, rfl⟩ |
            ⟨b₁, cs, c, vs, rfl, hc, hvs, rfl⟩ | ⟨b₁, b₂, cs, c, vs, rfl, hc, hvs, rfl⟩ |
            ⟨b₁, b₂, b₃, cs, c, vs, rfl, hc, hvs, rfl⟩
          · by_cases hplain : isPlain b = true
            · exact compares_plain_step (p := [b]) (w := [b.toNat]) (by simp [hplain])
                (fun items => unitsOf_ascii hb items) h hread
                fun hrec hread' => ih _ (by simp) hrec hread' hvs rfl
            · by_cases hbackslash : b = backslash
              · subst b
                exact compares_backslash_step h hread hvs fun hle hrec hread' hunits' =>
                  ih _ (by simp only [List.length_cons]; omega) hrec hread' hunits' rfl
              · by_cases hquote : b = quote
                · subst b
                  rw [List.cons_append, scanString_quote] at h
                  obtain ⟨rfl, -⟩ : [] = items ∧ _ := by simpa using h
                  obtain rfl : [] = read := by simpa [unitsOf] using hread
                  exact Or.inr (Or.inl (by simp))
                · have hcontrol : b.toNat < 0x20 := by
                    simpa [isPlain, hquote, hbackslash] using hplain
                  rw [List.cons_append, scanString.eq_def] at h
                  simp [hquote, hbackslash, hcontrol] at h
          · obtain ⟨⟨hlo, -, hcont, -⟩, -⟩ := codePoint2_eq_some hc
            exact compares_plain_step (p := [b, b₁]) (w := [c])
              (by simp [isPlain_of_not_ascii (show 0x80 ≤ b.toNat by omega),
                isPlain_of_isContinuation hcont])
              (fun items => unitsOf_two hc items) h hread
              fun hrec hread' => ih _ (by simp only [List.length_cons]; omega) hrec hread' hvs rfl
          · obtain ⟨⟨hlo, -, hcont₁, hcont₂, -⟩, -⟩ := codePoint3_eq_some hc
            exact compares_plain_step (p := [b, b₁, b₂]) (w := [c])
              (by simp [isPlain_of_not_ascii (show 0x80 ≤ b.toNat by omega),
                isPlain_of_isContinuation hcont₁, isPlain_of_isContinuation hcont₂])
              (fun items => unitsOf_three hc items) h hread
              fun hrec hread' => ih _ (by simp only [List.length_cons]; omega) hrec hread' hvs rfl
          · obtain ⟨⟨hlo, -, hcont₁, hcont₂, hcont₃, -⟩, -⟩ := codePoint4_eq_some hc
            exact compares_plain_step (p := [b, b₁, b₂, b₃]) (w := surrogates c)
              (by simp [isPlain_of_not_ascii (show 0x80 ≤ b.toNat by omega),
                isPlain_of_isContinuation hcont₁, isPlain_of_isContinuation hcont₂,
                isPlain_of_isContinuation hcont₃])
              (fun items => unitsOf_four hc items) h hread
              fun hrec hread' => ih _ (by simp only [List.length_cons]; omega) hrec hread' hvs rfl

theorem all_isPlain_of_parseString {s ext rest : Bytes} {units : List ℕ}
    (h : parseString (s ++ quote :: comma :: quote :: ext) = some (units, rest))
    (hunits : utf16 s = some units) : s.all isPlain = true := by
  rw [parseString] at h
  cases hscan : scanString (s ++ quote :: comma :: quote :: ext) with
  | none => simp [hscan] at h
  | some p =>
      obtain ⟨items, rest'⟩ := p
      simp only [hscan] at h
      obtain ⟨read, hread, heq⟩ := Option.map_eq_some_iff.mp h
      obtain ⟨rfl, -⟩ := Prod.mk.inj heq
      rcases compares_of_scanString hscan hread hunits with ⟨hplain, -⟩ | hlt | ⟨hcomma, hback⟩
      · exact hplain
      · exact absurd hlt (lt_irrefl _)
      · rw [hcomma] at hback
        exact absurd hback (by decide)

/-! ### The members of an object, one after the other -/

theorem parseMembers_of_parse {text : Bytes} (hquote : ∃ bs, text = quote :: bs)
    {ms : List (List ℕ × Json)} {vs : List Json}
    (h : parse (lbracket :: lbrace :: text) = some (.arr (.obj ms :: vs))) :
    ∃ rest, parseMembers text.length text = some (ms, rest) := by
  obtain ⟨bs, rfl⟩ := hquote
  have hskip : skipWs (lbrace :: quote :: bs) = lbrace :: quote :: bs :=
    skipWs_of_not_ws (by decide) _
  rw [parse, skipWs_of_not_ws (by decide), List.length_cons, parseValue_lbracket hskip (by decide),
    List.length_cons, parseElements, hskip, parseValue, if_neg (by decide), if_neg (by decide),
    if_pos rfl, skipWs_of_not_ws (by decide)] at h
  simp only at h
  rw [if_neg (by decide)] at h
  cases hms : parseMembers (quote :: bs).length (quote :: bs) with
  | none =>
      rw [hms] at h
      simp at h
  | some p =>
      obtain ⟨ms', rest⟩ := p
      rw [hms] at h
      simp only [Option.map_some] at h
      refine ⟨rest, ?_⟩
      cases hrest : skipWs rest with
      | nil => simp [hrest] at h
      | cons c cs =>
          simp only [hrest] at h
          split at h
          · simp at h
          · next v r heq =>
              -- whatever follows the object, it comes first
              obtain ⟨rfl, -⟩ : v = .arr (.obj ms :: vs) ∧ _ := by
                split at h
                · next hr => exact ⟨by simpa using h, hr⟩
                · simp at h
              obtain ⟨elements, helements, hv⟩ := of_map_eq_some heq
              obtain rfl := Json.arr.inj hv
              split at helements
              · obtain ⟨vs', -, hcons⟩ := of_map_eq_some helements
                obtain ⟨hobj, -⟩ := List.cons.inj hcons
                rw [Json.obj.inj hobj]
              · split at helements
                · obtain ⟨⟨hobj, -⟩, -⟩ : (ms' = ms ∧ _) ∧ _ := by simpa using helements
                  rw [hobj]
                · simp at helements

theorem parseMembers_step {text : Bytes} {m : List ℕ × Json} (h : Member text m) {fuel : ℕ}
    {bs : Bytes} (hne : bs ≠ []) (hfuel : (text ++ comma :: bs).length ≤ fuel)
    {ms : List (List ℕ × Json)} {rest : Bytes}
    (hms : parseMembers fuel (text ++ comma :: bs) = some (ms, rest)) :
    ∃ fuel' ms', bs.length ≤ fuel' ∧ parseMembers fuel' bs = some (ms', rest) ∧ ms = m :: ms' := by
  have hpos : 0 < bs.length := List.length_pos_iff.mpr hne
  rw [List.length_append, List.length_cons] at hfuel
  obtain _ | fuel := fuel
  · omega
  obtain ⟨hkey, hval⟩ := h
  simp only [List.length_cons, List.length_append] at hfuel
  obtain ⟨r, hv, hr⟩ := hval fuel comma bs (by omega) (by decide) (by decide)
  rw [parseMembers, List.cons_append, skipWs_of_not_ws (by decide)] at hms
  simp only [List.append_assoc, List.cons_append, if_true, hkey.parseKey_eq, hv, hr] at hms
  obtain ⟨ms', hrec, rfl⟩ := of_map_eq_some hms
  exact ⟨fuel, ms', by omega, hrec, rfl⟩

theorem parseMembers_value {body : Bytes} {key : List ℕ} (h : Spells body key) {fuel : ℕ}
    {bs : Bytes} {ms : List (List ℕ × Json)} {rest : Bytes}
    (hms : parseMembers fuel (quote :: (body ++ quote :: colon :: bs)) = some (ms, rest)) :
    ∃ fuel' v r ms', parseValue fuel' (skipWs bs) = some (v, r) ∧ ms = (key, v) :: ms' := by
  obtain _ | fuel := fuel
  · simp [parseMembers] at hms
  rw [parseMembers, skipWs_of_not_ws (by decide)] at hms
  simp only [if_true, h.parseKey_eq] at hms
  cases hv : parseValue fuel (skipWs bs) with
  | none => simp [hv] at hms
  | some p =>
      obtain ⟨v, r⟩ := p
      simp only [hv] at hms
      cases hr : skipWs r with
      | nil => simp [hr] at hms
      | cons c cs =>
          simp only [hr] at hms
          split at hms
          · obtain ⟨ms', -, rfl⟩ := of_map_eq_some hms
            exact ⟨fuel, v, r, ms', hv, rfl⟩
          · split at hms
            · obtain ⟨rfl, -⟩ : [(key, v)] = ms ∧ _ := by simpa using hms
              exact ⟨fuel, v, r, [], hv, rfl⟩
            · simp at hms

end AxiomDaemon.Lib.Json

import AxiomDaemon.Axiom.Rules
import AxiomDaemon.Lib.Block
import AxiomDaemon.Lib.CText
import AxiomDaemon.Lib.JsonText

/-!
The replacement of a rule as a template: characters and references, each of which
stands for a text. `nr_rule_replace_string` writes these texts one behind the other
to memory, and keeps the rest of the room it was given in a counter that
wraps around.
-/

namespace AxiomDaemon.Axiom

open AxiomDaemon.Lib CText

/-! ### Templates -/

inductive TemplatePiece
  | byte (ch : UInt8)
  | reference (num : ℤ)
  deriving DecidableEq

/-- The template from a state of `nr_rule_replace_string` on. -/
def templatePieces : (num : Option ℤ) → Bytes → List TemplatePiece
  | _, [] => []
  | none, ch :: repl =>
      if ch = backslash then templatePieces (some 0) repl
      else .byte ch :: templatePieces none repl
  | some num, ch :: repl =>
      if (repl.head?.map isDigit).getD false then templatePieces (some (nextNum num ch)) repl
      else .reference (nextNum num ch) :: templatePieces none repl

def TemplatePiece.text (count : ℕ) (sub : ℕ → Bytes) : TemplatePiece → Bytes
  | .byte ch => [ch]
  | .reference num => referenceText count sub num

/-- How long the text of a piece is. -/
def TemplatePiece.width (ss : Match) : TemplatePiece → ℕ
  | .byte _ => 1
  | .reference num =>
      if num > substringsCount ss then 1 + (decimal num.toNat).length
      else if num < 0 then 0
      else ss.width num.toNat

def templateWidth (ss : Match) (repl : Bytes) : ℕ :=
  ((templatePieces none repl).map (TemplatePiece.width ss)).sum

/-- How long the text is that takes the place of a match. -/
def NrRule.width {Re : Type} (rule : NrRule Re) (ss : Match) : ℕ :=
  if rule.hasCaptures then templateWidth ss rule.replacement else rule.replacement.length

theorem nrRuleReplaceString_eq_flatMap (count : ℕ) (sub : ℕ → Bytes) (num : Option ℤ)
    (repl : Bytes) :
    nrRuleReplaceString count sub num repl =
      (templatePieces num repl).flatMap (TemplatePiece.text count sub) := by
  induction repl generalizing num with
  | nil => cases num <;> rfl
  | cons ch repl ih =>
      cases num with
      | none =>
          rw [nrRuleReplaceString, templatePieces]
          split_ifs
          · exact ih _
          · rw [ih, List.flatMap_cons]
            rfl
      | some num =>
          rw [nrRuleReplaceString, templatePieces]
          split_ifs
          · exact ih _
          · rw [ih, List.flatMap_cons]
            rfl

section

variable {subject : Bytes} {ss : Match}

theorem TemplatePiece.length_text (hsub : ∀ n, (ss.text subject n).length = ss.width n)
    (piece : TemplatePiece) :
    (piece.text (substringsCount ss) (ss.text subject)).length = piece.width ss := by
  cases piece with
  | byte ch => rfl
  | reference num =>
      rw [TemplatePiece.text, referenceText, TemplatePiece.width]
      split_ifs
      · rw [List.length_cons, Nat.add_comm]
      · rfl
      · exact hsub _

theorem length_nrRuleReplaceString (hsub : ∀ n, (ss.text subject n).length = ss.width n)
    (repl : Bytes) :
    (nrRuleReplaceString (substringsCount ss) (ss.text subject) none repl).length =
      templateWidth ss repl := by
  rw [nrRuleReplaceString_eq_flatMap, List.length_flatMap, templateWidth]
  simp only [TemplatePiece.length_text hsub]

theorem NrRule.length_text {Re : Type} (hsub : ∀ n, (ss.text subject n).length = ss.width n)
    (rule : NrRule Re) : (rule.text subject ss).length = rule.width ss := by
  rw [NrRule.text, NrRule.width]
  split_ifs
  · exact length_nrRuleReplaceString hsub rule.replacement
  · rfl

end

/-! ### Strings of C -/

theorem slice_sublist (s : Bytes) (i j : ℕ) : (slice s i j).Sublist s :=
  (List.take_sublist _ _).trans (List.drop_sublist _ _)

theorem zero_notMem_matchText {subject : Bytes} (hsubject : 0 ∉ subject) (ss : Match) (n : ℕ) :
    0 ∉ ss.text subject n := by
  rw [Match.text]
  cases ss.group n with
  | none => exact List.not_mem_nil
  | some p => exact fun h => hsubject ((slice_sublist subject p.1 p.2).mem h)

theorem zero_notMem_decimal (n : ℕ) : 0 ∉ decimal n := fun h =>
  absurd (Json.isDigit_of_mem_decimal h) (by decide)

theorem byte_mem_of_mem_templatePieces {ch : UInt8} {num : Option ℤ} {repl : Bytes}
    (h : .byte ch ∈ templatePieces num repl) : ch ∈ repl := by
  induction repl generalizing num with
  | nil => cases num <;> cases h
  | cons c repl ih =>
      cases num with
      | none =>
          rw [templatePieces] at h
          split_ifs at h
          · exact List.mem_cons_of_mem _ (ih h)
          · rcases List.mem_cons.mp h with heq | hmem
            · cases heq
              exact List.mem_cons_self
            · exact List.mem_cons_of_mem _ (ih hmem)
      | some num =>
          rw [templatePieces] at h
          split_ifs at h
          · exact List.mem_cons_of_mem _ (ih h)
          · rcases List.mem_cons.mp h with heq | hmem
            · cases heq
            · exact List.mem_cons_of_mem _ (ih hmem)

theorem zero_notMem_referenceText {count : ℕ} {sub : ℕ → Bytes} (hsub : ∀ n, 0 ∉ sub n) (num : ℤ) :
    0 ∉ referenceText count sub num := by
  rw [referenceText]
  split_ifs
  · intro h
    rcases List.mem_cons.mp h with hback | hdigit
    · exact absurd hback (by decide)
    · exact zero_notMem_decimal _ hdigit
  · exact List.not_mem_nil
  · exact hsub _

/-- The text that takes the place of a match is a string if the replacement and the
subject are. -/
theorem NrRule.zero_notMem_text {Re : Type} {rule : NrRule Re} {subject : Bytes}
    (hrepl : 0 ∉ rule.replacement) (hsubject : 0 ∉ subject) (ss : Match) :
    0 ∉ rule.text subject ss := by
  rw [NrRule.text]
  split_ifs
  · rw [nrRuleReplaceString_eq_flatMap]
    intro h
    obtain ⟨piece, hpiece, hmem⟩ := List.mem_flatMap.mp h
    cases piece with
    | byte ch =>
        obtain rfl := List.mem_singleton.mp hmem
        exact hrepl (byte_mem_of_mem_templatePieces hpiece)
    | reference num =>
        exact zero_notMem_referenceText (zero_notMem_matchText hsubject ss) num hmem
  · exact hrepl

/-! ### The destination -/

namespace Buffered

/-- `a - b` as `size_t`. -/
def sizeSub (a b : ℕ) : ℕ := if b ≤ a then a - b else a + 2 ^ 64 - b

/-- Where `nr_rule_replace_string` writes: the memory it was given, how far `dest` has
moved in it, and `dest_len`. -/
structure Dest where
  cells : Bytes
  pos : ℕ
  destLen : ℕ

/-- `*dest = ch`. -/
def Dest.poke (dest : Dest) (ch : UInt8) : Checked Dest :=
  if dest.pos < dest.cells.length then .ok { dest with cells := dest.cells.set dest.pos ch }
  else .error .write

/-- `len = snprintf (dest, dest_len, "%s", text); dest += len; dest_len -= len`. -/
def Dest.snprintf (dest : Dest) (text : Bytes) : Checked Dest :=
  -- nothing is written if there is no room, not even a zero
  let written := if dest.destLen = 0 then [] else text.take (dest.destLen - 1) ++ [0]
  if written = [] ∨ dest.pos + written.length ≤ dest.cells.length then
    .ok { cells := blockCopy dest.cells dest.pos written
          pos := dest.pos + text.length
          destLen := sizeSub dest.destLen text.length }
  else .error .write

/-- `nr_regex_substrings_get`. -/
def nrRegexSubstringsGet (subject : Bytes) (ss : Match) (index : ℤ) : Option Bytes :=
  if index < 0 ∨ index > substringsCount ss then none else some (ss.text subject index.toNat)

/-- The loop of `nr_rule_replace_string`. -/
def replaceStringLoop (subject : Bytes) (ss : Match) : (num : Option ℤ) → Bytes → Dest → Checked Dest
  | _, [], dest => dest.poke 0
  | none, ch :: repl, dest =>
      if ch = backslash then replaceStringLoop subject ss (some 0) repl dest
      else if 0 < dest.destLen then do
        let dest ← dest.poke ch
        replaceStringLoop subject ss none repl
          { dest with pos := dest.pos + 1, destLen := dest.destLen - 1 }
      else replaceStringLoop subject ss none repl dest
  | some num, ch :: repl, dest =>
      if (repl.head?.map isDigit).getD false then
        replaceStringLoop subject ss (some (nextNum num ch)) repl dest
      else if nextNum num ch > substringsCount ss then do
        let dest ← dest.poke 0
        let dest ← dest.snprintf (backslash :: decimal (nextNum num ch).toNat)
        replaceStringLoop subject ss none repl dest
      else
        match nrRegexSubstringsGet subject ss (nextNum num ch) with
        | some sub => do
            let dest ← dest.snprintf sub
            replaceStringLoop subject ss none repl dest
        | none => replaceStringLoop subject ss none repl dest

/-- `nr_rule_replace_string` with `dest` and `dest_len` of some memory. -/
def nrRuleReplaceString (repl cells subject : Bytes) (ss : Match) : Checked Bytes :=
  if cells.length = 0 then .ok cells
  else
    Dest.cells <$> replaceStringLoop subject ss none repl
      { cells, pos := 0, destLen := cells.length }

/-! ### One piece after the other -/

/-- What `nr_rule_replace_string` does for a piece of its template. -/
def Dest.put (subject : Bytes) (ss : Match) (dest : Dest) : TemplatePiece → Checked Dest
  | .byte ch =>
      if 0 < dest.destLen then
        (fun dest => { dest with pos := dest.pos + 1, destLen := dest.destLen - 1 }) <$>
          dest.poke ch
      else .ok dest
  | .reference num =>
      if num > substringsCount ss then do
        let dest ← dest.poke 0
        dest.snprintf (backslash :: decimal num.toNat)
      else
        match nrRegexSubstringsGet subject ss num with
        | some sub => dest.snprintf sub
        | none => .ok dest

/-- The characters of the replacement come to the pieces of the template, and the zero
behind them. -/
theorem replaceStringLoop_eq_foldlM (subject : Bytes) (ss : Match) (num : Option ℤ) (repl : Bytes)
    (dest : Dest) :
    replaceStringLoop subject ss num repl dest =
      (templatePieces num repl).foldlM (Dest.put subject ss) dest >>= (·.poke 0) := by
  induction repl generalizing num dest with
  | nil => cases num <;> rfl
  | cons ch repl ih =>
      cases num with
      | none =>
          rw [replaceStringLoop, templatePieces]
          split_ifs with hback hroom
          · exact ih _ _
          · rw [List.foldlM_cons, Dest.put, if_pos hroom]
            cases dest.poke ch with
            | error e => rfl
            | ok dest' => exact ih _ _
          · rw [List.foldlM_cons, Dest.put, if_neg hroom]
            exact ih _ _
      | some num =>
          rw [replaceStringLoop, templatePieces]
          split_ifs with hnext hlarge
          · exact ih _ _
          · rw [List.foldlM_cons, Dest.put, if_pos hlarge]
            cases dest.poke 0 with
            | error e => rfl
            | ok dest₁ =>
                simp only [ok_bind]
                cases dest₁.snprintf (backslash :: decimal (nextNum num ch).toNat) with
                | error e => rfl
                | ok dest₂ => exact ih _ _
          · rw [List.foldlM_cons, Dest.put, if_neg hlarge]
            cases nrRegexSubstringsGet subject ss (nextNum num ch) with
            | none => exact ih _ _
            | some sub =>
                simp only
                cases dest.snprintf sub with
                | error e => rfl
                | ok dest' => exact ih _ _

/-- So far `out` is written, and the counter is right. -/
structure Dest.Holds (dest : Dest) (out : Bytes) : Prop where
  pos_eq : dest.pos = out.length
  room : dest.pos + dest.destLen = dest.cells.length
  take_eq : dest.cells.take dest.pos = out

/-- `dest` has come to the end of its memory. -/
def Dest.Lost (dest : Dest) : Prop := dest.cells.length ≤ dest.pos

section

variable {subject : Bytes} {ss : Match} {dest : Dest} {out text : Bytes}

theorem Dest.poke_of_lt {ch : UInt8} (h : dest.pos < dest.cells.length) :
    dest.poke ch = .ok { dest with cells := dest.cells.set dest.pos ch } := if_pos h

theorem Dest.Lost.poke (h : dest.Lost) (ch : UInt8) : dest.poke ch = .error .write :=
  if_neg (Nat.not_lt.mpr h)

theorem Dest.Lost.snprintf (h : dest.Lost) (text : Bytes) :
    Yields (· = .write) Dest.Lost (dest.snprintf text) := by
  rw [Dest.snprintf]
  by_cases hroom : dest.destLen = 0
  · simp only [hroom, if_true, true_or]
    rw [Dest.Lost] at h
    simp only [Yields, Dest.Lost, blockCopy, List.length_append, List.length_take, List.length_drop,
      List.length_nil]
    omega
  · rw [Dest.Lost] at h
    simp only [hroom, if_false]
    rw [if_neg]
    · rfl
    · rintro (hnil | hfit)
      · exact absurd hnil (by simp)
      · simp only [List.length_append, List.length_singleton] at hfit
        omega

theorem Dest.Lost.put (h : dest.Lost) (subject : Bytes) (ss : Match) (piece : TemplatePiece) :
    Yields (· = .write) Dest.Lost (dest.put subject ss piece) := by
  cases piece with
  | byte ch =>
      rw [Dest.put]
      split_ifs
      · rw [h.poke]
        rfl
      · exact h
  | reference num =>
      rw [Dest.put]
      split_ifs
      · rw [h.poke]
        rfl
      · cases nrRegexSubstringsGet subject ss num with
        | none => exact h
        | some sub => exact h.snprintf sub

/-- What comes behind the end of the memory cannot be written, and the last zero is. -/
theorem Dest.Lost.fault (h : dest.Lost) (pieces : List TemplatePiece) :
    pieces.foldlM (Dest.put subject ss) dest >>= (·.poke 0) = .error .write := by
  induction pieces generalizing dest with
  | nil => exact h.poke 0
  | cons piece pieces ih =>
      rw [List.foldlM_cons]
      have hput := h.put subject ss piece
      cases hdest : dest.put subject ss piece with
      | error e =>
          rw [hdest] at hput
          exact congrArg _ hput
      | ok dest' =>
          rw [hdest] at hput
          exact ih hput

theorem sizeSub_of_le {a b : ℕ} (h : b ≤ a) : sizeSub a b = a - b := if_pos h

theorem Dest.Holds.snprintf (h : dest.Holds out)
    (hfits : out.length + text.length < dest.cells.length) :
    ∃ dest', dest.snprintf text = .ok dest' ∧ dest'.Holds (out ++ text) ∧
      dest'.cells.length = dest.cells.length := by
  obtain ⟨hpos, hroom, htake⟩ := h
  have hdest : dest.destLen ≠ 0 := by omega
  have hwritten : text.take (dest.destLen - 1) ++ [0] = text ++ [0] := by
    rw [List.take_of_length_le (by omega)]
  have hlength : dest.pos + (text ++ [0]).length ≤ dest.cells.length := by
    rw [List.length_append, List.length_singleton]
    omega
  rw [Dest.snprintf]
  simp only [if_neg hdest, hwritten, if_pos (Or.inr hlength : _ ∨ _)]
  refine ⟨_, rfl, ⟨?_, ?_, ?_⟩, length_blockCopy hlength⟩
  · simp only [List.length_append, hpos]
  · simp only [length_blockCopy hlength, sizeSub_of_le (by omega : text.length ≤ dest.destLen)]
    omega
  · have hall := take_blockCopy dest.cells (text ++ [0]) dest.pos hlength
    rw [htake] at hall
    have htext := congrArg (List.take (dest.pos + text.length)) hall
    rw [List.take_take, List.length_append, Nat.min_eq_left (by omega), ← List.append_assoc,
      List.take_left' (by rw [List.length_append, hpos])] at htext
    exact htext

theorem Dest.Holds.snprintf_lost (h : dest.Holds out)
    (hlarge : dest.cells.length ≤ out.length + text.length) :
    Yields (· = .write) Dest.Lost (dest.snprintf text) := by
  obtain ⟨hpos, hroom, -⟩ := h
  by_cases hdest : dest.destLen = 0
  · have hlost : dest.Lost := by
      rw [Dest.Lost]
      omega
    exact hlost.snprintf text
  · rw [Dest.snprintf]
    have hfit : dest.pos + (text.take (dest.destLen - 1) ++ [0]).length ≤ dest.cells.length := by
      rw [List.length_append, List.length_singleton, List.length_take]
      omega
    simp only [if_neg hdest, if_pos (Or.inr hfit : _ ∨ _)]
    rw [Yields, Dest.Lost, length_blockCopy hfit, hpos]
    exact hlarge

theorem Dest.Holds.byte (h : dest.Holds out) (ch : UInt8)
    (hfits : out.length + 1 < dest.cells.length) :
    ∃ dest', dest.put subject ss (.byte ch) = .ok dest' ∧ dest'.Holds (out ++ [ch]) ∧
      dest'.cells.length = dest.cells.length := by
  obtain ⟨hpos, hroom, htake⟩ := h
  rw [Dest.put, if_pos (by omega), Dest.poke_of_lt (by omega), map_ok]
  refine ⟨_, rfl, ⟨?_, ?_, ?_⟩, List.length_set⟩
  · simp only [List.length_append, List.length_singleton, hpos]
  · simp only [List.length_set]
    omega
  · simp only
    rw [take_succ_set (by omega), htake]

theorem Dest.Holds.poke_zero (h : dest.Holds out) (hfits : out.length < dest.cells.length) :
    ∃ dest', dest.poke 0 = .ok dest' ∧ dest'.Holds out ∧ dest'.cells.length = dest.cells.length := by
  obtain ⟨hpos, hroom, htake⟩ := h
  rw [Dest.poke_of_lt (by omega)]
  refine ⟨_, rfl, ⟨hpos, ?_, ?_⟩, List.length_set⟩
  · rw [List.length_set]
    exact hroom
  · rw [take_set_of_le le_rfl]
    exact htake

/-- What a piece does as long as there is room, and once there is none. -/
theorem Dest.Holds.put (h : dest.Holds out) (subject : Bytes) (ss : Match) (piece : TemplatePiece) :
    (out.length + (piece.text (substringsCount ss) (ss.text subject)).length < dest.cells.length →
      ∃ dest', dest.put subject ss piece = .ok dest' ∧
        dest'.Holds (out ++ piece.text (substringsCount ss) (ss.text subject)) ∧
        dest'.cells.length = dest.cells.length) ∧
    (dest.cells.length ≤ out.length + (piece.text (substringsCount ss) (ss.text subject)).length →
      Yields (· = .write) Dest.Lost (dest.put subject ss piece)) := by
  by_cases hfull : dest.cells.length ≤ out.length
  · have hlost : dest.Lost := by
      rw [Dest.Lost, h.pos_eq]
      exact hfull
    exact ⟨fun hfits => by omega, fun _ => hlost.put subject ss piece⟩
  cases piece with
  | byte ch =>
      rw [TemplatePiece.text, List.length_singleton]
      refine ⟨fun hfits => h.byte ch hfits, fun hlarge => ?_⟩
      have hpos := h.pos_eq
      have hroom := h.room
      rw [Dest.put, if_pos (by omega), Dest.poke_of_lt (by omega), map_ok]
      refine show (dest.cells.set dest.pos ch).length ≤ dest.pos + 1 from ?_
      rw [List.length_set]
      omega
  | reference num =>
      rw [TemplatePiece.text, referenceText, Dest.put]
      split_ifs with hlarge hneg
      · obtain ⟨dest₁, hpoke, hholds, hlen⟩ := h.poke_zero (Nat.lt_of_not_le hfull)
        rw [hpoke, ok_bind, ← hlen]
        exact ⟨hholds.snprintf, hholds.snprintf_lost⟩
      · have hnone : nrRegexSubstringsGet subject ss num = none := if_pos (.inl hneg)
        rw [hnone, List.append_nil, List.length_nil]
        exact ⟨fun _ => ⟨dest, rfl, h, rfl⟩, fun hle => by omega⟩
      · have hsome : nrRegexSubstringsGet subject ss num = some (ss.text subject num.toNat) :=
          if_neg (by omega)
        rw [hsome]
        exact ⟨h.snprintf, h.snprintf_lost⟩

theorem Dest.Holds.putAll (h : dest.Holds out) (pieces : List TemplatePiece)
    (htext : text = pieces.flatMap (TemplatePiece.text (substringsCount ss) (ss.text subject))) :
    WritesIf (out.length + text.length < dest.cells.length)
      (fun dest' => dest'.cells.length = dest.cells.length ∧
        dest'.cells.take (out ++ text ++ [0]).length = out ++ text ++ [0])
      (pieces.foldlM (Dest.put subject ss) dest >>= (·.poke 0)) := by
  induction pieces generalizing dest out text with
  | nil =>
      subst htext
      rw [List.flatMap_nil, List.length_nil, Nat.add_zero, List.append_nil]
      constructor
      · intro hfits
        have hpos := h.pos_eq
        refine ⟨_, Dest.poke_of_lt (by omega), List.length_set, ?_⟩
        simp only [List.length_append, List.length_singleton]
        rw [← hpos, take_succ_set (by omega), h.take_eq]
      · intro hnot
        have hlost : dest.Lost := by
          rw [Dest.Lost, h.pos_eq]
          omega
        exact hlost.poke 0
  | cons piece pieces ih =>
      rw [List.flatMap_cons] at htext
      subst htext
      rw [List.foldlM_cons, List.length_append, ← Nat.add_assoc, ← List.append_assoc]
      obtain ⟨hgood, hbad⟩ := h.put subject ss piece
      by_cases hfits : out.length +
          (piece.text (substringsCount ss) (ss.text subject)).length < dest.cells.length
      · obtain ⟨dest', hput, hholds, hlen⟩ := hgood hfits
        rw [hput, ok_bind, ← hlen, ← List.length_append]
        exact ih hholds rfl
      · refine ⟨fun hall => by omega, fun _ => ?_⟩
        have hlost := hbad (Nat.not_lt.mp hfits)
        cases hput : dest.put subject ss piece with
        | error e =>
            rw [hput] at hlost
            exact congrArg _ hlost
        | ok dest' =>
            rw [hput] at hlost
            exact hlost.fault pieces

end

/-- `nr_rule_replace_string` writes outside of its memory unless there is room for the text
and a zero, and writes these if there is. -/
theorem nrRuleReplaceString_writesIf {cells : Bytes} (hcells : cells ≠ []) (repl subject : Bytes)
    (ss : Match) {text : Bytes}
    (htext : text =
      Axiom.nrRuleReplaceString (substringsCount ss) (ss.text subject) none repl) :
    WritesIf (text.length < cells.length)
      (fun cells' => cells'.length = cells.length ∧ ∃ rest, cells' = text ++ 0 :: rest)
      (nrRuleReplaceString repl cells subject ss) := by
  have hstart : Dest.Holds { cells, pos := 0, destLen := cells.length } [] :=
    ⟨rfl, Nat.zero_add _, List.take_zero⟩
  have hloop := hstart.putAll (templatePieces none repl)
    (htext.trans (nrRuleReplaceString_eq_flatMap _ _ none repl))
  rw [nrRuleReplaceString, if_neg (mt List.length_eq_zero_iff.mp hcells),
    replaceStringLoop_eq_foldlM]
  refine (hloop.map fun dest' h => ?_).congr (by simp) fun _ h => h
  obtain ⟨hlength, htake⟩ := h
  have hsplit : dest'.cells = text ++ [0] ++ dest'.cells.drop (text ++ [0]).length := by
    conv_lhs => rw [← List.take_append_drop (text ++ [0]).length dest'.cells]
    exact congrArg (· ++ _) htake
  exact ⟨hlength, _, hsplit.trans (List.append_cons _ _ _).symm⟩

end Buffered

end AxiomDaemon.Axiom

import AxiomDaemon.Lib.Collapse
import AxiomDaemon.Lib.Pattern
import AxiomDaemon.Util.StringPool
import AxiomDaemon.Util.Strings

/-!
The segment terms of a connect reply, `nr_segment_terms.c`. A rule is for the
names that begin with its first two segments; of what follows it keeps the
segments that its expression matches and replaces the others by asterisks.

The expression is built from the terms of the rule and compiled and matched by
a library: what compiles it and what finds matches are parameters. Lengths are
taken to be numbers without bound, and memory not to run out.
-/

namespace AxiomDaemon.Axiom

open AxiomDaemon.Lib AxiomDaemon.Util

/-! ### Rules -/

/-- Two segments, each with a slash behind it. -/
def TwoSegments (p : Bytes) : Prop := p.getLast? = some 0x2f ∧ p.count 0x2f = 2

/-- `nr_segment_terms_rule_t`. -/
structure NrSegmentTermsRule (Re : Type) where
  rulePrefix : Bytes
  re : Re
  twoSegments : TwoSegments rulePrefix

/-- `nr_segment_terms_t`. -/
structure NrSegmentTerms (Re : Type) where
  capacity : ℤ
  rules : List (NrSegmentTermsRule Re)

/-- The prefix with a slash at its end. -/
def withSlash (p : Bytes) : Bytes := if p.getLast? = some 0x2f then p else p ++ [0x2f]

theorem getLast?_withSlash (p : Bytes) : (withSlash p).getLast? = some 0x2f := by
  rw [withSlash]
  split_ifs with h
  · exact h
  · exact List.getLast?_concat

/-! ### Expressions -/

/-- `nr_regex_add_quoted_to_buffer`, what is added. -/
def nrRegexQuoted (str : Bytes) : Bytes :=
  str.flatMap fun b =>
    if b = 0 then ascii "\\000"
    else if b ∈ ascii ".\\+*?[^]$()\x7b\x7d=!><|:-" then [0x5c, b]
    else [b]

/-- The text of a term up to its zero, if it is a string and not empty. -/
def termText (term : NrObj) : Option Bytes :=
  match (nroGetString (some term)).map cString with
  | none | some [] => none
  | some (b :: bs) => some (b :: bs)

/-- The loop of `nr_segment_terms_rule_build_regex`; the flag says that `i` is 0. -/
def buildRegexLoop : (first : Bool) → List NrObj → Bytes
  | _, [] => []
  | first, term :: terms =>
      match termText term with
      | none => buildRegexLoop false terms
      | some text =>
          (if first then ascii "(" else ascii "|(") ++ (nrRegexQuoted text ++ ascii ")") ++
            buildRegexLoop false terms

/-- `nr_segment_terms_rule_build_regex`. -/
def nrSegmentTermsRuleBuildRegex (terms : Option NrObj) : Option Bytes :=
  match terms with
  | some (.array []) => some (ascii "$.")
  | some (.array elements) => some (buildRegexLoop true elements)
  | _ => none

section

variable {Re : Type}

/-! ### Tables -/

section Create

-- `nr_regex_create`, with the options that are used here
variable (create : Bytes → Option Re)

/-- `nr_segment_terms_rule_create`. -/
def nrSegmentTermsRuleCreate (textBefore : Option Bytes) (terms : Option NrObj) :
    Option (NrSegmentTermsRule Re) :=
  match textBefore with
  | none | some [] => none
  | some (b :: bs) =>
      let rulePrefix := withSlash (b :: bs)
      if h : nrStrCharCount rulePrefix 0x2f = 2 then
        (nrSegmentTermsRuleBuildRegex terms).bind fun regex =>
          (create regex).map fun re =>
            { rulePrefix, re, twoSegments := ⟨getLast?_withSlash (b :: bs), h⟩ }
      else none

/-- `nr_segment_terms_create`. -/
def nrSegmentTermsCreate (size : ℤ) : Option (NrSegmentTerms Re) :=
  if size ≤ 0 then none else some { capacity := size, rules := [] }

/-- `nr_segment_terms_add`, the table afterwards. If it fails the table stays as it is. -/
def nrSegmentTermsAdd (segmentTerms : NrSegmentTerms Re) (textBefore : Option Bytes)
    (terms : Option NrObj) : Option (NrSegmentTerms Re) :=
  if segmentTerms.capacity ≤ segmentTerms.rules.length then none
  else
    (nrSegmentTermsRuleCreate create textBefore terms).map fun rule =>
      { segmentTerms with rules := segmentTerms.rules ++ [rule] }

/-- `nr_segment_terms_add_from_obj`. -/
def nrSegmentTermsAddFromObj (segmentTerms : NrSegmentTerms Re) (rule : Option NrObj) :
    Option (NrSegmentTerms Re) :=
  match rule with
  | some (.hash entries) =>
      nrSegmentTermsAdd create segmentTerms (nroGetHashString (some (.hash entries)) (ascii "prefix"))
        (nroGetHashArray (some (.hash entries)) (ascii "terms"))
  | _ => none

/-- The loop of `nr_segment_terms_create_from_obj`: it gives up at a rule that is not added. -/
def addRules : NrSegmentTerms Re → List NrObj → Option (NrSegmentTerms Re)
  | segmentTerms, [] => some segmentTerms
  | segmentTerms, rule :: rules =>
      match nrSegmentTermsAddFromObj create segmentTerms (some rule) with
      | none => none
      | some segmentTerms => addRules segmentTerms rules

/-- `nr_segment_terms_create_from_obj`. -/
def nrSegmentTermsCreateFromObj (obj : Option NrObj) : Option (NrSegmentTerms Re) :=
  match obj with
  | some (.array elements) =>
      (nrSegmentTermsCreate elements.length).bind fun segmentTerms =>
        addRules create segmentTerms elements
  | _ => none

end Create

/-! ### Applying rules -/

section Apply

-- `nr_regex_match`
variable (nrRegexMatch : Re → Bytes → Bool)

/-- The loop over the segments: what is added to the buffer. -/
def segmentLoop (re : Re) : (requiresDelimiter previousReplaced : Bool) → List Bytes → Bytes
  | _, _, [] => []
  | requiresDelimiter, previousReplaced, s :: segments =>
      let delimiter := if requiresDelimiter then ascii "/" else []
      if s ≠ [] ∧ nrRegexMatch re s then delimiter ++ s ++ segmentLoop re true false segments
      else if previousReplaced then segmentLoop re true true segments
      else delimiter ++ ascii "*" ++ segmentLoop re true true segments

/-- The prefix of the rule stands at the start of the name. -/
def NrSegmentTermsRule.appliesTo (rule : NrSegmentTermsRule Re) (name : Bytes) : Bool :=
  rule.rulePrefix.length ≤ name.length &&
    nrStrnicmpEq name rule.rulePrefix rule.rulePrefix.length

/-- `nr_segment_terms_rule_apply`. -/
def nrSegmentTermsRuleApply (rule : NrSegmentTermsRule Re) (name : Bytes) : Option Bytes :=
  if name = [] then none
  else if name.length < rule.rulePrefix.length then none
  else if nrStrnicmpEq name rule.rulePrefix rule.rulePrefix.length = false then none
  else if name.drop rule.rulePrefix.length = [] then some name
  else
    let segments := nrStrsplit (name.drop rule.rulePrefix.length) (ascii "/") true
    some (name.take rule.rulePrefix.length ++ segmentLoop nrRegexMatch rule.re false false segments)

/-- `nr_segment_terms_apply`, the last rule first. -/
def nrSegmentTermsApply (segmentTerms : Option (NrSegmentTerms Re)) (name : Bytes) : Option Bytes :=
  match segmentTerms with
  | none => none
  | some segmentTerms =>
      if name = [] then none
      else
        match segmentTerms.rules.reverse.findSome? fun rule =>
          nrSegmentTermsRuleApply nrRegexMatch rule name with
        | some result => some result
        | none => some name

section Results

variable {nrRegexMatch} {rule : NrSegmentTermsRule Re} {name : Bytes}

/-- What a rule keeps: empty segments never match. -/
def NrSegmentTermsRule.keeps (nrRegexMatch : Re → Bytes → Bool) (rule : NrSegmentTermsRule Re)
    (segment : Bytes) : Bool :=
  segment ≠ [] && nrRegexMatch rule.re segment

/-- The segments behind a prefix. -/
def segmentsBehind (rulePrefix name : Bytes) : List Bytes :=
  if name.drop rulePrefix.length = [] then []
  else nrStrsplit (name.drop rulePrefix.length) (ascii "/") true

theorem segmentLoop_of_delimiter (previousReplaced : Bool) (segments : List Bytes) :
    segmentLoop nrRegexMatch rule.re true previousReplaced segments =
      (collapse (rule.keeps nrRegexMatch) (ascii "*") previousReplaced segments).flatMap fun seg =>
        0x2f :: seg := by
  induction segments generalizing previousReplaced with
  | nil => rfl
  | cons s segments ih =>
      rw [segmentLoop]
      cases hkeep : rule.keeps nrRegexMatch s with
      | true =>
          have hcond : s ≠ [] ∧ nrRegexMatch rule.re s = true := by
            simpa [NrSegmentTermsRule.keeps] using hkeep
          rw [if_pos hcond, collapse_kept hkeep, ih]
          rfl
      | false =>
          have hcond : ¬(s ≠ [] ∧ nrRegexMatch rule.re s = true) := by
            simpa [NrSegmentTermsRule.keeps] using hkeep
          rw [if_neg hcond]
          cases previousReplaced with
          | true =>
              rw [if_pos rfl, collapse_inRun hkeep, ih]
          | false =>
              rw [if_neg Bool.false_ne_true, collapse_mark hkeep, ih]
              rfl

theorem segmentLoop_eq (segments : List Bytes) :
    segmentLoop nrRegexMatch rule.re false false segments =
      joinSlash (collapse (rule.keeps nrRegexMatch) (ascii "*") false segments) := by
  cases segments with
  | nil => rfl
  | cons s segments =>
      rw [segmentLoop, segmentLoop_of_delimiter, segmentLoop_of_delimiter]
      cases hkeep : rule.keeps nrRegexMatch s with
      | true =>
          have hcond : s ≠ [] ∧ nrRegexMatch rule.re s = true := by
            simpa [NrSegmentTermsRule.keeps] using hkeep
          rw [if_pos hcond, collapse_kept hkeep, joinSlash_cons_flatMap]
          rfl
      | false =>
          have hcond : ¬(s ≠ [] ∧ nrRegexMatch rule.re s = true) := by
            simpa [NrSegmentTermsRule.keeps] using hkeep
          rw [if_neg hcond, if_neg Bool.false_ne_true, collapse_mark hkeep, joinSlash_cons_flatMap]
          rfl

theorem nrSegmentTermsRuleApply_of_appliesTo (hne : name ≠ []) (h : rule.appliesTo name = true) :
    nrSegmentTermsRuleApply nrRegexMatch rule name =
      some (name.take rule.rulePrefix.length ++
        joinSlash (collapse (rule.keeps nrRegexMatch) (ascii "*") false
          (segmentsBehind rule.rulePrefix name))) := by
  obtain ⟨hlen, hequal⟩ : rule.rulePrefix.length ≤ name.length ∧
      nrStrnicmpEq name rule.rulePrefix rule.rulePrefix.length = true := by
    simpa [NrSegmentTermsRule.appliesTo] using h
  have hequal' : ¬nrStrnicmpEq name rule.rulePrefix rule.rulePrefix.length = false := by
    simp [hequal]
  rw [nrSegmentTermsRuleApply, if_neg hne, if_neg (by omega), if_neg hequal', segmentsBehind]
  split_ifs with hrest
  · have htake : name.take rule.rulePrefix.length = name := by
      conv_rhs => rw [← List.take_append_drop rule.rulePrefix.length name, hrest]
      exact (List.append_nil _).symm
    rw [htake]
    exact congrArg some (List.append_nil name).symm
  · simp only [segmentLoop_eq]

theorem nrSegmentTermsRuleApply_of_not_appliesTo (h : rule.appliesTo name = false) :
    nrSegmentTermsRuleApply nrRegexMatch rule name = none := by
  rw [NrSegmentTermsRule.appliesTo, Bool.and_eq_false_iff, decide_eq_false_iff_not] at h
  rw [nrSegmentTermsRuleApply]
  by_cases hne : name = []
  · rw [if_pos hne]
  · rw [if_neg hne]
    rcases h with hlen | hequal
    · rw [if_pos (by omega)]
    · rw [if_pos hequal, ite_self]

/-! ### Two segments -/

theorem lowerByte_eq_slash {b : UInt8} : lowerByte b = 0x2f ↔ b = 0x2f := by
  rw [lowerByte]
  split_ifs with h
  · refine iff_of_false (fun heq => ?_) fun heq => ?_
    · have hb : b = 0x2f - 0x20 := by rw [← heq, UInt8.add_sub_cancel]
      rw [hb] at h
      exact absurd h (by decide)
    · rw [heq] at h
      exact absurd h (by decide)
  · rfl

theorem TwoSegments.of_lower {p q : Bytes} (hq : TwoSegments q)
    (h : p.map lowerByte = q.map lowerByte) : TwoSegments p := by
  have hcount : ∀ s : Bytes, (s.map lowerByte).count 0x2f = s.count 0x2f := by
    intro s
    rw [List.count_eq_countP, List.countP_map, List.count_eq_countP]
    exact List.countP_congr fun b _ => by simp [lowerByte_eq_slash]
  have hlast : ∀ s : Bytes, (s.map lowerByte).getLast? = some 0x2f ↔ s.getLast? = some 0x2f := by
    intro s
    rw [List.getLast?_map, Option.map_eq_some_iff]
    constructor
    · rintro ⟨b, hb, hlower⟩
      rw [hb, lowerByte_eq_slash.mp hlower]
    · exact fun hs => ⟨0x2f, hs, rfl⟩
  exact ⟨(hlast p).mp (h ▸ (hlast q).mpr hq.1), by rw [← hcount, h, hcount, hq.2]⟩

theorem TwoSegments.eq_of_append {p q x y : Bytes} (hp : TwoSegments p) (hq : TwoSegments q)
    (h : p ++ x = q ++ y) : p = q := by
  have hlong : ∀ {p q c : Bytes}, TwoSegments p → TwoSegments q → q = p ++ c → p = q := by
    intro p q c hp hq hc
    rcases List.eq_nil_or_concat c with rfl | ⟨front, b, rfl⟩
    · rw [hc, List.append_nil]
    · have hb : b = 0x2f := by
        have hlast := hq.1
        rw [hc, List.concat_eq_append, ← List.append_assoc, List.getLast?_concat] at hlast
        exact Option.some.inj hlast
      have hcount := hq.2
      rw [hc, List.concat_eq_append, hb, List.count_append, List.count_append, hp.2,
        List.count_singleton_self] at hcount
      omega
  rcases List.append_eq_append_iff.mp h with ⟨c, hc, -⟩ | ⟨c, hc, -⟩
  · exact hlong hp hq hc
  · exact (hlong hq hp hc).symm

/-- What starts with two segments starts with the same ones whatever is behind them. -/
theorem TwoSegments.take_splitSlash {p : Bytes} (hp : TwoSegments p) (x : Bytes) :
    (splitSlash (p ++ x)).take 2 = (splitSlash p).take 2 := by
  obtain ⟨front, rfl⟩ : ∃ front, p = front ++ [0x2f] := by
    rcases List.eq_nil_or_concat p with rfl | ⟨front, b, rfl⟩
    · exact absurd hp.1 nofun
    · refine ⟨front, ?_⟩
      have hlast := hp.1
      rw [List.concat_eq_append, List.getLast?_concat] at hlast
      rw [List.concat_eq_append, Option.some.inj hlast]
  have hlen : (splitSlash front).length = 2 := by
    have hcount := hp.2
    rw [List.count_append, List.count_singleton_self] at hcount
    rw [length_splitSlash]
    omega
  rw [List.append_assoc, List.singleton_append, splitSlash_append, splitSlash_append,
    List.take_append_of_le_length (Nat.le_of_eq hlen.symm),
    List.take_append_of_le_length (Nat.le_of_eq hlen.symm)]

/-- A rule is for the names that begin with its prefix, upper or lower case. -/
theorem appliesTo_iff :
    rule.appliesTo name = true ↔
      ∃ p x, name = p ++ x ∧ p.map lowerByte = rule.rulePrefix.map lowerByte := by
  simp only [NrSegmentTermsRule.appliesTo, nrStrnicmpEq, Bool.and_eq_true, decide_eq_true_eq,
    List.take_length]
  constructor
  · rintro ⟨-, hequal⟩
    exact ⟨_, _, (List.take_append_drop _ name).symm, hequal⟩
  · rintro ⟨p, x, rfl, hequal⟩
    have hlen : p.length = rule.rulePrefix.length := by
      simpa using congrArg List.length hequal
    refine ⟨?_, ?_⟩
    · rw [List.length_append, hlen]
      exact Nat.le_add_right _ _
    · rw [← hlen, List.take_left, hequal]

/-- Whether a rule is for a name is up to the first two segments of the name. -/
theorem appliesTo_append {p : Bytes} (hp : TwoSegments p) (x : Bytes) :
    rule.appliesTo (p ++ x) = true ↔ p.map lowerByte = rule.rulePrefix.map lowerByte := by
  rw [appliesTo_iff]
  constructor
  · rintro ⟨q, y, heq, hequal⟩
    obtain rfl := hp.eq_of_append (rule.twoSegments.of_lower hequal) heq
    exact hequal
  · exact fun hequal => ⟨p, x, rfl, hequal⟩

/-! ### Stability -/

/-- The segments that are left by a rule, with the asterisks between them. -/
def NrSegmentTermsRule.left (nrRegexMatch : Re → Bytes → Bool) (rule : NrSegmentTermsRule Re)
    (name : Bytes) : List Bytes :=
  collapse (rule.keeps nrRegexMatch) (ascii "*") false (segmentsBehind rule.rulePrefix name)

theorem mem_segmentsBehind {rulePrefix seg : Bytes} (h : seg ∈ segmentsBehind rulePrefix name) :
    trimSpace seg = seg ∧ 0x2f ∉ seg := by
  rw [segmentsBehind] at h
  split_ifs at h
  · cases h
  · exact of_mem_nrStrsplit h

theorem mem_left {seg : Bytes} (h : seg ∈ rule.left nrRegexMatch name) :
    seg ≠ [] ∧ trimSpace seg = seg ∧ 0x2f ∉ seg := by
  obtain ⟨m, hm, rfl⟩ := List.mem_map.mp h
  cases m with
  | none => exact ⟨List.cons_ne_nil _ _, by decide, by decide⟩
  | some s =>
      obtain ⟨hmem, hkeep⟩ := mem_collapseMarks hm
      have hne : s ≠ [] := by
        simp only [NrSegmentTermsRule.keeps, Bool.and_eq_true, decide_eq_true_eq] at hkeep
        exact hkeep.1
      exact ⟨hne, mem_segmentsBehind hmem⟩

theorem joinSlash_ne_nil {segs : List Bytes} (hne : segs ≠ []) (h : ∀ seg ∈ segs, seg ≠ []) :
    joinSlash segs ≠ [] := by
  obtain ⟨seg, segs, rfl⟩ := List.exists_cons_of_ne_nil hne
  have hseg := h seg List.mem_cons_self
  cases segs with
  | nil => exact hseg
  | cons seg' segs =>
      rw [joinSlash_cons (List.cons_ne_nil _ _)]
      exact List.append_ne_nil_of_left_ne_nil hseg _

/-- Behind the prefix of the result are the segments that were left. -/
theorem segmentsBehind_left {p : Bytes} (hp : p.length = rule.rulePrefix.length) :
    segmentsBehind rule.rulePrefix (p ++ joinSlash (rule.left nrRegexMatch name)) =
      rule.left nrRegexMatch name := by
  rw [segmentsBehind, ← hp, List.drop_left]
  by_cases hnil : rule.left nrRegexMatch name = []
  · rw [hnil]
    rfl
  · rw [if_neg (joinSlash_ne_nil hnil fun seg hseg => (mem_left hseg).1)]
    exact nrStrsplit_joinSlash hnil fun seg hseg => (mem_left hseg).2

theorem left_left {p : Bytes} (hp : p.length = rule.rulePrefix.length) :
    rule.left nrRegexMatch (p ++ joinSlash (rule.left nrRegexMatch name)) =
      rule.left nrRegexMatch name := by
  rw [NrSegmentTermsRule.left, segmentsBehind_left hp]
  exact collapse_collapse _ _ _

/-- The last rule that is for the name. -/
def NrSegmentTerms.ruleFor (segmentTerms : NrSegmentTerms Re) (name : Bytes) :
    Option (NrSegmentTermsRule Re) :=
  segmentTerms.rules.reverse.find? fun rule => rule.appliesTo name

theorem appliesTo_of_ruleFor {segmentTerms : NrSegmentTerms Re}
    (h : segmentTerms.ruleFor name = some rule) : rule.appliesTo name = true :=
  List.find?_some (p := fun rule : NrSegmentTermsRule Re => rule.appliesTo name) h

theorem nrSegmentTermsApply_eq (segmentTerms : NrSegmentTerms Re) (hne : name ≠ []) :
    nrSegmentTermsApply nrRegexMatch (some segmentTerms) name =
      some (match segmentTerms.ruleFor name with
        | none => name
        | some rule =>
            name.take rule.rulePrefix.length ++ joinSlash (rule.left nrRegexMatch name)) := by
  have hloop : ∀ rules : List (NrSegmentTermsRule Re),
      rules.findSome? (fun rule => nrSegmentTermsRuleApply nrRegexMatch rule name) =
        (rules.find? fun rule => rule.appliesTo name).map fun rule =>
          name.take rule.rulePrefix.length ++ joinSlash (rule.left nrRegexMatch name) := by
    intro rules
    induction rules with
    | nil => rfl
    | cons rule rules ih =>
        rw [List.findSome?_cons, List.find?_cons]
        cases happlies : rule.appliesTo name with
        | true =>
            rw [nrSegmentTermsRuleApply_of_appliesTo hne happlies]
            rfl
        | false => rw [nrSegmentTermsRuleApply_of_not_appliesTo happlies, ih]
  simp only [nrSegmentTermsApply, if_neg hne, hloop, NrSegmentTerms.ruleFor]
  cases segmentTerms.rules.reverse.find? fun rule => rule.appliesTo name with
  | none => rfl
  | some rule => rfl

/-- What is made of a name: its first two segments stay, of the others those that the last rule
for the name keeps, with an asterisk for each run between them; no two of these are side by
side. What is made of the result is the result. -/
theorem segmentTerms_stable (nrRegexMatch : Re → Bytes → Bool) (segmentTerms : NrSegmentTerms Re)
    {name : Bytes} (hne : name ≠ []) :
    ∃ result, nrSegmentTermsApply nrRegexMatch (some segmentTerms) name = some result ∧
      (splitSlash result).take 2 = (splitSlash name).take 2 ∧
      (segmentTerms.ruleFor name = none ∧ result = name ∨
        ∃ rule marks, segmentTerms.ruleFor name = some rule ∧
          Collapsed (fun s => rule.keeps nrRegexMatch s = true)
            (segmentsBehind rule.rulePrefix name) marks ∧
          result = name.take rule.rulePrefix.length ++
            joinSlash (marks.map fun mark => mark.getD (ascii "*")) ∧
          marks.IsChain fun mark mark' => ¬(mark = none ∧ mark' = none)) ∧
      nrSegmentTermsApply nrRegexMatch (some segmentTerms) result = some result := by
  have happly : nrSegmentTermsApply nrRegexMatch (some segmentTerms) name = _ :=
    nrSegmentTermsApply_eq segmentTerms hne
  cases hrule : segmentTerms.ruleFor name with
  | none =>
      rw [hrule] at happly
      exact ⟨name, happly, rfl, .inl ⟨rfl, rfl⟩, happly⟩
  | some rule =>
      rw [hrule] at happly
      obtain ⟨p, x, rfl, hequal⟩ := appliesTo_iff.mp (appliesTo_of_ruleFor hrule)
      have htwo : TwoSegments p := rule.twoSegments.of_lower hequal
      have hlen : p.length = rule.rulePrefix.length := by
        simpa using congrArg List.length hequal
      set result := (p ++ x).take rule.rulePrefix.length ++
        joinSlash (rule.left nrRegexMatch (p ++ x)) with hresult
      have hfront : result = p ++ joinSlash (rule.left nrRegexMatch (p ++ x)) := by
        rw [hresult, ← hlen, List.take_left]
      refine ⟨result, happly, ?_, .inr ⟨rule,
        collapseMarks (rule.keeps nrRegexMatch) false (segmentsBehind rule.rulePrefix (p ++ x)),
        rfl, collapsed_collapseMarks _ _, rfl, isChain_collapseMarks _ _ _⟩, ?_⟩
      · rw [hfront, htwo.take_splitSlash, htwo.take_splitSlash]
      -- the rule that was chosen is chosen again
      · have hsame : segmentTerms.ruleFor result = some rule := by
          rw [← hrule, NrSegmentTerms.ruleFor, NrSegmentTerms.ruleFor, hfront]
          congr 1
          funext other
          exact Bool.eq_iff_iff.mpr ((appliesTo_append htwo _).trans (appliesTo_append htwo x).symm)
        have hne' : result ≠ [] := by
          have hp : p ≠ [] := fun hnil => absurd htwo.1 (hnil ▸ nofun)
          rw [hfront]
          exact List.append_ne_nil_of_left_ne_nil hp _
        rw [nrSegmentTermsApply_eq segmentTerms hne', hsame]
        simp only
        rw [hfront, left_left hlen, ← hlen, List.take_left]

/-- A table whose one rule keeps nothing but segments of one character. -/
theorem segmentTerms_stable_short :
    let nrRegexMatch := fun (_ : Unit) (s : Bytes) => decide (s.length = 1)
    let segmentTerms : NrSegmentTerms Unit :=
      { capacity := 1
        rules := [{ rulePrefix := ascii "Web/Uri/", re := (), twoSegments := ⟨rfl, rfl⟩ }] }
    ∃ result, nrSegmentTermsApply nrRegexMatch (some segmentTerms) (ascii "web/uri/one//two/b") =
        some result ∧
      nrSegmentTermsApply nrRegexMatch (some segmentTerms) result = some result := by
  intro nrRegexMatch segmentTerms
  obtain ⟨result, hresult, -, -, hagain⟩ :=
    segmentTerms_stable nrRegexMatch segmentTerms (List.cons_ne_nil 0x77 (ascii "eb/uri/one//two/b"))
  exact ⟨result, hresult, hagain⟩

end Results

end Apply

end

end AxiomDaemon.Axiom

import AxiomDaemon.Axiom.SegmentTermsReply

/-!
Which segments the expression of a rule lets through. The terms are quoted and
put into one alternation, of which only the start is held to the start of the
segment: a segment is kept when it begins with a term. When the first term is
no string, or an empty one, the alternation begins with an empty alternative
and everything is kept.
-/

namespace AxiomDaemon.Axiom

open AxiomDaemon.Lib AxiomDaemon.Util

/-! ### The expression -/

theorem tokens_quoted {text : Bytes} (h : 0 ∉ text) (p : Bytes) :
    Pattern.tokens false (nrRegexQuoted text ++ p) =
      (Pattern.tokens false p).map (text.map .chr ++ ·) := by
  have hplain : ∀ b ∉ ascii ".\\+*?[^]$()\x7b\x7d=!><|:-",
      b ≠ 0x5c ∧ Pattern.tokenOf b = some (.chr b) := by
    intro b hb
    have hsub : (ascii "*+?\x7b[^").all (ascii ".\\+*?[^]$()\x7b\x7d=!><|:-").contains = true := by
      decide
    have hspecial : ([0x5c, 0x28, 0x29, 0x7c, 0x2e, 0x24] : Bytes).all
        (ascii ".\\+*?[^]$()\x7b\x7d=!><|:-").contains = true := by decide
    have hne : ∀ c ∈ ([0x5c, 0x28, 0x29, 0x7c, 0x2e, 0x24] : Bytes), b ≠ c :=
      fun c hc heq => hb (heq ▸ List.contains_iff_mem.mp (List.all_eq_true.mp hspecial c hc))
    refine ⟨hne _ (by decide), ?_⟩
    rw [Pattern.tokenOf, if_neg fun hmem => hb (List.contains_iff_mem.mp
      (List.all_eq_true.mp hsub b hmem)), if_neg (hne _ (by decide)),
      if_neg (hne _ (by decide)), if_neg (hne _ (by decide)), if_neg (hne _ (by decide)),
      if_neg (hne _ (by decide))]
  have hescaped : ∀ b ∈ ascii ".\\+*?[^]$()\x7b\x7d=!><|:-", Pattern.isAlphanumeric b = false := by
    have hall : (ascii ".\\+*?[^]$()\x7b\x7d=!><|:-").all
        (fun b => !Pattern.isAlphanumeric b) = true := by decide
    exact fun b hb => by simpa using List.all_eq_true.mp hall b hb
  induction text with
  | nil => simp [nrRegexQuoted]
  | cons b text ih =>
      obtain ⟨hb, htext⟩ := not_or.mp (mt List.mem_cons.mpr h)
      have hrec := ih htext
      rw [nrRegexQuoted] at hrec ⊢
      rw [List.flatMap_cons, if_neg (Ne.symm hb), List.append_assoc]
      split_ifs with hmeta
      · rw [List.cons_append, List.singleton_append, Pattern.tokens, if_pos rfl, Pattern.tokens,
          hescaped b hmeta, if_neg Bool.false_ne_true, hrec, Option.map_map]
        rfl
      · rw [List.singleton_append, Pattern.tokens, if_neg (hplain b hmeta).1, (hplain b hmeta).2,
          Option.bind_some, hrec, Option.map_map]
        rfl

theorem termText_eq_some {term : NrObj} {text : Bytes} (h : termText term = some text) :
    (nroGetString (some term)).map cString = some text ∧ text ≠ [] ∧ 0 ∉ text := by
  rw [termText] at h
  split at h
  · cases h
  · cases h
  next b bs heq =>
    obtain rfl := Option.some.inj h
    obtain ⟨s, -, hs⟩ := Option.map_eq_some_iff.mp heq
    refine ⟨heq, List.cons_ne_nil b bs, fun hzero => ?_⟩
    rw [← hs] at hzero
    simpa using List.mem_takeWhile_imp hzero

theorem tokens_buildRegexLoop_false (terms : List NrObj) :
    Pattern.tokens false (buildRegexLoop false terms) =
      some ((terms.filterMap termText).flatMap fun text => .bar :: Pattern.groupTokens text) := by
  induction terms with
  | nil => rfl
  | cons term terms ih =>
      rw [buildRegexLoop, List.filterMap_cons]
      cases hterm : termText term with
      | none => exact ih
      | some text =>
          have hclose : Pattern.tokens false (ascii ")" ++ buildRegexLoop false terms) =
              (Pattern.tokens false (buildRegexLoop false terms)).map (.closing :: ·) := rfl
          have hopen : ∀ p, Pattern.tokens false (ascii "|(" ++ p) =
              (Pattern.tokens false p).map (.bar :: .opening :: ·) := by
            intro p
            show ((Pattern.tokens false p).map (Pattern.Token.opening :: ·)).map _ = _
            rw [Option.map_map]
            rfl
          simp only [Bool.false_eq_true, if_false, List.append_assoc]
          rw [hopen, tokens_quoted (termText_eq_some hterm).2.2, hclose, ih]
          simp only [Option.map_some, List.flatMap_cons, Pattern.groupTokens, List.cons_append,
            List.append_assoc, List.nil_append]

section

variable {fold : UInt8 → UInt8}

/-- What begins with a term, or with the empty alternative. -/
def BeginsWithTerm (fold : UInt8 → UInt8) (terms : List NrObj) (s : Bytes) : Prop :=
  (∃ term ∈ terms.head?, termText term = none) ∨
    ∃ text ∈ terms.filterMap termText, Pattern.StartsWith fold text s

theorem parse_buildRegex (terms : List NrObj) :
    ∃ regex r, nrSegmentTermsRuleBuildRegex (some (.array terms)) = some regex ∧
      Pattern.parse regex = some r ∧
      ∀ s, r.matchesStart fold s = true ↔ BeginsWithTerm fold terms s := by
  cases terms with
  | nil =>
      refine ⟨ascii "$.", .seq (.seq .empty .endOfSubject) .any, rfl, rfl, fun s => ?_⟩
      refine iff_of_false ?_ ?_
      · -- at the end, and before a line feed, there is nothing for the dot
        rw [Pattern.matchesStart_eq_true]
        simp only [Pattern.rests, List.flatMap_singleton]
        split_ifs with hend
        · rcases hend with rfl | rfl <;> simp [Pattern.rests, Pattern.lineFeed]
        · simp
      · rintro (⟨term, hterm, -⟩ | ⟨text, htext, -⟩)
        · cases hterm
        · cases htext
  | cons term terms =>
      rw [nrSegmentTermsRuleBuildRegex]
      · refine ⟨buildRegexLoop true (term :: terms), ?_⟩
        have hrest := tokens_buildRegexLoop_false terms
        cases hterm : termText term with
        | none =>
            obtain ⟨r, hparse, hmatches⟩ :=
              Pattern.parseTokens_alternatives (terms.filterMap termText) .opened
            refine ⟨r, rfl, ?_, fun s => ?_⟩
            · rw [Pattern.parse, buildRegexLoop, hterm]
              simp only [hrest, Option.bind_some]
              exact hparse
            · rw [hmatches]
              exact iff_of_true (.inl rfl) (.inl ⟨term, rfl, hterm⟩)
        | some text =>
            obtain ⟨r, hparse, hmatches⟩ := Pattern.parseTokens_alternatives
              (terms.filterMap termText) (Pattern.Frame.opened.add (Pattern.textGroup text))
            refine ⟨r, rfl, ?_, fun s => ?_⟩
            · have hclose : Pattern.tokens false (ascii ")" ++ buildRegexLoop false terms) =
                  (Pattern.tokens false (buildRegexLoop false terms)).map (.closing :: ·) := rfl
              have hopen : ∀ p, Pattern.tokens false (ascii "(" ++ p) =
                  (Pattern.tokens false p).map (.opening :: ·) := fun _ => rfl
              rw [Pattern.parse, buildRegexLoop, hterm]
              simp only [if_true, List.append_assoc]
              rw [hopen, tokens_quoted (termText_eq_some hterm).2.2, hclose, hrest]
              simp only [Option.map_some, Option.bind_some]
              rw [← hparse, ← Pattern.parseTokens_groupTokens]
              simp only [Pattern.groupTokens, List.cons_append, List.append_assoc, List.nil_append]
            · have hfirst : (Pattern.Frame.opened.add (Pattern.textGroup text)).close =
                  .seq .empty (Pattern.textGroup text) := rfl
              rw [hmatches, hfirst, Pattern.matchesStart_textGroup, BeginsWithTerm,
                List.filterMap_cons, hterm]
              simp only [List.mem_cons, exists_eq_or_imp, List.head?_cons, Option.mem_def,
                Option.some.injEq, exists_eq_left', hterm, reduceCtorEq, false_or]
      · simp

end

instance (fold : UInt8 → UInt8) (terms : List NrObj) (s : Bytes) :
    Decidable (BeginsWithTerm fold terms s) :=
  inferInstanceAs (Decidable ((_ : Prop) ∨ _))

/-! ### Keeping terms -/

/-- A rule as it was handed in. -/
structure SegmentTermsSource where
  textBefore : Bytes
  terms : List NrObj

/-- One of the terms, upper or lower case. -/
def isTerm (terms : List NrObj) (segment : Bytes) : Bool :=
  terms.any fun term =>
    ((nroGetString (some term)).map fun text => (cString text).map lowerByte) =
      some (segment.map lowerByte)

/-- The last rule whose prefix a name begins with. -/
def sourceFor (sources : List SegmentTermsSource) (name : Bytes) : Option SegmentTermsSource :=
  sources.reverse.find? fun source =>
    Pattern.StartsWith lowerByte (withSlash source.textBefore) name

/-- The name with the segments that are terms, and an asterisk for each run of others. -/
def KeepsTerms (sources : List SegmentTermsSource) (name result : Bytes) : Prop :=
  match sourceFor sources name with
  | none => result = name
  | some source =>
      ∃ marks, Collapsed (fun s => isTerm source.terms s = true)
          (segmentsBehind (withSlash source.textBefore) name) marks ∧
        result = name.take (withSlash source.textBefore).length ++
          joinSlash (marks.map fun mark => mark.getD (ascii "*"))

/-- Of the segments behind the prefix, those that begin with a term are terms, or a lone
asterisk; and none is a term that is empty. -/
def OnlyTermsBegin (sources : List SegmentTermsSource) (name : Bytes) : Prop :=
  ∀ source ∈ sourceFor sources name,
    let segments := segmentsBehind (withSlash source.textBefore) name
    (∀ segment ∈ segments, isTerm source.terms segment = true → segment ≠ []) ∧
      Lone (fun segment => segment ≠ [] && BeginsWithTerm lowerByte source.terms segment)
        (isTerm source.terms) (ascii "*") false segments

section

variable {Re : Type} {create : Bytes → Option Re} {nrRegexMatch : Re → Bytes → Bool}

/-- Expressions are matched as PCRE does, anchored and caseless. -/
def PcreSemantics (create : Bytes → Option Re) (nrRegexMatch : Re → Bytes → Bool) : Prop :=
  ∀ regex re r, create regex = some re → Pattern.parse regex = some r →
    ∀ s, nrRegexMatch re s = r.matchesStart lowerByte s

/-- A table and the rules that were added to it. -/
inductive SegmentTermsRun (create : Bytes → Option Re) :
    List SegmentTermsSource → NrSegmentTerms Re → Prop
  | create {size : ℤ} {segmentTerms : NrSegmentTerms Re}
      (h : nrSegmentTermsCreate size = some segmentTerms) : SegmentTermsRun create [] segmentTerms
  | add {sources : List SegmentTermsSource} {segmentTerms segmentTerms' : NrSegmentTerms Re}
      {source : SegmentTermsSource} (hrun : SegmentTermsRun create sources segmentTerms)
      (h : nrSegmentTermsAdd create segmentTerms (some source.textBefore)
        (some (.array source.terms)) = some segmentTerms') :
      SegmentTermsRun create (sources ++ [source]) segmentTerms'

theorem array_of_buildRegex {terms : Option NrObj} {regex : Bytes}
    (h : nrSegmentTermsRuleBuildRegex terms = some regex) :
    ∃ elements, terms = some (.array elements) := by
  rw [nrSegmentTermsRuleBuildRegex.eq_def] at h
  split at h
  · exact ⟨[], rfl⟩
  · exact ⟨_, rfl⟩
  · cases h

theorem of_nrSegmentTermsRuleCreate {textBefore : Option Bytes} {terms : Option NrObj}
    {rule : NrSegmentTermsRule Re}
    (h : nrSegmentTermsRuleCreate create textBefore terms = some rule) :
    ∃ p elements regex, textBefore = some p ∧ terms = some (.array elements) ∧
      rule.rulePrefix = withSlash p ∧ nrSegmentTermsRuleBuildRegex terms = some regex ∧
      create regex = some rule.re := by
  simp only [nrSegmentTermsRuleCreate] at h
  split at h
  · cases h
  · cases h
  next b bs =>
    split_ifs at h
    obtain ⟨regex, hregex, hmade⟩ := Option.bind_eq_some_iff.mp h
    obtain ⟨re, hre, rfl⟩ := Option.map_eq_some_iff.mp hmade
    obtain ⟨elements, helements⟩ := array_of_buildRegex hregex
    exact ⟨b :: bs, elements, regex, rfl, helements, rfl, hregex, hre⟩

/-- What a rule is for, and what it keeps. -/
structure MadeFrom (nrRegexMatch : Re → Bytes → Bool) (source : SegmentTermsSource)
    (rule : NrSegmentTermsRule Re) : Prop where
  rulePrefix : rule.rulePrefix = withSlash source.textBefore
  matches_iff : ∀ s, nrRegexMatch rule.re s = true ↔ BeginsWithTerm lowerByte source.terms s

theorem SegmentTermsRun.madeFrom (hpcre : PcreSemantics create nrRegexMatch)
    {sources : List SegmentTermsSource} {segmentTerms : NrSegmentTerms Re}
    (hrun : SegmentTermsRun create sources segmentTerms) :
    List.Forall₂ (MadeFrom nrRegexMatch) sources segmentTerms.rules := by
  induction hrun with
  | create h =>
      rw [nrSegmentTermsCreate] at h
      split_ifs at h
      obtain rfl := Option.some.inj h
      exact .nil
  | add _ h ih =>
      rw [nrSegmentTermsAdd] at h
      split_ifs at h
      obtain ⟨rule, hrule, rfl⟩ := Option.map_eq_some_iff.mp h
      obtain ⟨p, elements, regex, hp, hterms, hbefore, hregex, hre⟩ :=
        of_nrSegmentTermsRuleCreate hrule
      obtain rfl := Option.some.inj hp
      obtain ⟨regex', r, hregex', hparse, hmatches⟩ := @parse_buildRegex lowerByte _
      obtain rfl := Option.some.inj (hregex.symm.trans hregex')
      refine List.rel_append ih (.cons ⟨hbefore, fun s => ?_⟩ .nil)
      rw [hpcre regex rule.re r hre hparse s]
      exact hmatches s

/-- The rule that is chosen is made from the source that is chosen. -/
theorem madeFrom_for {sources : List SegmentTermsSource} {segmentTerms : NrSegmentTerms Re}
    (hmade : List.Forall₂ (MadeFrom nrRegexMatch) sources segmentTerms.rules) (name : Bytes) :
    (sourceFor sources name = none ∧ segmentTerms.ruleFor name = none) ∨
      ∃ source rule, sourceFor sources name = some source ∧
        segmentTerms.ruleFor name = some rule ∧ MadeFrom nrRegexMatch source rule := by
  rw [sourceFor, NrSegmentTerms.ruleFor]
  have hreverse := List.rel_reverse hmade
  generalize sources.reverse = sources at hreverse ⊢
  generalize segmentTerms.rules.reverse = rules at hreverse ⊢
  induction hreverse with
  | nil => exact .inl ⟨rfl, rfl⟩
  | @cons source rule sources rules hfirst _ ih =>
      have hsame : rule.appliesTo name =
          decide (Pattern.StartsWith lowerByte (withSlash source.textBefore) name) := by
        rw [Bool.eq_iff_iff, appliesTo_iff, decide_eq_true_eq, hfirst.rulePrefix,
          Pattern.StartsWith]
        constructor
        · rintro ⟨p, x, rfl, hequal⟩
          exact ⟨x.map lowerByte, by rw [List.map_append, hequal]⟩
        · rintro ⟨t, ht⟩
          obtain ⟨p, x, rfl, hp, -⟩ := List.map_eq_append_iff.mp ht.symm
          exact ⟨p, x, rfl, hp⟩
      rw [List.find?_cons, List.find?_cons, hsame]
      cases decide (Pattern.StartsWith lowerByte (withSlash source.textBefore) name) with
      | true => exact .inr ⟨source, rule, rfl, rfl, hfirst⟩
      | false => exact ih

theorem beginsWithTerm_of_isTerm {terms : List NrObj} {segment : Bytes}
    (h : isTerm terms segment = true) (hne : segment ≠ []) :
    BeginsWithTerm lowerByte terms segment := by
  obtain ⟨term, hterm, hequal⟩ := List.any_eq_true.mp h
  obtain ⟨text, htext, hequal⟩ := Option.map_eq_some_iff.mp (of_decide_eq_true hequal)
  refine .inr ⟨cString text, List.mem_filterMap.mpr ⟨term, hterm, ?_⟩, ?_⟩
  · rw [termText, htext, Option.map_some]
    split
    · contradiction
    next hempty =>
      rw [Option.some.inj hempty] at hequal
      exact absurd (List.map_eq_nil_iff.mp hequal.symm) hne
    next hsome => exact hsome.symm
  · rw [Pattern.StartsWith, hequal]

end

/-- Two passes over segments give the same text if and only if they leave the same segments. -/
theorem joinSlash_collapse_eq_iff {d e : Bytes → Bool} {segments : List Bytes}
    (hd : ∀ segment, d segment = true → segment ≠ [])
    (hle : ∀ segment, e segment = true → segment ≠ [] → d segment = true)
    (hslash : ∀ segment ∈ segments, 0x2f ∉ segment) :
    joinSlash (collapse d (ascii "*") false segments) =
        joinSlash (collapse e (ascii "*") false segments) ↔
      (∀ segment ∈ segments, e segment = true → segment ≠ []) ∧
        Lone d e (ascii "*") false segments := by
  have hsplit : ∀ keep : Bytes → Bool, segments ≠ [] →
      splitSlash (joinSlash (collapse keep (ascii "*") false segments)) =
        collapse keep (ascii "*") false segments := by
    intro keep hne
    refine splitSlash_joinSlash (mt List.map_eq_nil_iff.mp (collapseMarks_ne_nil hne)) ?_
    intro segment hsegment
    obtain ⟨mark, hmark, rfl⟩ := List.mem_map.mp hsegment
    cases mark with
    | none => decide
    | some s => exact hslash s (mem_collapseMarks hmark).1
  constructor
  · intro hjoin
    have hsame : collapse d (ascii "*") false segments = collapse e (ascii "*") false segments := by
      by_cases hne : segments = []
      · rw [hne]
        rfl
      · rw [← hsplit d hne, hjoin, hsplit e hne]
    have hnonempty : ∀ segment ∈ segments, e segment = true → segment ≠ [] := by
      intro segment hsegment he
      have hmem : segment ∈ collapse e (ascii "*") false segments :=
        List.mem_map.mpr ⟨some segment, mem_collapseMarks_of_keep hsegment he false, rfl⟩
      rw [← hsame] at hmem
      obtain ⟨mark, hmark, rfl⟩ := List.mem_map.mp hmem
      cases mark with
      | none => exact List.cons_ne_nil _ _
      | some s => exact hd s (mem_collapseMarks hmark).2
    exact ⟨hnonempty, (collapse_eq_iff
      (fun segment hsegment he => hle segment he (hnonempty segment hsegment he)) false).mp hsame⟩
  · rintro ⟨hnonempty, hlone⟩
    rw [(collapse_eq_iff
      (fun segment hsegment he => hle segment he (hnonempty segment hsegment he)) false).mpr hlone]

/-- A name keeps the segments that are terms, and no others, if and only if of the segments
behind the prefix only terms begin with a term. -/
theorem terms_kept_exactly_iff {Re : Type} {create : Bytes → Option Re}
    {nrRegexMatch : Re → Bytes → Bool} (hpcre : PcreSemantics create nrRegexMatch)
    {sources : List SegmentTermsSource} {segmentTerms : NrSegmentTerms Re}
    (hrun : SegmentTermsRun create sources segmentTerms) (name : Bytes) :
    KeepsTerms sources name (nameKept nrRegexMatch (some segmentTerms) name) ↔
      OnlyTermsBegin sources name := by
  rcases madeFrom_for (hrun.madeFrom hpcre) name with
    ⟨hsource, hrule⟩ | ⟨source, rule, hsource, hrule, hfrom⟩
  · have hsame : nameKept nrRegexMatch (some segmentTerms) name = name := by
      by_cases hne : name = []
      · rw [nameKept, nrSegmentTermsApply, if_pos hne]
        rfl
      · rw [nameKept, nrSegmentTermsApply_eq segmentTerms hne, hrule]
        rfl
    rw [KeepsTerms, OnlyTermsBegin, hsource]
    exact iff_of_true hsame (by simp)
  · have hne : name ≠ [] := by
      rintro rfl
      obtain ⟨p, x, hnil, hequal⟩ := appliesTo_iff.mp (appliesTo_of_ruleFor hrule)
      have htwo := rule.twoSegments.of_lower hequal
      rw [(List.append_eq_nil_iff.mp hnil.symm).1] at htwo
      cases htwo.1
    have hkeeps : rule.keeps nrRegexMatch = fun segment =>
        segment ≠ [] && BeginsWithTerm lowerByte source.terms segment := by
      funext segment
      rw [NrSegmentTermsRule.keeps, Bool.eq_iff_iff, Bool.and_eq_true, Bool.and_eq_true,
        hfrom.matches_iff, decide_eq_true_eq, decide_eq_true_eq]
    have hkept : nameKept nrRegexMatch (some segmentTerms) name =
        name.take (withSlash source.textBefore).length ++
          joinSlash (collapse (rule.keeps nrRegexMatch) (ascii "*") false
            (segmentsBehind (withSlash source.textBefore) name)) := by
      rw [nameKept, nrSegmentTermsApply_eq segmentTerms hne, hrule, ← hfrom.rulePrefix]
      rfl
    have hspec : KeepsTerms sources name (nameKept nrRegexMatch (some segmentTerms) name) ↔
        joinSlash (collapse (rule.keeps nrRegexMatch) (ascii "*") false
            (segmentsBehind (withSlash source.textBefore) name)) =
          joinSlash (collapse (isTerm source.terms) (ascii "*") false
            (segmentsBehind (withSlash source.textBefore) name)) := by
      rw [KeepsTerms, hsource, hkept]
      simp only [List.append_cancel_left_eq]
      constructor
      · rintro ⟨marks, hmarks, hjoin⟩
        rw [hjoin, hmarks.eq_collapseMarks]
        rfl
      · exact fun hjoin => ⟨_, collapsed_collapseMarks _ _, hjoin⟩
    rw [hspec, joinSlash_collapse_eq_iff, hkeeps, OnlyTermsBegin, hsource]
    · simp only [Option.mem_def, Option.some.injEq, forall_eq']
    · intro segment hkeep
      rw [NrSegmentTermsRule.keeps, Bool.and_eq_true, decide_eq_true_eq] at hkeep
      exact hkeep.1
    · intro segment hterm hsegment
      rw [hkeeps, Bool.and_eq_true, decide_eq_true_eq, decide_eq_true_eq]
      exact ⟨hsegment, beginsWithTerm_of_isTerm hterm hsegment⟩
    · exact fun segment hsegment => (mem_segmentsBehind hsegment).2

/-! ### A term that begins another word -/

def fooSource : SegmentTermsSource :=
  { textBefore := ascii "WebTransaction/Uri", terms := [.string (ascii "foo")] }

def fooTable : NrSegmentTerms Lib.Pattern where
  capacity := 1
  rules := [{ rulePrefix := ascii "WebTransaction/Uri/"
              re := .seq .empty (Pattern.textGroup (ascii "foo"))
              twoSegments := ⟨rfl, rfl⟩ }]

theorem fooTable_run : SegmentTermsRun Pattern.parse [fooSource] fooTable := by
  have hcreate : nrSegmentTermsCreate 1 =
      some ({ capacity := 1, rules := [] } : NrSegmentTerms Lib.Pattern) := rfl
  have hadd : nrSegmentTermsAdd Pattern.parse { capacity := 1, rules := [] }
      (some fooSource.textBefore) (some (.array fooSource.terms)) = some fooTable := rfl
  exact (SegmentTermsRun.create hcreate).add hadd

theorem pcreSemantics_parse :
    PcreSemantics Pattern.parse (Pattern.matchesStart lowerByte) := by
  intro regex re r hre hparse s
  rw [Option.some.inj (hre.symm.trans hparse)]

/-- With the one term `foo` the segment `foobar` is kept, and is no term. -/
theorem foobar_is_kept :
    SegmentTermsRun Pattern.parse [fooSource] fooTable ∧
      PcreSemantics Pattern.parse (Pattern.matchesStart lowerByte) ∧
      nameKept (Pattern.matchesStart lowerByte) (some fooTable)
        (ascii "WebTransaction/Uri/foobar/bar") = ascii "WebTransaction/Uri/foobar/*" ∧
      isTerm fooSource.terms (ascii "foobar") = false ∧
      ¬ KeepsTerms [fooSource] (ascii "WebTransaction/Uri/foobar/bar")
        (nameKept (Pattern.matchesStart lowerByte) (some fooTable)
          (ascii "WebTransaction/Uri/foobar/bar")) := by
  refine ⟨fooTable_run, pcreSemantics_parse, by decide, by decide, ?_⟩
  have hsource : sourceFor [fooSource] (ascii "WebTransaction/Uri/foobar/bar") = some fooSource := rfl
  rw [KeepsTerms, hsource]
  rintro ⟨marks, hmarks, hresult⟩
  rw [hmarks.eq_collapseMarks] at hresult
  revert hresult
  decide

theorem terms_kept_exactly_foo :
    KeepsTerms [fooSource] (ascii "WebTransaction/Uri/FOO/bar")
        (nameKept (Pattern.matchesStart lowerByte) (some fooTable)
          (ascii "WebTransaction/Uri/FOO/bar")) ↔
      OnlyTermsBegin [fooSource] (ascii "WebTransaction/Uri/FOO/bar") :=
  terms_kept_exactly_iff pcreSemantics_parse fooTable_run (ascii "WebTransaction/Uri/FOO/bar")

end AxiomDaemon.Axiom

import AxiomDaemon.Axiom.SegmentTerms

/-!
Malformed rules among the segment terms of a connect reply. The table is given
up as a whole when one rule cannot be added, so the rules that are fine go with
it.
-/

namespace AxiomDaemon.Axiom

open AxiomDaemon.Lib AxiomDaemon.Util

/-- A rule as it has to be: a hash with a prefix of two segments and an array of terms. -/
def wellFormedRule : NrObj → Bool
  | .hash entries =>
      match nroGetHashString (some (.hash entries)) (ascii "prefix"),
        nroGetHashArray (some (.hash entries)) (ascii "terms") with
      | some (b :: bs), some (.array _) => nrStrCharCount (withSlash (b :: bs)) 0x2f = 2
      | _, _ => false
  | _ => false

section

variable {Re : Type}

/-- What is made of a rule. -/
def ruleOf (create : Bytes → Option Re) : NrObj → Option (NrSegmentTermsRule Re)
  | .hash entries =>
      nrSegmentTermsRuleCreate create (nroGetHashString (some (.hash entries)) (ascii "prefix"))
        (nroGetHashArray (some (.hash entries)) (ascii "terms"))
  | _ => none

variable {create : Bytes → Option Re}

theorem nrSegmentTermsAddFromObj_eq {segmentTerms : NrSegmentTerms Re}
    (hroom : (segmentTerms.rules.length : ℤ) < segmentTerms.capacity) (rule : NrObj) :
    nrSegmentTermsAddFromObj create segmentTerms (some rule) =
      (ruleOf create rule).map fun rule =>
        { segmentTerms with rules := segmentTerms.rules ++ [rule] } := by
  cases rule with
  | hash entries =>
      rw [nrSegmentTermsAddFromObj, nrSegmentTermsAdd, if_neg (by omega)]
      rfl
  | _ => rfl

theorem addRules_eq {segmentTerms : NrSegmentTerms Re} {rules : List NrObj}
    (hroom : (segmentTerms.rules.length + rules.length : ℤ) ≤ segmentTerms.capacity) :
    addRules create segmentTerms rules =
      if ∀ rule ∈ rules, (ruleOf create rule).isSome then
        some { segmentTerms with
          rules := segmentTerms.rules ++ rules.filterMap (ruleOf create) }
      else none := by
  induction rules generalizing segmentTerms with
  | nil => rw [addRules, if_pos (List.forall_mem_nil _), List.filterMap_nil, List.append_nil]
  | cons rule rules ih =>
      rw [List.length_cons] at hroom
      push_cast at hroom
      rw [addRules, nrSegmentTermsAddFromObj_eq (by omega)]
      cases hrule : ruleOf create rule with
      | none =>
          rw [if_neg fun hall => by
            have hsome := hall rule List.mem_cons_self
            rw [hrule] at hsome
            cases hsome]
          rfl
      | some made =>
          have hfit : ((segmentTerms.rules ++ [made]).length + rules.length : ℤ) ≤
              segmentTerms.capacity := by
            rw [List.length_append, List.length_singleton]
            push_cast
            omega
          have hiff : (∀ other ∈ rule :: rules, (ruleOf create other).isSome) ↔
              ∀ other ∈ rules, (ruleOf create other).isSome := by
            rw [List.forall_mem_cons, hrule]
            exact and_iff_right rfl
          have hrec : addRules create
              { segmentTerms with rules := segmentTerms.rules ++ [made] } rules = _ := ih hfit
          simp only [Option.map_some, hrec, hiff, List.filterMap_cons, hrule, List.append_assoc,
            List.singleton_append]

/-- The table of a reply holds all of its rules, or there is none. -/
theorem nrSegmentTermsCreateFromObj_array (rules : List NrObj) :
    nrSegmentTermsCreateFromObj create (some (.array rules)) =
      if rules ≠ [] ∧ ∀ rule ∈ rules, (ruleOf create rule).isSome then
        some { capacity := rules.length, rules := rules.filterMap (ruleOf create) }
      else none := by
  cases rules with
  | nil => rfl
  | cons rule rules =>
      have hpos : ¬((rule :: rules).length : ℤ) ≤ 0 := by
        rw [List.length_cons]
        push_cast
        omega
      rw [nrSegmentTermsCreateFromObj, nrSegmentTermsCreate, if_neg hpos, Option.bind_some,
        addRules_eq (by simp)]
      simp only [ne_eq, List.cons_ne_nil, not_false_eq_true, true_and, List.nil_append]

theorem ruleOf_of_malformed {rule : NrObj} (h : wellFormedRule rule = false) :
    ruleOf create rule = none := by
  cases rule with
  | hash entries =>
      rw [wellFormedRule] at h
      simp only [ruleOf, nrSegmentTermsRuleCreate]
      split
      · rfl
      · rfl
      next b bs hbefore =>
        rw [hbefore] at h
        cases hterms : nroGetHashArray (some (.hash entries)) (ascii "terms") with
        | none =>
            rw [nrSegmentTermsRuleBuildRegex]
            · simp
            · exact nofun
            · exact nofun
        | some terms =>
            rw [hterms] at h
            cases terms with
            | array elements =>
                have hcount : ¬nrStrCharCount (withSlash (b :: bs)) 0x2f = 2 := by
                  simpa using h
                simp only [dif_neg hcount]
            | _ =>
                rw [nrSegmentTermsRuleBuildRegex]
                · simp
                · exact nofun
                · exact nofun
  | _ => rfl

/-- The name of a transaction after the terms were applied to it. -/
def nameKept (nrRegexMatch : Re → Bytes → Bool) (segmentTerms : Option (NrSegmentTerms Re))
    (name : Bytes) : Bytes :=
  (nrSegmentTermsApply nrRegexMatch segmentTerms name).getD name

theorem exists_nameKept_ne (nrRegexMatch : Re → Bytes → Bool) {segmentTerms : NrSegmentTerms Re}
    (hne : segmentTerms.rules ≠ []) :
    ∃ name, nameKept nrRegexMatch (some segmentTerms) name ≠ name := by
  obtain ⟨before, rule, hrules⟩ : ∃ before rule, segmentTerms.rules = before ++ [rule] := by
    rcases List.eq_nil_or_concat segmentTerms.rules with hnil | ⟨before, rule, hrules⟩
    · exact absurd hnil hne
    · exact ⟨before, rule, hrules.trans (List.concat_eq_append ..)⟩
  set name := rule.rulePrefix ++ [0x2f] with hname
  have happlies : rule.appliesTo name = true := appliesTo_iff.mpr ⟨rule.rulePrefix, [0x2f], rfl, rfl⟩
  have hrule : segmentTerms.ruleFor name = some rule := by
    rw [NrSegmentTerms.ruleFor, hrules, List.reverse_append, List.reverse_singleton,
      List.singleton_append, List.find?_cons, happlies]
  -- behind the prefix are two empty segments
  have hleft : rule.left nrRegexMatch name = [ascii "*"] := by
    rw [NrSegmentTermsRule.left, segmentsBehind, hname, List.drop_left]
    rfl
  refine ⟨name, fun hsame => ?_⟩
  have hne' : name ≠ [] := List.append_ne_nil_of_right_ne_nil _ (List.cons_ne_nil _ _)
  rw [nameKept, nrSegmentTermsApply_eq segmentTerms hne', hrule, Option.getD_some] at hsame
  simp only [hleft] at hsame
  rw [hname, List.take_left, List.append_cancel_left_eq] at hsame
  exact absurd hsame (by decide)

/-- Every name comes out the same as without the malformed rules, if and only if there are no
malformed rules, or there is no table without them either: no rule is well formed, or one that is
was refused. -/
theorem malformed_rules_ignored_iff (create : Bytes → Option Re) (nrRegexMatch : Re → Bytes → Bool)
    (rules : List NrObj) :
    let table := nrSegmentTermsCreateFromObj create (some (.array rules))
    let table' := nrSegmentTermsCreateFromObj create (some (.array (rules.filter wellFormedRule)))
    let condition := (∀ rule ∈ rules, wellFormedRule rule = true) ∨
      (∀ rule ∈ rules, wellFormedRule rule = false) ∨
      ∃ rule ∈ rules, wellFormedRule rule = true ∧ ruleOf create rule = none
    ((∀ name, nrSegmentTermsApply nrRegexMatch table name =
        nrSegmentTermsApply nrRegexMatch table' name) ↔ condition) ∧
      ((∀ name, nameKept nrRegexMatch table name = nameKept nrRegexMatch table' name) ↔
        condition) := by
  intro table table' condition
  have hsame : condition → table = table' := by
    rintro (hall | hnone | ⟨rule, hrule, hwell, hrefused⟩)
    · have hfilter : rules.filter wellFormedRule = rules := List.filter_eq_self.mpr hall
      simp only [table, table', hfilter]
    · have hfilter : rules.filter wellFormedRule = [] :=
        List.filter_eq_nil_iff.mpr fun rule hrule => Bool.eq_false_iff.mp (hnone rule hrule)
      simp only [table, table', nrSegmentTermsCreateFromObj_array, hfilter]
      rw [if_neg, if_neg fun h => h.1 rfl]
      rintro ⟨hne, hsome⟩
      obtain ⟨rule, rest, rfl⟩ := List.exists_cons_of_ne_nil hne
      have hsome' := hsome rule List.mem_cons_self
      rw [ruleOf_of_malformed (hnone rule List.mem_cons_self)] at hsome'
      cases hsome'
    · have hnot : ∀ rules' : List NrObj, rule ∈ rules' →
          ¬(rules' ≠ [] ∧ ∀ rule ∈ rules', (ruleOf create rule).isSome) := by
        rintro rules' hmem ⟨-, hsome⟩
        have hsome' := hsome rule hmem
        rw [hrefused] at hsome'
        cases hsome'
      simp only [table, table', nrSegmentTermsCreateFromObj_array]
      rw [if_neg (hnot rules hrule), if_neg (hnot _ (List.mem_filter.mpr ⟨hrule, hwell⟩))]
  have hdiffer : (∀ name, nameKept nrRegexMatch table name = nameKept nrRegexMatch table' name) →
      condition := by
    intro hkept
    by_contra hnot
    obtain ⟨hall, hnone, hrefused⟩ := (not_or.trans (and_congr_right fun _ => not_or)).mp hnot
    push Not at hall hnone hrefused
    obtain ⟨bad, hbad, hmalformed⟩ := hall
    obtain ⟨good, hgood, hwell⟩ := hnone
    have htable : table = none := by
      simp only [table, nrSegmentTermsCreateFromObj_array]
      refine if_neg fun h => ?_
      have hsome := h.2 bad hbad
      rw [ruleOf_of_malformed (Bool.eq_false_iff.mpr hmalformed)] at hsome
      cases hsome
    have hgood' : good ∈ rules.filter wellFormedRule :=
      List.mem_filter.mpr ⟨hgood, Bool.eq_true_of_not_eq_false hwell⟩
    have hmade : ∀ rule ∈ rules.filter wellFormedRule, (ruleOf create rule).isSome := by
      intro rule hrule
      obtain ⟨hmem, hwell⟩ := List.mem_filter.mp hrule
      exact Option.isSome_iff_ne_none.mpr (hrefused rule hmem hwell)
    have htable' : table' = some { capacity := (rules.filter wellFormedRule).length
                                   rules := (rules.filter wellFormedRule).filterMap (ruleOf create) } := by
      simp only [table', nrSegmentTermsCreateFromObj_array]
      exact if_pos ⟨List.ne_nil_of_mem hgood', hmade⟩
    obtain ⟨made, hmadeGood⟩ := Option.isSome_iff_exists.mp (hmade good hgood')
    have hrules : (rules.filter wellFormedRule).filterMap (ruleOf create) ≠ [] :=
      List.ne_nil_of_mem (List.mem_filterMap.mpr ⟨good, hgood', hmadeGood⟩)
    obtain ⟨name, hname⟩ : ∃ name, nameKept nrRegexMatch table' name ≠ name := by
      rw [htable']
      exact exists_nameKept_ne nrRegexMatch hrules
    rw [← hkept name, htable] at hname
    exact hname rfl
  refine ⟨⟨fun h => hdiffer fun name => ?_, fun h name => by rw [hsame h]⟩,
    ⟨hdiffer, fun h name => by rw [hsame h]⟩⟩
  rw [nameKept, nameKept, h name]

end

/-- A rule that has no terms before one that is fine. -/
def oneBadRule : List NrObj :=
  [.hash [(ascii "prefix", .string (ascii "WebTransaction/MissingTerms"))],
    .hash [(ascii "prefix", .string (ascii "WebTransaction/Uri")),
      (ascii "terms", .array [.string (ascii "seven")])]]

/-- With the expressions of PCRE the bad rule leaves the name as it is, and without it the segment
that is no term is replaced. -/
theorem oneBadRule_scraps_all :
    let nrRegexMatch := Pattern.matchesStart lowerByte
    let name := ascii "WebTransaction/Uri/one/seven"
    nrSegmentTermsCreateFromObj Pattern.parse (some (.array oneBadRule)) = none ∧
      nameKept nrRegexMatch (nrSegmentTermsCreateFromObj Pattern.parse (some (.array oneBadRule)))
        name = name ∧
      nameKept nrRegexMatch
          (nrSegmentTermsCreateFromObj Pattern.parse
            (some (.array (oneBadRule.filter wellFormedRule)))) name =
        ascii "WebTransaction/Uri/*/seven" :=
  ⟨rfl, rfl, by decide⟩

end AxiomDaemon.Axiom

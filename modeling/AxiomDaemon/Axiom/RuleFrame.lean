import AxiomDaemon.Axiom.RuleBuffersSafe
import AxiomDaemon.Axiom.TxnNaming

/-!
What the rules leave alone. A rule for every segment starts behind the first byte
of its string, which it takes for a slash, and puts a slash in its place. A
name without one loses its first byte, be there a match or not; that the result is
"unchanged" then hides it from the transaction, but not from the rules that follow.
-/

namespace AxiomDaemon.Axiom

open AxiomDaemon.Lib CText

namespace Buffered

section

variable {Re : Type}

/-- `nr_rule_apply` takes the segments one by one. -/
def forSegments (rule : NrRule Re) : Bool := !rule.ignore && rule.eachSegment

/-- The segments of a name, from behind the slash in front of it if there is one. -/
def segmentsOf (name : Bytes) : List Bytes :=
  splitSlash (if name.head? = some 0x2f then name.tail else name)

/-- The slash in front of a name. -/
def leadingSlash (name : Bytes) : Bytes := if name.head? = some 0x2f then [0x2f] else []

/-- A rule matches a name, or one of its segments. -/
def RuleMatches (find : Engine Re) (rule : NrRule Re) (name : Bytes) : Prop :=
  if forSegments rule then ∃ segment ∈ segmentsOf name, (find rule.regex segment 0).isSome = true
  else (find rule.regex name 0).isSome = true

/-- The segments without a match and the slashes are as before, and in the place of a segment with
one is what the rule makes of it. There is a slash in front exactly if there was one: it is no
part of the first segment, be that replaced or not. -/
structure SegmentsKept (find : Engine Re) (rule : NrRule Re) (name newName : Bytes) : Prop where
  text : newName = leadingSlash name ++
    joinSlash ((segmentsOf name).map fun segment => (applySegment find rule segment).2)
  slash : newName.head? = some 0x2f ↔ name.head? = some 0x2f

/-- If no rule matches the name, `nr_rules_apply` reports that it is unchanged. -/
def KeepsUnmatchedName (find : Engine Re) (rules : List (NrRule Re)) (name : Bytes) : Prop :=
  (∀ rule ∈ rules, ¬ RuleMatches find rule name) →
    ∀ rounds, nrRulesApply find (rounds + 1) rules name = .ok (.unchanged, none)

/-- If no rule matches the name of a transaction, it keeps that. -/
def TxnKeepsUnmatchedName (find : Engine Re) (rules : List (NrRule Re)) (txn : NamedTxn) (name : Bytes) :
    Prop :=
  (∀ rule ∈ rules, ¬ RuleMatches find rule name) →
    ∀ rounds, ∃ result newName,
      nrRulesApply find (rounds + 1) rules (snprintf512 name) = .ok (result, newName) ∧
        result = .unchanged ∧
        (nrTxnApplyTxnRules txn (some fun _ => (result, newName.getD []))).1.name = some name

/-- No rule matches what it is given: the string, and from the first rule for every segment on
the string with a slash for its first byte. -/
def NothingFound (find : Engine Re) (rules : List (NrRule Re)) (str : Bytes) : Prop :=
  (∀ rule ∈ rules.takeWhile (fun rule => !forSegments rule), ¬ RuleMatches find rule str) ∧
    ∀ rule ∈ rules.dropWhile (fun rule => !forSegments rule),
      ¬ RuleMatches find rule (0x2f :: str.tail)

/-- What a rule for every segment edits in place keeps what has no match. -/
def KeepsSegments (find : Engine Re) (rule : NrRule Re) (b : Buffers) : Prop :=
  ∀ rounds, ∃ r, nrRuleApply find rounds rule b = .ok r ∧
    SegmentsKept find rule (b.textFrom 0) (r.2.textFrom 0)

/-! ### The segments of one string -/

variable {find : Engine Re} {rule : NrRule Re} {b : Buffers}

/-- The segments of a name that starts with a slash are those that the rule takes. -/
theorem flatMap_segmentText (segments : List Bytes) :
    segments.flatMap (segmentText find rule) =
      (segments.map fun segment => (applySegment find rule segment).2).flatMap fun text =>
        0x2f :: text := by
  rw [List.flatMap_map]
  rfl

theorem applySegment_kept {segment : Bytes} (h : find rule.regex segment 0 = none) :
    (applySegment find rule segment).2 = segment := by
  rw [applySegment_none h]

/-- Where nothing matches, the string comes out as it was, with a slash in front. -/
theorem flatMap_segmentText_of_none {rest : Bytes}
    (h : ∀ segment ∈ splitSlash rest, find rule.regex segment 0 = none) :
    (splitSlash rest).flatMap (segmentText find rule) = 0x2f :: rest := by
  have hmap : (splitSlash rest).map (fun segment => (applySegment find rule segment).2) =
      splitSlash rest :=
    (List.map_congr_left fun segment hmem => applySegment_kept (h segment hmem)).trans (List.map_id _)
  rw [flatMap_segmentText, hmap, ← joinSlash_nil_cons, joinSlash_cons (splitSlash_ne_nil rest),
    joinSlash_splitSlash]
  rfl

theorem segmentsKept_slash (rest : Bytes) :
    SegmentsKept find rule (0x2f :: rest) ((splitSlash rest).flatMap (segmentText find rule)) := by
  have htext : (splitSlash rest).flatMap (segmentText find rule) =
      0x2f :: joinSlash ((splitSlash rest).map fun segment => (applySegment find rule segment).2) := by
    rw [flatMap_segmentText, ← joinSlash_nil_cons, joinSlash_cons]
    · rfl
    · simpa using splitSlash_ne_nil rest
  rw [htext]
  exact ⟨rfl, iff_of_true rfl rfl⟩

theorem forSegments_iff : forSegments rule = true ↔ rule.ignore = false ∧ rule.eachSegment = true := by
  simp [forSegments]

/-- A rule for every segment changes what it matches, and no more, exactly if there is room and
there is a slash in front of the string. -/
theorem keepsSegments_iff (hwidths : WidthsOk find rule) (hreplacement : 0 ∉ rule.replacement)
    (hb : b.Ok) (hmode : forSegments rule = true) :
    KeepsSegments find rule b ↔ RuleFits find rule b ∧ (b.textFrom 0).head? = some 0x2f := by
  obtain ⟨hignore, heach⟩ := forSegments_iff.mp hmode
  have hwrites := fun rounds => each_writesIf hwidths hreplacement hb hignore heach rounds
  rw [ruleFits_each hignore heach]
  constructor
  · intro h
    obtain ⟨r, hr, hkept⟩ := h 0
    refine ⟨?_, hkept.slash.mp ?_⟩
    · by_contra hnot
      rw [(hwrites 0).fault hnot] at hr
      cases hr
    · -- the string that is written starts with a slash, whatever the segments are
      obtain ⟨segment, segments, hsegments⟩ :=
        List.exists_cons_of_ne_nil (splitSlash_ne_nil (b.textFrom 1))
      rw [((hwrites 0).of_ok hr).text_eq, hsegments, List.flatMap_cons, segmentText]
      rfl
  · rintro ⟨hfits, hslash⟩ rounds
    obtain ⟨r, hr, -, -, htext⟩ := (hwrites rounds).ok hfits
    refine ⟨r, hr, ?_⟩
    rw [htext]
    cases hstr : b.textFrom 0 with
    | nil =>
        rw [hstr] at hslash
        cases hslash
    | cons ch rest =>
        rw [hstr] at hslash
        obtain rfl : ch = 0x2f := Option.some.inj hslash
        rw [Buffers.textFrom_one hstr]
        exact segmentsKept_slash rest

/-! ### Rules without a match -/

/-- What `nr_rule_apply` finds in a buffer. -/
def RuleFinds (find : Engine Re) (rule : NrRule Re) (b : Buffers) : Prop :=
  if forSegments rule then
    ∃ segment ∈ splitSlash (b.textFrom 1), (find rule.regex segment 0).isSome = true
  else (find rule.regex (b.textFrom 0) 0).isSome = true

theorem Buffers.Ok.copyBack_self (hb : b.Ok) :
    blockCopy b.str 0 (b.textFrom 0 ++ [0]) = b.str := by
  have hlt := hb.length_textFrom_lt (k := 0) (by decide)
  have hsplit : b.textFrom 0 ++ b.str.dropWhile (· ≠ 0) = b.str := List.takeWhile_append_dropWhile
  cases hdrop : b.str.dropWhile (· ≠ 0) with
  | nil =>
      rw [hdrop, List.append_nil] at hsplit
      rw [hsplit, hb.length_str] at hlt
      omega
  | cons ch cells =>
      have hch : ch = 0 := by
        have hhead := List.head?_dropWhile_not (fun b : UInt8 => decide (b ≠ 0)) b.str
        rw [hdrop] at hhead
        simpa using hhead
      rw [hdrop, hch, List.append_cons] at hsplit
      have hrest : b.str.drop (0 + (b.textFrom 0 ++ [0]).length) = cells := by
        rw [Nat.zero_add]
        conv_lhs => rw [← hsplit]
        exact List.drop_left
      rw [blockCopy, List.take_zero, List.nil_append, hrest, hsplit]

theorem ruleFinds_segments (hmode : forSegments rule = true) :
    RuleFinds find rule b ↔
      ∃ segment ∈ splitSlash (b.textFrom 1), (find rule.regex segment 0).isSome = true := by
  rw [RuleFinds, if_pos hmode]

theorem ruleFinds_whole (hmode : forSegments rule = false) :
    RuleFinds find rule b ↔ (find rule.regex (b.textFrom 0) 0).isSome = true := by
  rw [RuleFinds, hmode, if_neg Bool.false_ne_true]

theorem not_ruleFinds_whole (hmode : forSegments rule = false) :
    ¬ RuleFinds find rule b ↔ find rule.regex (b.textFrom 0) 0 = none := by
  rw [ruleFinds_whole hmode, Bool.not_eq_true, Option.isSome_eq_false_iff, Option.isNone_iff_eq_none]

/-- Without a match the whole string is copied to `work` and back. -/
theorem nrRuleApply_all_of_none (hb : b.Ok) (hignore : rule.ignore = false)
    (heach : rule.eachSegment = false) (hall : rule.replaceAll = true)
    (h : find rule.regex (b.textFrom 0) 0 = none) (rounds : ℕ) :
    nrRuleApply find (rounds + 1) rule b = .ok (.unchanged, b) := by
  have hlt := hb.length_textFrom_lt (k := 0) (by decide)
  rw [Nat.zero_add] at hlt
  obtain ⟨work, hwork, rfl⟩ := (strcpyBehind_writesIf [] (b.textFrom 0)).ok (by simpa using hlt)
  obtain ⟨cells, hcells, rfl, -⟩ :=
    (strcpyOver_writesIf b.str (b.textFrom 0)).ok (hb.length_str.symm ▸ hlt)
  rw [nrRuleApply_all hignore heach hall, replaceAllLoop_none h, List.drop_zero, hwork]
  simp only [map_ok, ok_bind, List.nil_append, hcells, hb.copyBack_self]
  rfl

theorem nrRuleApply_of_not_finds (hb : b.Ok) (hmode : forSegments rule = false)
    (h : ¬ RuleFinds find rule b) (rounds : ℕ) :
    nrRuleApply find (rounds + 1) rule b = .ok (.unchanged, b) := by
  have hnone := (not_ruleFinds_whole hmode).mp h
  rcases modes rule with hignore | hsegments | ⟨-, heach, hall⟩ | ⟨hignore, heach, hall⟩
  · rw [nrRuleApply_ignore hignore, hnone]
    rfl
  · rw [forSegments_iff.mpr hsegments] at hmode
    cases hmode
  · exact nrRuleApply_noMatch heach hall hnone (rounds + 1)
  · exact nrRuleApply_all_of_none hb hignore heach hall hnone rounds

/-- A rule for every segment puts a slash in the place of the first byte, match or not. -/
theorem nrRuleApply_segments_of_not_finds (hwidths : WidthsOk find rule)
    (hreplacement : 0 ∉ rule.replacement) (hb : b.Ok) (hmode : forSegments rule = true)
    (h : ¬ RuleFinds find rule b) (rounds : ℕ) :
    ∃ b', nrRuleApply find rounds rule b = .ok (.unchanged, b') ∧ b'.Ok ∧
      b'.textFrom 0 = 0x2f :: b.textFrom 1 := by
  obtain ⟨hignore, heach⟩ := forSegments_iff.mp hmode
  have hnone : ∀ segment ∈ splitSlash (b.textFrom 1), find rule.regex segment 0 = none := by
    rw [ruleFinds_segments hmode] at h
    simpa using h
  have hflat := flatMap_segmentText_of_none hnone
  have hfits : ((splitSlash (b.textFrom 1)).map
      fun segment => 1 + segmentWidth find rule segment).sum < nruleBufSize := by
    have hlength := congrArg List.length hflat
    rw [List.length_flatMap, List.length_cons] at hlength
    simp only [length_segmentText hwidths] at hlength
    have hlt := hb.length_textFrom_lt (k := 1) (by decide)
    omega
  obtain ⟨⟨result, b'⟩, hr, hresult, hok, htext⟩ :=
    (each_writesIf hwidths hreplacement hb hignore heach rounds).ok hfits
  have hany : ((splitSlash (b.textFrom 1)).any fun segment =>
      (applySegment find rule segment).1) = false := by
    rw [List.any_eq_false]
    intro segment hmem
    rw [applySegment_none (hnone segment hmem)]
    exact Bool.false_ne_true
  rw [hany] at hresult
  obtain rfl : result = .unchanged := hresult
  exact ⟨b', hr, hok, htext.trans hflat⟩

/-- A rule that finds something does not leave the string unchanged. -/
theorem nrRuleApply_of_finds (hfind : MatchesWithin find) (hwidths : WidthsOk find rule)
    (hreplacement : 0 ∉ rule.replacement) (hb : b.Ok) (h : RuleFinds find rule b) {rounds : ℕ}
    {r : NrRulesResult × Buffers} (hr : nrRuleApply find rounds rule b = .ok r) :
    r.1 ≠ .unchanged := by
  rcases modes rule with hignore | ⟨hignore, heach⟩ | ⟨hignore, heach, hall⟩ | ⟨hignore, heach, hall⟩
  · rw [ruleFinds_whole (by simp [forSegments, hignore])] at h
    rw [nrRuleApply_ignore hignore, h] at hr
    obtain rfl := Except.ok.inj hr
    exact nofun
  · obtain ⟨segment, hmem, hsome⟩ := (ruleFinds_segments (forSegments_iff.mpr ⟨hignore, heach⟩)).mp h
    have hany : ((splitSlash (b.textFrom 1)).any fun segment =>
        (applySegment find rule segment).1) = true := by
      obtain ⟨ss, hss⟩ := Option.isSome_iff_exists.mp hsome
      exact List.any_eq_true.mpr ⟨segment, hmem, congrArg Prod.fst (applySegment_some hss)⟩
    rw [((each_writesIf hwidths hreplacement hb hignore heach rounds).of_ok hr).result_eq, hany]
    exact nofun
  · rw [ruleFinds_whole (by simp [forSegments, heach])] at h
    obtain ⟨ss, hss⟩ := Option.isSome_iff_exists.mp h
    rw [((first_writesIf hfind hwidths hreplacement hb hignore heach hall hss
      rounds).of_ok hr).result_eq]
    exact nofun
  · rw [ruleFinds_whole (by simp [forSegments, heach])] at h
    have hyields := all_yields hfind hwidths hreplacement hb hignore heach hall rounds
    rw [hr] at hyields
    obtain ⟨text, -, hleaves⟩ := hyields
    rw [hleaves.result_eq, h]
    exact nofun

/-! ### Lists of rules -/

theorem nrRulesApplyLoop_changed (rounds : ℕ) (rules : List (NrRule Re)) (b b' : Buffers) :
    nrRulesApplyLoop find rounds rules true b ≠ .ok (.unchanged, b') := by
  intro h
  induction rules generalizing b with
  | nil => cases h
  | cons rule rules ih =>
      rw [nrRulesApplyLoop] at h
      cases hr : nrRuleApply find rounds rule b with
      | error e =>
          rw [hr] at h
          cases h
      | ok r =>
          obtain ⟨result, b₁⟩ := r
          rw [hr] at h
          cases result with
          | ignore => cases h
          | unchanged => exact ih b₁ h
          | changed =>
              simp only [ok_bind] at h
              split_ifs at h
              · cases h
              · exact ih b₁ h

/-- Behind a rule that finds nothing the loop goes on with what that leaves. -/
theorem unchanged_cons_iff (hfind : MatchesWithin find) (hwidths : WidthsOk find rule)
    (hreplacement : 0 ∉ rule.replacement) (hb : b.Ok) {b₁ : Buffers} {rounds : ℕ}
    (hstep : ¬ RuleFinds find rule b → nrRuleApply find rounds rule b = .ok (.unchanged, b₁))
    (rules : List (NrRule Re)) :
    (∃ b', nrRulesApplyLoop find rounds (rule :: rules) false b = .ok (.unchanged, b')) ↔
      ¬ RuleFinds find rule b ∧
        ∃ b', nrRulesApplyLoop find rounds rules false b₁ = .ok (.unchanged, b') := by
  rw [nrRulesApplyLoop]
  by_cases hfinds : RuleFinds find rule b
  · refine iff_of_false ?_ fun h => h.1 hfinds
    rintro ⟨b', h⟩
    cases hr : nrRuleApply find rounds rule b with
    | error e =>
        rw [hr] at h
        cases h
    | ok r =>
        have hne := nrRuleApply_of_finds hfind hwidths hreplacement hb hfinds hr
        obtain ⟨result, b₂⟩ := r
        rw [hr] at h
        cases result with
        | ignore => cases h
        | unchanged => exact absurd rfl hne
        | changed =>
            simp only [ok_bind] at h
            split_ifs at h
            · cases h
            · exact absurd h (nrRulesApplyLoop_changed _ rules b₂ b')
  · rw [hstep hfinds]
    exact (and_iff_right hfinds).symm

/-- What is known of all rules of a list. -/
structure RulesOk (find : Engine Re) (rules : List (NrRule Re)) : Prop where
  widths : ∀ rule ∈ rules, WidthsOk find rule
  replacement : ∀ rule ∈ rules, 0 ∉ rule.replacement

theorem RulesOk.tail {rules : List (NrRule Re)} (h : RulesOk find (rule :: rules)) :
    RulesOk find rules :=
  ⟨fun r hr => h.widths r (List.mem_cons_of_mem _ hr),
    fun r hr => h.replacement r (List.mem_cons_of_mem _ hr)⟩

/-- With a slash in front of the string a rule finds what matches it. -/
theorem ruleFinds_iff_of_slash {rest : Bytes} (hstr : b.textFrom 0 = 0x2f :: rest) :
    RuleFinds find rule b ↔ RuleMatches find rule (0x2f :: rest) := by
  rw [RuleFinds, RuleMatches, segmentsOf, hstr, Buffers.textFrom_one hstr]
  rfl

theorem ruleFinds_iff_of_whole (hmode : forSegments rule = false) :
    RuleFinds find rule b ↔ RuleMatches find rule (b.textFrom 0) := by
  rw [ruleFinds_whole hmode, RuleMatches, hmode, if_neg Bool.false_ne_true]

theorem ruleFinds_iff_of_segments (hmode : forSegments rule = true) :
    RuleFinds find rule b ↔ RuleMatches find rule (0x2f :: b.textFrom 1) := by
  rw [RuleFinds, RuleMatches, hmode, segmentsOf]
  rfl

/-- What a rule that finds nothing makes of a string: a rule for every segment writes over the
first byte. -/
theorem exists_of_not_finds (hwidths : WidthsOk find rule) (hreplacement : 0 ∉ rule.replacement)
    (hb : b.Ok) (rounds : ℕ) :
    ∃ b₁, (¬ RuleFinds find rule b →
        nrRuleApply find (rounds + 1) rule b = .ok (.unchanged, b₁)) ∧ b₁.Ok ∧
      (forSegments rule = false → b₁ = b) ∧
      (forSegments rule = true → ¬ RuleFinds find rule b →
        b₁.textFrom 0 = 0x2f :: b.textFrom 1) := by
  by_cases hfinds : RuleFinds find rule b
  · exact ⟨b, fun h => absurd hfinds h, hb, fun _ => rfl, fun _ h => absurd hfinds h⟩
  cases hmode : forSegments rule with
  | true =>
      obtain ⟨b₁, happly, hok, htext⟩ := nrRuleApply_segments_of_not_finds hwidths hreplacement hb
        hmode hfinds (rounds + 1)
      exact ⟨b₁, fun _ => happly, hok, nofun, fun _ _ => htext⟩
  | false =>
      exact ⟨b, fun h => nrRuleApply_of_not_finds hb hmode h rounds, hb, fun _ => rfl, nofun⟩

/-- Nothing changes a string with a slash in front exactly if no rule matches it. -/
theorem unchanged_iff_of_slash (hfind : MatchesWithin find) {rules : List (NrRule Re)}
    (hrules : RulesOk find rules) (hb : b.Ok) {rest : Bytes} (hstr : b.textFrom 0 = 0x2f :: rest)
    (rounds : ℕ) :
    (∃ b', nrRulesApplyLoop find (rounds + 1) rules false b = .ok (.unchanged, b')) ↔
      ∀ rule ∈ rules, ¬ RuleMatches find rule (0x2f :: rest) := by
  induction rules generalizing b with
  | nil => exact ⟨fun _ _ => nofun, fun _ => ⟨b, rfl⟩⟩
  | cons rule rules ih =>
      have hwidths := hrules.widths rule List.mem_cons_self
      have hreplacement := hrules.replacement rule List.mem_cons_self
      obtain ⟨b₁, happly, hok, hsame, hsegments⟩ :=
        exists_of_not_finds hwidths hreplacement hb rounds
      rw [unchanged_cons_iff hfind hwidths hreplacement hb happly, List.forall_mem_cons,
        ruleFinds_iff_of_slash hstr]
      refine and_congr_right fun hnot => ih hrules.tail hok ?_
      cases hmode : forSegments rule with
      | true =>
          rw [hsegments hmode (mt (ruleFinds_iff_of_slash hstr).mp hnot), Buffers.textFrom_one hstr]
      | false => rw [hsame hmode, hstr]

theorem unchanged_iff (hfind : MatchesWithin find) {rules : List (NrRule Re)}
    (hrules : RulesOk find rules) (hb : b.Ok) (htail : b.textFrom 1 = (b.textFrom 0).tail)
    (rounds : ℕ) :
    (∃ b', nrRulesApplyLoop find (rounds + 1) rules false b = .ok (.unchanged, b')) ↔
      NothingFound find rules (b.textFrom 0) := by
  induction rules generalizing b with
  | nil => exact ⟨fun _ => ⟨nofun, nofun⟩, fun _ => ⟨b, rfl⟩⟩
  | cons rule rules ih =>
      have hwidths := hrules.widths rule List.mem_cons_self
      have hreplacement := hrules.replacement rule List.mem_cons_self
      obtain ⟨b₁, happly, hok, hsame, hsegments⟩ :=
        exists_of_not_finds hwidths hreplacement hb rounds
      rw [unchanged_cons_iff hfind hwidths hreplacement hb happly, NothingFound]
      cases hmode : forSegments rule with
      | true =>
          rw [List.takeWhile_cons_of_neg (by simp [hmode]), List.dropWhile_cons_of_neg (by simp [hmode]),
            List.forall_mem_cons, ruleFinds_iff_of_segments hmode, htail]
          refine Iff.trans (and_congr_right fun hnot => ?_) (and_iff_right nofun).symm
          have hnot' := mt (ruleFinds_iff_of_segments hmode).mp (htail.symm ▸ hnot)
          exact unchanged_iff_of_slash hfind hrules.tail hok
            ((hsegments hmode hnot').trans (congrArg _ htail)) rounds
      | false =>
          rw [List.takeWhile_cons_of_pos (by simp [hmode]), List.dropWhile_cons_of_pos (by simp [hmode]),
            List.forall_mem_cons, and_assoc, ruleFinds_iff_of_whole hmode, hsame hmode]
          exact and_congr_right fun _ => ih hrules.tail hb htail

theorem Buffers.textFrom_one_load {name : Bytes} (h : 0 ∉ name) :
    (Buffers.load name).textFrom 1 = ((Buffers.load name).textFrom 0).tail := by
  cases hstr : (Buffers.load name).textFrom 0 with
  | cons ch rest => exact Buffers.textFrom_one hstr
  | nil =>
      rw [Buffers.textFrom_load h, List.take_eq_nil_iff] at hstr
      obtain rfl := hstr.resolve_left (by decide)
      have hzeros : (Buffers.load []).str.drop 1 = List.replicate (nruleBufSize - 1) 0 := by
        rw [Buffers.load, blockCopy, List.take_zero, List.take_nil, List.nil_append, List.nil_append]
        exact List.drop_replicate ..
      rw [Buffers.textFrom, textAt, hzeros, List.takeWhile_replicate, if_neg (by simp)]
      rfl

theorem nrRulesApply_unchanged_iff (hfind : MatchesWithin find) {rules : List (NrRule Re)}
    (hrules : RulesOk find rules) {name : Bytes} (hname : 0 ∉ name) (rounds : ℕ) :
    nrRulesApply find (rounds + 1) rules name = .ok (.unchanged, none) ↔
      NothingFound find rules (name.take (nruleBufSize - 1)) := by
  rw [← Buffers.textFrom_load hname, ← unchanged_iff hfind hrules (Buffers.ok_load name)
    (Buffers.textFrom_one_load hname) rounds, nrRulesApply]
  cases nrRulesApplyLoop find (rounds + 1) rules false (Buffers.load name) with
  | error e =>
      refine iff_of_false (fun h => by cases h) ?_
      rintro ⟨_, h⟩
      cases h
  | ok r =>
      obtain ⟨result, b⟩ := r
      cases result with
      | unchanged => exact iff_of_true rfl ⟨b, rfl⟩
      | ignore =>
          refine iff_of_false (fun h => by cases h) ?_
          rintro ⟨_, h⟩
          cases h
      | changed =>
          refine iff_of_false (fun h => by cases h) ?_
          rintro ⟨_, h⟩
          cases h

theorem eq_none_of_unchanged {rules : List (NrRule Re)} {name : Bytes} {rounds : ℕ}
    {newName : Option Bytes} (h : nrRulesApply find rounds rules name = .ok (.unchanged, newName)) :
    newName = none := by
  rw [nrRulesApply] at h
  obtain ⟨⟨result, b⟩, -, hr⟩ := bind_eq_ok.mp h
  have hresult : result = .unchanged := congrArg Prod.fst (Except.ok.inj hr)
  have hnew : _ = newName := congrArg Prod.snd (Except.ok.inj hr)
  rw [← hnew, hresult]
  rfl

theorem forall_not_imp_iff {rules : List (NrRule Re)} {name : Bytes} {p : Prop} :
    ((∀ rule ∈ rules, ¬ RuleMatches find rule name) → p) ↔
      (∃ rule ∈ rules, RuleMatches find rule name) ∨ p := by
  rw [imp_iff_not_or]
  simp only [not_forall, not_not, exists_prop]

theorem keepsUnmatchedName_iff (hfind : MatchesWithin find) {rules : List (NrRule Re)}
    (hrules : RulesOk find rules) {name : Bytes} (hname : 0 ∉ name) :
    KeepsUnmatchedName find rules name ↔
      (∃ rule ∈ rules, RuleMatches find rule name) ∨
        NothingFound find rules (name.take (nruleBufSize - 1)) := by
  rw [KeepsUnmatchedName, forall_not_imp_iff]
  simp only [nrRulesApply_unchanged_iff hfind hrules hname, forall_const]

theorem txnKeepsUnmatchedName_iff (hfind : MatchesWithin find) {rules : List (NrRule Re)}
    (hrules : RulesOk find rules) {txn : NamedTxn} {name : Bytes} (htxn : txn.name = some name)
    (hname : 0 ∉ name) :
    TxnKeepsUnmatchedName find rules txn name ↔
      (∃ rule ∈ rules, RuleMatches find rule name) ∨
        NothingFound find rules (snprintf512 name) := by
  have hgiven : 0 ∉ snprintf512 name := fun hmem => hname (List.mem_of_mem_take hmem)
  have hshort : (snprintf512 name).take (nruleBufSize - 1) = snprintf512 name := by
    rw [snprintf512, List.take_take]
    rfl
  have hanswer : ∀ rounds, (∃ result newName,
      nrRulesApply find (rounds + 1) rules (snprintf512 name) = .ok (result, newName) ∧
        result = .unchanged ∧
        (nrTxnApplyTxnRules txn (some fun _ => (result, newName.getD []))).1.name = some name) ↔
      NothingFound find rules (snprintf512 name) := by
    intro rounds
    rw [← hshort, ← nrRulesApply_unchanged_iff hfind hrules hgiven rounds, hshort]
    constructor
    · rintro ⟨_, newName, happly, rfl, -⟩
      rw [happly, eq_none_of_unchanged happly]
    · intro happly
      refine ⟨_, _, happly, rfl, ?_⟩
      simp only [nrTxnApplyTxnRules, htxn]
  rw [TxnKeepsUnmatchedName, forall_not_imp_iff]
  simp only [hanswer, forall_const]

end

/-! ### Patterns without special characters -/

section Literal

/-- The first place at which a text stands. -/
def literal : Engine Bytes := fun re s pos =>
  ((List.range (s.length + 1)).find? fun i => decide (pos ≤ i) && re.isPrefixOf (s.drop i)).map
    fun i => { start := i, stop := i + re.length, groups := [] }

theorem matchesWithin_literal : MatchesWithin literal := by
  intro re s m hm
  obtain ⟨i, hi, rfl⟩ := Option.map_eq_some_iff.mp hm
  have hfound := List.find?_some hi
  have hrange := List.mem_range.mp (List.mem_of_find?_eq_some hi)
  simp only [Bool.and_eq_true, List.isPrefixOf_iff_prefix] at hfound
  have hlength := hfound.2.length_le
  rw [List.length_drop] at hlength
  exact ⟨Nat.le_add_right _ _, show i + re.length ≤ s.length by omega⟩

theorem groupsWithin_literal : GroupsWithin literal := by
  intro _ s m hm i j hmem
  obtain ⟨k, -, rfl⟩ := Option.map_eq_some_iff.mp hm
  cases hmem

def rawLiteral (pattern replacement : Bytes) (eachSegment : Bool) : RawRule where
  matchExpression := some pattern
  replacement := some replacement
  ignore := false
  eachSegment
  replaceAll := false
  terminateChain := false
  evalOrder := none

def literalRule (pattern replacement : Bytes) (eachSegment : Bool) : NrRule Bytes where
  eachSegment
  ignore := false
  replaceAll := false
  terminate := false
  hasAlts := pattern.contains 0x7c
  hasCaptures := hasCaptures replacement
  order := nrRuleDefaultOrder
  replacement
  regex := pattern

theorem nrRulesProcessRule_literal {pattern : Bytes} (hpattern : pattern ≠ []) (replacement : Bytes)
    (eachSegment : Bool) :
    nrRulesProcessRule some (rawLiteral pattern replacement eachSegment) =
      some (literalRule pattern replacement eachSegment) := by
  rw [nrRulesProcessRule, rawLiteral]
  simp only [reduceCtorEq, false_and, if_false, if_neg hpattern]
  rfl

end Literal

section

variable {Re : Type} {find : Engine Re}

instance (rule : NrRule Re) (name : Bytes) : Decidable (RuleMatches find rule name) :=
  inferInstanceAs (Decidable (if forSegments rule = true
    then ∃ segment ∈ segmentsOf name, (find rule.regex segment 0).isSome = true
    else (find rule.regex name 0).isSome = true))

instance (rules : List (NrRule Re)) (str : Bytes) : Decidable (NothingFound find rules str) :=
  inferInstanceAs (Decidable (_ ∧ _))

/-- Where no rule matches a name, it is kept exactly if nothing is found in what the rules are
given of it; and a rule for every segment changes what it matches, and no more, exactly if there is
room and there is a slash in front of the string. -/
theorem rules_change_only_matches_iff (hfind : MatchesWithin find) (hgroups : GroupsWithin find)
    {rules : List (NrRule Re)} (hreplacement : ∀ rule ∈ rules, 0 ∉ rule.replacement) {name : Bytes}
    (hname : 0 ∉ name) :
    (KeepsUnmatchedName find rules name ↔
      (∃ rule ∈ rules, RuleMatches find rule name) ∨
        NothingFound find rules (name.take (nruleBufSize - 1))) ∧
    (∀ txn : NamedTxn, txn.name = some name →
      (TxnKeepsUnmatchedName find rules txn name ↔
        (∃ rule ∈ rules, RuleMatches find rule name) ∨
          NothingFound find rules (snprintf512 name))) ∧
    ∀ rule ∈ rules, forSegments rule = true → ∀ b : Buffers, b.Ok →
      (KeepsSegments find rule b ↔
        RuleFits find rule b ∧ (b.textFrom 0).head? = some 0x2f) := by
  have hwidths : ∀ rule ∈ rules, WidthsOk find rule := fun rule _ => widthsOk hfind hgroups rule
  refine ⟨keepsUnmatchedName_iff hfind ⟨hwidths, hreplacement⟩ hname, fun txn htxn => ?_, ?_⟩
  · exact txnKeepsUnmatchedName_iff hfind ⟨hwidths, hreplacement⟩ htxn hname
  · intro rule hmem hmode b hb
    exact keepsSegments_iff (hwidths rule hmem) (hreplacement rule hmem) hb hmode

end

theorem slashed_name_is_kept :
    KeepsUnmatchedName literal [literalRule (ascii "a") (ascii "b") true] (ascii "/Web/c") :=
  (rules_change_only_matches_iff matchesWithin_literal groupsWithin_literal (by decide)
    (by decide)).1.mpr (.inr (by decide))

/-- The first byte of a name without a slash in front is lost: to the string that a rule for
every segment leaves, and to the rules behind it, which may match what is left. -/
theorem first_byte_is_lost :
    MatchesWithin literal ∧ GroupsWithin literal ∧
      nrRulesProcessRule some (rawLiteral (ascii "a") (ascii "b") true) =
        some (literalRule (ascii "a") (ascii "b") true) ∧
      nrRulesProcessRule some (rawLiteral (ascii "/eb") (ascii "/b") false) =
        some (literalRule (ascii "/eb") (ascii "/b") false) ∧
      ¬ KeepsSegments literal (literalRule (ascii "a") (ascii "b") true)
        (Buffers.load (ascii "Web/a")) ∧
      ¬ KeepsUnmatchedName literal [literalRule (ascii "a") (ascii "b") true,
        literalRule (ascii "/eb") (ascii "/b") false] (ascii "Web/c") := by
  have hwidths := widthsOk matchesWithin_literal groupsWithin_literal
  refine ⟨matchesWithin_literal, groupsWithin_literal, nrRulesProcessRule_literal (by decide) _ _,
    nrRulesProcessRule_literal (by decide) _ _, ?_, ?_⟩
  · have hname : (Buffers.load (ascii "Web/a")).textFrom 0 = ascii "Web/a" :=
      Buffers.textFrom_load (by decide)
    rw [keepsSegments_iff (hwidths _) (by decide) (Buffers.ok_load _) rfl, hname]
    exact fun h => absurd h.2 (by decide)
  · rw [keepsUnmatchedName_iff matchesWithin_literal ⟨fun rule _ => hwidths rule, by decide⟩ (by decide)]
    decide

end Buffered

end AxiomDaemon.Axiom

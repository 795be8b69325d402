import AxiomDaemon.Axiom.RuleBuffers

/-!
Which rules stay in their buffers. How much a rule writes follows from the offsets
of its matches: a text is as long as the pieces of the template are wide. What is
written then is what the rule makes of the string.
-/

namespace AxiomDaemon.Axiom

open AxiomDaemon.Lib CText StateTransition

namespace Buffered

/-! ### Applying a rule -/

section

variable {Re : Type}

/-- How long a segment is after the rule. -/
def segmentWidth (find : Engine Re) (rule : NrRule Re) (segment : Bytes) : ℕ :=
  match find rule.regex segment 0 with
  | some ss => rule.width ss
  | none => segment.length

/-- The room that a rule needs for the string in a buffer. -/
def RuleFits (find : Engine Re) (rule : NrRule Re) (b : Buffers) : Prop :=
  if rule.ignore || !(rule.eachSegment || rule.replaceAll) then
    -- a replacement that is copied as it is is cut off at the size of a buffer
    ∀ ss, find rule.regex (b.textFrom 0) 0 = some ss → rule.ignore = false →
      ss.start + min (rule.width ss) (nruleBufSize - 1) + ((b.textFrom 0).length - ss.stop) <
          nruleBufSize ∧
        (rule.hasCaptures = true → rule.width ss < nruleBufSize)
  else if rule.eachSegment then
    ((splitSlash (b.textFrom 1)).map fun segment => 1 + segmentWidth find rule segment).sum <
      nruleBufSize
  else
    ∀ s, Reaches (scanRound find rule (b.textFrom 0)) (0, 0) s →
      RoundFits find rule (b.textFrom 0) s

variable {find : Engine Re} {rule : NrRule Re} {b : Buffers}

theorem length_segmentText (hwidths : WidthsOk find rule) (segment : Bytes) :
    (segmentText find rule segment).length = 1 + segmentWidth find rule segment := by
  rw [segmentText, segmentWidth, applySegment, nrRegexMatchCapture, List.length_cons, Nat.add_comm]
  cases hss : find rule.regex segment 0 with
  | none => rfl
  | some ss => exact congrArg (1 + ·) (hwidths segment ss hss)

theorem nrRuleApply_each (hignore : rule.ignore = false) (heach : rule.eachSegment = true)
    (rounds : ℕ) :
    nrRuleApply find rounds rule b = (do
      let (repl, work, changed) ←
        eachSegmentLoop find rule (splitSlash (b.textFrom 1)) b.repl [] false
      let cells ← strcpyOver (cutSegments b.str) work
      return (if changed then .changed else .unchanged, { str := cells, repl })) := by
  simp only [nrRuleApply, hignore, heach]
  rfl

theorem nrRuleApply_all (hignore : rule.ignore = false) (heach : rule.eachSegment = false)
    (hall : rule.replaceAll = true) (rounds : ℕ) :
    nrRuleApply find rounds rule b = (do
      let (repl, work, changed) ←
        replaceAllLoop find rule (b.textFrom 0) rounds 0 true b.repl [] false
      let cells ← strcpyOver b.str work
      return (if changed then .changed else .unchanged, { str := cells, repl })) := by
  simp only [nrRuleApply, hignore, heach, hall]
  rfl

/-- What a rule leaves behind: its result, and the string in buffers that are as before. -/
structure Leaves (result : NrRulesResult) (text : Bytes) (r : NrRulesResult × Buffers) : Prop where
  result_eq : r.1 = result
  ok : r.2.Ok
  text_eq : r.2.textFrom 0 = text

/-- The last copy, from `work` back to the string. -/
theorem copyBack_eq {b : Buffers} (hb : b.Ok) {repl work : Bytes}
    (hrepl : repl.length = nruleBufSize) (hzero : 0 ∉ work) (hwork : work.length < nruleBufSize)
    (result : NrRulesResult) :
    ∃ r, (do let cells ← strcpyOver b.str work
             return (result, ({ str := cells, repl } : Buffers))) = .ok r ∧ Leaves result work r := by
  obtain ⟨cells, hcopy, rfl, -⟩ :=
    (strcpyOver_writesIf b.str work).ok (hb.length_str.symm ▸ hwork)
  rw [hcopy]
  exact ⟨_, rfl, rfl, hb.copyBack hrepl hwork, Buffers.textFrom_copyBack hzero⟩

theorem zero_notMem_segmentText (hreplacement : 0 ∉ rule.replacement) {segment : Bytes}
    (hsegment : 0 ∉ segment) : 0 ∉ segmentText find rule segment := by
  intro hmem
  rcases List.mem_cons.mp hmem with heq | hmem
  · cases heq
  cases hss : nrRegexMatchCapture find rule.regex segment with
  | none =>
      rw [applySegment_none hss] at hmem
      exact hsegment hmem
  | some ss =>
      rw [applySegment_some hss] at hmem
      exact NrRule.zero_notMem_text hreplacement hsegment ss hmem

theorem each_writesIf (hwidths : WidthsOk find rule) (hreplacement : 0 ∉ rule.replacement)
    (hb : b.Ok) (hignore : rule.ignore = false) (heach : rule.eachSegment = true) (rounds : ℕ) :
    WritesIf
      (((splitSlash (b.textFrom 1)).map fun segment => 1 + segmentWidth find rule segment).sum <
        nruleBufSize)
      (Leaves
        (if (splitSlash (b.textFrom 1)).any fun segment => (applySegment find rule segment).1 then
          .changed else .unchanged)
        ((splitSlash (b.textFrom 1)).flatMap (segmentText find rule)))
      (nrRuleApply find rounds rule b) := by
  have hsegments : ∀ segment ∈ splitSlash (b.textFrom 1), 0 ∉ segment := fun segment hmem hzero =>
    b.zero_notMem_textFrom 1 (mem_of_mem_splitSlash hmem hzero)
  have hloop : WritesIf _ _
      (eachSegmentLoop find rule (splitSlash (b.textFrom 1)) b.repl [] false) :=
    eachSegmentLoop_writesIf hreplacement hsegments hb.length_repl (by decide) false
  rw [List.length_nil, Nat.zero_add, List.length_flatMap] at hloop
  simp only [length_segmentText hwidths, List.nil_append, Bool.false_or] at hloop
  rw [nrRuleApply_each hignore heach]
  refine hloop.bind id fun hfits r hr => ?_
  obtain ⟨repl, work, changed⟩ := r
  obtain ⟨hrepl, hwork, hchanged⟩ := hr
  simp only at hrepl hwork hchanged ⊢
  subst hwork hchanged
  have hzero : 0 ∉ (splitSlash (b.textFrom 1)).flatMap (segmentText find rule) := fun hmem => by
    obtain ⟨segment, hseg, hmem⟩ := List.mem_flatMap.mp hmem
    exact zero_notMem_segmentText hreplacement (hsegments segment hseg) hmem
  have hlength : ((splitSlash (b.textFrom 1)).flatMap (segmentText find rule)).length <
      nruleBufSize := by
    rw [List.length_flatMap]
    simpa only [length_segmentText hwidths] using hfits
  exact ⟨fun _ => copyBack_eq hb.cut hrepl hzero hlength _, fun hnot => absurd hfits hnot⟩

theorem nrRuleApply_first (hignore : rule.ignore = false) (heach : rule.eachSegment = false)
    (hall : rule.replaceAll = false) {ss : Match}
    (hss : find rule.regex (b.textFrom 0) 0 = some ss) (rounds : ℕ) :
    nrRuleApply find rounds rule b = (do
      let work ← strcpyBehind [] ((b.textFrom 0).take ss.start)
      let (repl, text) ← replacementOf rule b.repl (b.textFrom 0) ss
      let work ← strlcpyBehind work text
      let work ← strcpyBehind work ((b.textFrom 0).drop ss.stop)
      let cells ← strcpyOver b.str work
      return (.changed, { str := cells, repl })) := by
  simp only [nrRuleApply, hignore, heach, hall, nrRegexMatchCapture, hss]
  rfl

theorem first_writesIf (hfind : MatchesWithin find) (hwidths : WidthsOk find rule)
    (hreplacement : 0 ∉ rule.replacement) (hb : b.Ok) (hignore : rule.ignore = false)
    (heach : rule.eachSegment = false) (hall : rule.replaceAll = false) {ss : Match}
    (hss : find rule.regex (b.textFrom 0) 0 = some ss) (rounds : ℕ) :
    WritesIf
      (ss.start + min (rule.width ss) (nruleBufSize - 1) + ((b.textFrom 0).length - ss.stop) <
          nruleBufSize ∧
        (rule.hasCaptures = true → rule.width ss < nruleBufSize))
      (Leaves .changed ((b.textFrom 0).take ss.start ++
        (rule.text (b.textFrom 0) ss).take (nruleBufSize - 1) ++ (b.textFrom 0).drop ss.stop))
      (nrRuleApply find rounds rule b) := by
  have hstr := b.zero_notMem_textFrom 0
  have hzero := NrRule.zero_notMem_text hreplacement hstr ss
  have hlength := hwidths _ _ hss
  obtain ⟨hstart, hstop⟩ := hfind _ _ _ hss
  have hbefore : ((b.textFrom 0).take ss.start).length = ss.start :=
    List.length_take_of_le (hstart.trans hstop)
  have hsize := hb.length_textFrom_lt (k := 0) (by decide)
  rw [nrRuleApply_first hignore heach hall hss]
  refine (strcpyBehind_writesIf [] _).bind (fun _ => ?_) fun _ work₁ hwork₁ => ?_
  · rw [hbefore, List.length_nil]
    omega
  rw [List.nil_append] at hwork₁
  refine (replacementOf_writesIf hb.length_repl hzero).bind (fun hfits hcap => ?_) ?_
  · rw [hlength]
    exact hfits.2 hcap
  rintro hcap ⟨repl, text⟩ ⟨hrepl, htext⟩
  simp only at hrepl htext ⊢
  subst htext
  refine (strcpyBehind_writesIf work₁ _).bind (fun hfits => ?_) fun _ work₂ hwork₂ => ?_
  · rw [hwork₁, hbefore, List.length_take, hlength]
    omega
  refine (strcpyBehind_writesIf work₂ _).bind (fun hfits => ?_) fun hfits work₃ hwork₃ => ?_
  · rw [hwork₂, List.length_append, hwork₁, hbefore, List.length_take, hlength, List.length_drop]
    omega
  have hwork : work₃ = (b.textFrom 0).take ss.start ++
      (rule.text (b.textFrom 0) ss).take (nruleBufSize - 1) ++ (b.textFrom 0).drop ss.stop := by
    rw [hwork₃, hwork₂, hwork₁]
  have hnot : 0 ∉ work₃ := by
    rw [hwork, List.mem_append, List.mem_append]
    rintro ((hmem | hmem) | hmem)
    · exact hstr (List.mem_of_mem_take hmem)
    · exact hzero (List.mem_of_mem_take hmem)
    · exact hstr (List.mem_of_mem_drop hmem)
  refine ⟨fun _ => ?_, fun hnotfits => absurd ⟨?_, ?_⟩ hnotfits⟩
  · rw [← hwork]
    exact copyBack_eq hb hrepl hnot (by rw [hwork₃, List.length_append]; exact hfits) .changed
  · rw [hwork₂, List.length_append, hwork₁, hbefore, List.length_take, hlength,
      List.length_drop] at hfits
    omega
  · exact fun h => hlength ▸ hcap h

theorem all_yields (hfind : MatchesWithin find) (hwidths : WidthsOk find rule)
    (hreplacement : 0 ∉ rule.replacement) (hb : b.Ok) (hignore : rule.ignore = false)
    (heach : rule.eachSegment = false) (hall : rule.replaceAll = true) (rounds : ℕ) :
    Yields (fun e => e = .deep ∨ e = .write ∧ ∃ s,
        Reaches (scanRound find rule (b.textFrom 0)) (0, 0) s ∧
          ¬ RoundFits find rule (b.textFrom 0) s)
      (fun r => ∃ text, replaceAllFrom find rule (b.textFrom 0) rounds 0 none = some text ∧
        Leaves (if (find rule.regex (b.textFrom 0) 0).isSome then .changed else .unchanged) text r)
      (nrRuleApply find rounds rule b) := by
  have hstart : ReplHolds rule true b.repl := ⟨hb.length_repl, nofun⟩
  have hloop : Yields _ _
      (replaceAllLoop find rule (b.textFrom 0) rounds 0 true b.repl [] false) :=
    replaceAllLoop_yields hfind hwidths hreplacement (b.zero_notMem_textFrom 0) rounds 0 hstart
      List.not_mem_nil false none (by simp)
  rw [nrRuleApply_all hignore heach hall]
  refine hloop.bind fun r hr => ?_
  obtain ⟨repl, work, changed⟩ := r
  obtain ⟨hrepl, hzero, hwork, htext, hchanged⟩ := hr
  obtain ⟨r, hr, hleaves⟩ := copyBack_eq hb hrepl hzero hwork (if changed then .changed else .unchanged)
  simp only [hr]
  refine ⟨work, by simpa using htext, ?_⟩
  rwa [show changed = _ from hchanged, Bool.false_or] at hleaves

/-- However many rounds there are, nothing is written outside of the buffers, and what is left
in them ends there. -/
def RuleSafe (find : Engine Re) (rule : NrRule Re) (b : Buffers) : Prop :=
  ∀ rounds, Yields (· ≠ .write) (fun r => r.2.Ok) (nrRuleApply find rounds rule b)

/-- `nr_rule_replace_string` stays in its memory, and there is a zero in it then. -/
def ReplaceSafe (repl cells subject : Bytes) (ss : Match) : Prop :=
  Yields (· ≠ .write)
    (fun cells' => cells'.length = cells.length ∧ (cells ≠ [] → (0 : UInt8) ∈ cells'))
    (nrRuleReplaceString repl cells subject ss)

theorem replaceSafe_iff (repl cells : Bytes) {subject : Bytes} {ss : Match}
    (hsub : ∀ n, (ss.text subject n).length = ss.width n) :
    ReplaceSafe repl cells subject ss ↔ cells = [] ∨ templateWidth ss repl < cells.length := by
  rw [ReplaceSafe]
  by_cases hcells : cells = []
  · subst hcells
    exact ⟨fun _ => .inl rfl, fun _ => ⟨rfl, fun hne => absurd rfl hne⟩⟩
  · have hwrites := nrRuleReplaceString_writesIf hcells repl subject ss rfl
    rw [length_nrRuleReplaceString hsub] at hwrites
    rw [or_iff_right hcells]
    refine (hwrites.congr .rfl fun cells' h => ?_).yields_iff
    obtain ⟨hlength, rest, rfl⟩ := h
    exact ⟨hlength, fun _ => by simp⟩

theorem nrRuleApply_ignore (hignore : rule.ignore = true) (rounds : ℕ) :
    nrRuleApply find rounds rule b =
      .ok (if (find rule.regex (b.textFrom 0) 0).isSome then .ignore else .unchanged, b) := by
  simp only [nrRuleApply, hignore, Bool.true_or, if_true, nrRegexMatchCapture]
  cases find rule.regex (b.textFrom 0) 0 <;> rfl

theorem nrRuleApply_noMatch (heach : rule.eachSegment = false) (hall : rule.replaceAll = false)
    (hss : find rule.regex (b.textFrom 0) 0 = none) (rounds : ℕ) :
    nrRuleApply find rounds rule b = .ok (.unchanged, b) := by
  simp only [nrRuleApply, heach, hall, Bool.or_self, Bool.not_false, Bool.or_true, if_true,
    nrRegexMatchCapture, hss]

theorem ruleSafe_of_eq {result : NrRulesResult} (hb : b.Ok)
    (h : ∀ rounds, nrRuleApply find rounds rule b = .ok (result, b)) : RuleSafe find rule b :=
  fun rounds => by
    rw [h rounds]
    exact hb

/-- The four ways that `nr_rule_apply` can take. -/
theorem modes (rule : NrRule Re) :
    rule.ignore = true ∨ (rule.ignore = false ∧ rule.eachSegment = true) ∨
      (rule.ignore = false ∧ rule.eachSegment = false ∧ rule.replaceAll = false) ∨
        (rule.ignore = false ∧ rule.eachSegment = false ∧ rule.replaceAll = true) := by
  cases rule.ignore <;> cases rule.eachSegment <;> cases rule.replaceAll <;> simp

theorem ruleFits_ignore (hignore : rule.ignore = true) : RuleFits find rule b := by
  simp [RuleFits, hignore]

theorem ruleFits_each (hignore : rule.ignore = false) (heach : rule.eachSegment = true) :
    RuleFits find rule b ↔
      ((splitSlash (b.textFrom 1)).map fun segment => 1 + segmentWidth find rule segment).sum <
        nruleBufSize := by
  simp [RuleFits, hignore, heach]

theorem ruleFits_first (hignore : rule.ignore = false) (heach : rule.eachSegment = false)
    (hall : rule.replaceAll = false) :
    RuleFits find rule b ↔ ∀ ss, find rule.regex (b.textFrom 0) 0 = some ss →
      ss.start + min (rule.width ss) (nruleBufSize - 1) + ((b.textFrom 0).length - ss.stop) <
          nruleBufSize ∧
        (rule.hasCaptures = true → rule.width ss < nruleBufSize) := by
  simp [RuleFits, hignore, heach, hall]

theorem ruleFits_all (hignore : rule.ignore = false) (heach : rule.eachSegment = false)
    (hall : rule.replaceAll = true) :
    RuleFits find rule b ↔ ∀ s, Reaches (scanRound find rule (b.textFrom 0)) (0, 0) s →
      RoundFits find rule (b.textFrom 0) s := by
  simp only [RuleFits, hignore, heach, hall, Bool.or_true, Bool.not_true, Bool.or_self,
    Bool.false_eq_true, if_false]

theorem ruleSafe_each_iff (hwidths : WidthsOk find rule) (hreplacement : 0 ∉ rule.replacement)
    (hb : b.Ok) (hignore : rule.ignore = false) (heach : rule.eachSegment = true) :
    RuleSafe find rule b ↔ RuleFits find rule b := by
  have hiff := fun rounds => ((each_writesIf hwidths hreplacement hb hignore heach rounds).congr
    .rfl fun r h => h.ok).yields_iff
  rw [ruleFits_each hignore heach]
  exact ⟨fun h => (hiff 0).mp (h 0), fun hfits rounds => (hiff rounds).mpr hfits⟩

theorem ruleSafe_first_iff (hfind : MatchesWithin find) (hwidths : WidthsOk find rule)
    (hreplacement : 0 ∉ rule.replacement) (hb : b.Ok) (hignore : rule.ignore = false)
    (heach : rule.eachSegment = false) (hall : rule.replaceAll = false) :
    RuleSafe find rule b ↔ RuleFits find rule b := by
  rw [ruleFits_first hignore heach hall]
  cases hss : find rule.regex (b.textFrom 0) 0 with
  | none =>
      exact ⟨fun _ => nofun, fun _ => ruleSafe_of_eq hb (nrRuleApply_noMatch heach hall hss)⟩
  | some ss =>
      have hiff := fun rounds => ((first_writesIf hfind hwidths hreplacement hb hignore heach hall
        hss rounds).congr .rfl fun r h => h.ok).yields_iff
      refine ⟨fun h ss' hss' => ?_, fun hfits rounds => (hiff rounds).mpr (hfits ss rfl)⟩
      cases hss'
      exact (hiff 0).mp (h 0)

theorem ruleSafe_all_iff (hfind : MatchesWithin find) (hwidths : WidthsOk find rule)
    (hreplacement : 0 ∉ rule.replacement) (hb : b.Ok) (hignore : rule.ignore = false)
    (heach : rule.eachSegment = false) (hall : rule.replaceAll = true) :
    RuleSafe find rule b ↔ RuleFits find rule b := by
  rw [ruleFits_all hignore heach hall]
  constructor
  · intro h s hreach
    by_contra hnot
    have hstart : ReplHolds rule true b.repl := ⟨hb.length_repl, nofun⟩
    obtain ⟨rounds, hfault⟩ : ∃ rounds, replaceAllLoop find rule (b.textFrom 0) rounds 0 true b.repl
        [] false = .error .write :=
      exists_replaceAllLoop_fault hfind hwidths hreplacement (b.zero_notMem_textFrom 0) hstart false
        hreach hnot
    have hsafe := h rounds
    rw [nrRuleApply_all hignore heach hall, hfault] at hsafe
    exact hsafe rfl
  · intro hfits rounds
    refine (all_yields hfind hwidths hreplacement hb hignore heach hall rounds).imp ?_ ?_
    · rintro e (rfl | ⟨-, s, hreach, hnot⟩)
      · decide
      · exact absurd (hfits s hreach) hnot
    · rintro r ⟨text, -, hleaves⟩
      exact hleaves.ok

/-- `nr_rule_apply` writes outside of its buffers unless there is room for what the rule
writes. -/
theorem ruleSafe_iff (hfind : MatchesWithin find) (hwidths : WidthsOk find rule)
    (hreplacement : 0 ∉ rule.replacement) (hb : b.Ok) :
    RuleSafe find rule b ↔ RuleFits find rule b := by
  rcases modes rule with hignore | ⟨hignore, heach⟩ | ⟨hignore, heach, hall⟩ | ⟨hignore, heach, hall⟩
  · exact iff_of_true (ruleSafe_of_eq hb (nrRuleApply_ignore hignore)) (ruleFits_ignore hignore)
  · exact ruleSafe_each_iff hwidths hreplacement hb hignore heach
  · exact ruleSafe_first_iff hfind hwidths hreplacement hb hignore heach hall
  · exact ruleSafe_all_iff hfind hwidths hreplacement hb hignore heach hall

end

/-! ### A rule for the segments with an x -/

section XSegments

/-- `each_segment` with the pattern `x`. -/
def rawXSegments (replacement : Bytes) : RawRule where
  matchExpression := some (ascii "x")
  replacement := some replacement
  ignore := false
  eachSegment := true
  replaceAll := false
  terminateChain := false
  evalOrder := none

def xSegments (replacement : Bytes) : NrRule Unit where
  eachSegment := true
  ignore := false
  replaceAll := false
  terminate := false
  hasAlts := false
  hasCaptures := hasCaptures replacement
  order := nrRuleDefaultOrder
  replacement
  regex := ()

theorem groupsWithin_oneX : GroupsWithin oneX := by
  intro _ s m hm i j hmem
  obtain ⟨k, -, rfl⟩ := Option.map_eq_some_iff.mp hm
  cases hmem

theorem hasCaptures_replicate {ch : UInt8} (hch : ch ≠ backslash) (n : ℕ) :
    hasCaptures (List.replicate n ch) = false := by
  have hdrop : (List.replicate n ch).dropWhile (fun b => b ≠ backslash) = [] := by
    rw [List.dropWhile_eq_nil_iff]
    intro b hb
    rw [List.eq_of_mem_replicate hb]
    exact decide_eq_true hch
  rw [hasCaptures, hdrop]

theorem segmentWidth_x {replacement : Bytes} (h : hasCaptures replacement = false) :
    segmentWidth oneX (xSegments replacement) (ascii "x") = replacement.length := by
  have hwidth : segmentWidth oneX (xSegments replacement) (ascii "x") =
      (xSegments replacement).width { start := 0, stop := 1, groups := [] } := rfl
  rw [hwidth, NrRule.width, xSegments, h]
  rfl

end XSegments

section

variable {Re : Type} {find : Engine Re} {rule : NrRule Re}

/-- Nothing is written outside of the buffers of a rule exactly if there is room for what
it writes, and `nr_rule_replace_string` stays in its memory exactly if its text does,
with the zero behind it. -/
theorem rule_stays_in_buffers_iff (hfind : MatchesWithin find) (hgroups : GroupsWithin find)
    (hreplacement : 0 ∉ rule.replacement) :
    (∀ subject ss cells, find rule.regex subject 0 = some ss →
      (ReplaceSafe rule.replacement cells subject ss ↔
        cells = [] ∨ templateWidth ss rule.replacement < cells.length)) ∧
    ∀ b : Buffers, b.Ok → (RuleSafe find rule b ↔ RuleFits find rule b) := by
  refine ⟨fun subject ss cells hss => replaceSafe_iff _ cells ?_, fun b hb => ?_⟩
  · exact Match.length_text (hfind _ _ _ hss).2 fun i j hmem => (hgroups _ _ _ hss i j hmem).2
  · exact ruleSafe_iff hfind (widthsOk hfind hgroups rule) hreplacement hb

end

theorem segment_stays_in_buffers :
    RuleSafe oneX (xSegments (ascii "yy")) (Buffers.load (ascii "/x/a")) := by
  have hname : (Buffers.load (ascii "/x/a")).textFrom 1 = ascii "x/a" :=
    Buffers.textFrom_one (Buffers.textFrom_load (by decide))
  refine ((rule_stays_in_buffers_iff matchesWithin_oneX groupsWithin_oneX (by decide)).2 _
    (Buffers.ok_load _)).mpr ?_
  rw [ruleFits_each rfl rfl, hname]
  decide

/-- 2048 bytes in the place of one segment, and a template for memory of two bytes. -/
theorem long_replacement_overruns :
    MatchesWithin oneX ∧ GroupsWithin oneX ∧
      nrRulesProcessRule (fun _ => some ()) (rawXSegments (List.replicate nruleBufSize 0x79)) =
        some (xSegments (List.replicate nruleBufSize 0x79)) ∧
      nrRulesApply oneX 0 [xSegments (List.replicate nruleBufSize 0x79)] (ascii "/x") =
        .error .write ∧
      nrRuleReplaceString (ascii "\\1\\1\\1") [0, 0] (ascii "rrabcbqrstuas111")
        { start := 0, stop := 11, groups := [some (2, 5), some (8, 11)] } = .error .write := by
  have hname : (Buffers.load (ascii "/x")).textFrom 1 = ascii "x" :=
    Buffers.textFrom_one (Buffers.textFrom_load (by decide))
  have hreplacement : 0 ∉ (xSegments (List.replicate nruleBufSize 0x79)).replacement := fun hmem =>
    absurd (List.eq_of_mem_replicate hmem) (by decide)
  have hfault := (each_writesIf (widthsOk matchesWithin_oneX groupsWithin_oneX _) hreplacement
    (Buffers.ok_load (ascii "/x")) rfl rfl 0).fault
  refine ⟨matchesWithin_oneX, groupsWithin_oneX, rfl, ?_, by decide⟩
  rw [nrRulesApply, nrRulesApplyLoop, hfault]
  · rfl
  · have hplain : (0x79 : UInt8) ≠ backslash := by decide
    have hsegments : splitSlash (ascii "x") = [ascii "x"] := by decide
    rw [hname, hsegments, List.map_singleton, List.sum_singleton,
      segmentWidth_x (hasCaptures_replicate hplain nruleBufSize), List.length_replicate]
    omega

end Buffered

end AxiomDaemon.Axiom

import AxiomDaemon.Axiom.RuleTemplate
import AxiomDaemon.Axiom.RuleTermination

/-!
`nr_rule_apply` with its buffers. The string is edited in place: a rule reads it,
puts the new string together in `work`, with the help of `repl`, and copies it
back. A write outside of one of the three buffers is a fault, also where the next
one begins there.

What `work` holds from before is not read, so only what a rule has written to it
is here. The loop of a rule that replaces all matches is given a number of
rounds; having too few is a fault of its own.
-/

namespace AxiomDaemon.Axiom

open AxiomDaemon.Lib CText StateTransition

namespace Buffered

/-- `NRULE_BUF_SIZE`. -/
def nruleBufSize : ℕ := 2048

/-- `str` and `repl`. -/
structure Buffers where
  str : Bytes
  repl : Bytes

/-- The buffers have their size, and the string ends in its own. -/
structure Buffers.Ok (b : Buffers) : Prop where
  length_str : b.str.length = nruleBufSize
  length_repl : b.repl.length = nruleBufSize
  last_str : b.str.getLast? = some 0

/-- The string that starts at an offset. -/
def Buffers.textFrom (b : Buffers) (k : ℕ) : Bytes := textAt 0 b.str k

/-- `wp = nr_strcpy (wp, text)`, and `nr_strxcpy` of a text of that length. -/
def strcpyBehind (work text : Bytes) : Checked Bytes := CText.sprintf nruleBufSize work text

/-- `wp = nr_strlcpy (wp, text, NRULE_BUF_SIZE)`. -/
def strlcpyBehind (work text : Bytes) : Checked Bytes :=
  strcpyBehind work (text.take (nruleBufSize - 1))

/-- `nr_strcpy (cells, text)`. -/
def strcpyOver (cells text : Bytes) : Checked Bytes :=
  if text.length + 1 ≤ cells.length then .ok (blockCopy cells 0 (text ++ [0])) else .error .write

section

variable {Re : Type}

/-- The replacement of a match, which is in `repl` if it has references. -/
def replacementOf (rule : NrRule Re) (repl subject : Bytes) (ss : Match) :
    Checked (Bytes × Bytes) :=
  if rule.hasCaptures then do
    let repl ← nrRuleReplaceString rule.replacement repl subject ss
    return (repl, textAt 0 repl 0)
  else return (repl, rule.replacement)

variable (find : Engine Re)

/-- One segment: `repl`, `work`, and whether there was a match. -/
def writeSegment (rule : NrRule Re) (segment repl work : Bytes) :
    Checked (Bytes × Bytes × Bool) := do
  let work ← strcpyBehind work [0x2f]
  match nrRegexMatchCapture find rule.regex segment with
  | some ss => do
      let (repl, text) ← replacementOf rule repl segment ss
      let work ← strcpyBehind work text
      return (repl, work, true)
  | none => do
      let work ← strcpyBehind work segment
      return (repl, work, false)

/-- The loop over the segments. -/
def eachSegmentLoop (rule : NrRule Re) :
    List Bytes → (repl work : Bytes) → (changed : Bool) → Checked (Bytes × Bytes × Bool)
  | [], repl, work, changed => .ok (repl, work, changed)
  | segment :: segments, repl, work, changed => do
      let (repl, work, found) ← writeSegment find rule segment repl work
      eachSegmentLoop rule segments repl work (changed || found)

/-- `repl` for a match of a rule that replaces all of them. -/
def fillRepl (rule : NrRule Re) (needReplacement : Bool) (repl subject : Bytes) (ss : Match) :
    Checked Bytes :=
  if needReplacement then
    if rule.hasCaptures then nrRuleReplaceString rule.replacement repl subject ss
    else strcpyOver repl rule.replacement
  else .ok repl

/-- One match in what is left of the string: `repl` and `work`. -/
def writeMatch (rule : NrRule Re) (subject : Bytes) (ss : Match) (needReplacement : Bool)
    (repl work : Bytes) : Checked (Bytes × Bytes) := do
  let work ← strcpyBehind work (subject.take ss.start)
  let repl ← fillRepl rule needReplacement repl subject ss
  let work ← strcpyBehind work (textAt 0 repl 0)
  return (repl, work)

/-- The loop over all matches. -/
def replaceAllLoop (rule : NrRule Re) (str : Bytes) :
    (rounds startpos : ℕ) → (needReplacement : Bool) → (repl work : Bytes) → (changed : Bool) →
      Checked (Bytes × Bytes × Bool)
  | 0, _, _, _, _, _ => .error .deep
  | rounds + 1, startpos, needReplacement, repl, work, changed =>
      match nrRegexMatchCapture find rule.regex (str.drop startpos) with
      | none => do
          let work ← strcpyBehind work (str.drop startpos)
          return (repl, work, changed)
      | some ss => do
          let (repl, work) ← writeMatch rule (str.drop startpos) ss needReplacement repl work
          replaceAllLoop rule str rounds (startpos + ss.stop)
            (needReplacement && (rule.hasAlts || rule.hasCaptures)) repl work true

/-- The zeros that the loop over the segments has put in the place of slashes. -/
def cutSegments (str : Bytes) : Bytes :=
  blockCopy str 1 ((textAt 0 str 1).map fun ch => if ch = 0x2f then 0 else ch)

/-- `nr_rule_apply`. -/
def nrRuleApply (rounds : ℕ) (rule : NrRule Re) (b : Buffers) :
    Checked (NrRulesResult × Buffers) :=
  let result (changed : Bool) : NrRulesResult := if changed then .changed else .unchanged
  let str := b.textFrom 0
  if rule.ignore || !(rule.eachSegment || rule.replaceAll) then
    match nrRegexMatchCapture find rule.regex str with
    | none => .ok (.unchanged, b)
    | some ss =>
        if rule.ignore then .ok (.ignore, b)
        else do
          let work ← strcpyBehind [] (str.take ss.start)
          let (repl, text) ← replacementOf rule b.repl str ss
          let work ← strlcpyBehind work text
          let work ← strcpyBehind work (str.drop ss.stop)
          let cells ← strcpyOver b.str work
          return (.changed, { str := cells, repl })
  else if rule.eachSegment then do
    -- the loop starts behind the first byte, whatever that is
    let (repl, work, changed) ←
      eachSegmentLoop find rule (splitSlash (b.textFrom 1)) b.repl [] false
    let cells ← strcpyOver (cutSegments b.str) work
    return (result changed, { str := cells, repl })
  else do
    let (repl, work, changed) ← replaceAllLoop find rule str rounds 0 true b.repl [] false
    let cells ← strcpyOver b.str work
    return (result changed, { str := cells, repl })

/-- The loop of `nr_rules_apply`. -/
def nrRulesApplyLoop (rounds : ℕ) :
    List (NrRule Re) → (changed : Bool) → Buffers → Checked (NrRulesResult × Buffers)
  | [], changed, b => .ok (if changed then .changed else .unchanged, b)
  | rule :: rules, changed, b => do
      match ← nrRuleApply find rounds rule b with
      | (.ignore, b) => return (.ignore, b)
      | (.unchanged, b) => nrRulesApplyLoop rounds rules changed b
      | (.changed, b) =>
          if rule.terminate then return (.changed, b) else nrRulesApplyLoop rounds rules true b

/-- The buffers, all zeros, with as much of the name as fits. -/
def Buffers.load (name : Bytes) : Buffers where
  str := blockCopy (List.replicate nruleBufSize 0) 0 (name.take (nruleBufSize - 1) ++ [0])
  repl := List.replicate nruleBufSize 0

/-- `nr_rules_apply`. -/
def nrRulesApply (rounds : ℕ) (rules : List (NrRule Re)) (name : Bytes) :
    Checked (NrRulesResult × Option Bytes) := do
  let (result, b) ← nrRulesApplyLoop find rounds rules false (Buffers.load name)
  return (result, if result = .changed then some (b.textFrom 0) else none)

end

/-! ### What the buffers hold -/

theorem strcpyBehind_writesIf (work text : Bytes) :
    WritesIf (work.length + text.length < nruleBufSize) (· = work ++ text)
      (strcpyBehind work text) :=
  sprintf_writesIf nruleBufSize work text

theorem length_append_zero_le {cells text : Bytes} (h : text.length < cells.length) :
    0 + (text ++ [0]).length ≤ cells.length := by
  rw [List.length_append, List.length_singleton]
  omega

theorem strcpyOver_writesIf (cells text : Bytes) :
    WritesIf (text.length < cells.length)
      (fun cells' => cells' = blockCopy cells 0 (text ++ [0]) ∧ cells'.length = cells.length)
      (strcpyOver cells text) :=
  ⟨fun hfits => ⟨_, if_pos hfits, rfl, length_blockCopy (length_append_zero_le hfits)⟩,
    fun hnot => if_neg hnot⟩

theorem getLast?_blockCopy_zero {cells : Bytes} (hlast : cells.getLast? = some 0) (text : Bytes) :
    (blockCopy cells 0 (text ++ [0])).getLast? = some 0 := by
  rw [blockCopy, List.take_zero, List.nil_append, List.getLast?_append]
  by_cases hdrop : cells.drop (0 + (text ++ [0]).length) = []
  · rw [hdrop]
    simp
  · rw [List.getLast?_drop, if_neg (by simpa using hdrop), hlast]
    rfl

theorem Buffers.zero_notMem_textFrom (b : Buffers) (k : ℕ) : 0 ∉ b.textFrom k :=
  not_mem_textAt 0 b.str k

theorem Buffers.Ok.copyBack {b : Buffers} (h : b.Ok) {repl work : Bytes}
    (hrepl : repl.length = nruleBufSize) (hwork : work.length < nruleBufSize) :
    Buffers.Ok { str := blockCopy b.str 0 (work ++ [0]), repl } := by
  have hlt : work.length < b.str.length := h.length_str.symm ▸ hwork
  exact ⟨(length_blockCopy (length_append_zero_le hlt)).trans h.length_str, hrepl,
    getLast?_blockCopy_zero h.last_str work⟩

theorem Buffers.textFrom_copyBack {b : Buffers} {repl work : Bytes} (hzero : 0 ∉ work) :
    Buffers.textFrom { str := blockCopy b.str 0 (work ++ [0]), repl } 0 = work :=
  textAt_blockCopy hzero (Nat.zero_le _)

/-- The string from an offset ends in front of a zero that is still in the buffer. -/
theorem Buffers.Ok.length_textFrom_lt {b : Buffers} (h : b.Ok) {k : ℕ} (hk : k < nruleBufSize) :
    k + (b.textFrom k).length < nruleBufSize := by
  have hlast : (b.str.drop k).getLast? = some 0 := by
    rw [List.getLast?_drop, if_neg (by rw [h.length_str]; omega), h.last_str]
  have hmem : (0 : UInt8) ∈ b.str.drop k := List.mem_of_getLast? hlast
  have hlt : (b.textFrom k).length < (b.str.drop k).length := by
    rw [Buffers.textFrom, textAt]
    refine Nat.lt_of_le_of_ne (List.takeWhile_prefix _).length_le fun heq => ?_
    have hall := (List.takeWhile_prefix _).eq_of_length heq
    exact not_mem_textAt 0 b.str k (by rw [textAt, hall]; exact hmem)
  rw [List.length_drop, h.length_str] at hlt
  omega

theorem Buffers.Ok.cut {b : Buffers} (h : b.Ok) :
    Buffers.Ok { b with str := cutSegments b.str } := by
  have hlt := h.length_textFrom_lt (k := 1) (by decide)
  rw [Buffers.textFrom] at hlt
  have hfit : 1 + ((textAt 0 b.str 1).map fun ch => if ch = 0x2f then 0 else ch).length ≤
      b.str.length := by
    rw [List.length_map, h.length_str]
    omega
  refine ⟨(length_blockCopy hfit).trans h.length_str, h.length_repl, ?_⟩
  rw [cutSegments, blockCopy, List.getLast?_append, List.getLast?_drop, List.length_map,
    if_neg (by rw [h.length_str]; omega), h.last_str]
  rfl

theorem Buffers.ok_load (name : Bytes) : (Buffers.load name).Ok := by
  have hzeros : Buffers.Ok { str := List.replicate nruleBufSize 0
                             repl := List.replicate nruleBufSize 0 } :=
    ⟨List.length_replicate, List.length_replicate, by rw [List.getLast?_replicate]; rfl⟩
  refine hzeros.copyBack List.length_replicate ?_
  rw [List.length_take, nruleBufSize]
  omega

theorem Buffers.textFrom_load {name : Bytes} (h : 0 ∉ name) :
    (Buffers.load name).textFrom 0 = name.take (nruleBufSize - 1) :=
  Buffers.textFrom_copyBack (b := { str := List.replicate nruleBufSize 0, repl := [] })
    fun hmem => h (List.mem_of_mem_take hmem)

theorem Buffers.textFrom_one {b : Buffers} {c : UInt8} {rest : Bytes}
    (h : b.textFrom 0 = c :: rest) : b.textFrom 1 = rest := by
  rw [Buffers.textFrom, textAt, List.drop_zero] at h
  rw [Buffers.textFrom, textAt]
  cases hstr : b.str with
  | nil =>
      rw [hstr] at h
      cases h
  | cons d cells =>
      rw [hstr, List.takeWhile_cons] at h
      split_ifs at h with hd
      exact (List.cons_eq_cons.mp h).2

/-! ### One match -/

section

variable {Re : Type} {rule : NrRule Re} {subject repl work : Bytes} {ss : Match}

/-- `repl` after `nr_rule_replace_string`. -/
theorem replaceString_writesIf (hrepl : repl.length = nruleBufSize)
    (hcap : rule.hasCaptures = true) (hzero : 0 ∉ rule.text subject ss) :
    WritesIf ((rule.text subject ss).length < nruleBufSize)
      (fun repl' => repl'.length = nruleBufSize ∧ textAt 0 repl' 0 = rule.text subject ss)
      (nrRuleReplaceString rule.replacement repl subject ss) := by
  have hne : repl ≠ [] := by
    rintro rfl
    cases hrepl
  have htext : rule.text subject ss = _ := if_pos hcap
  refine (nrRuleReplaceString_writesIf hne rule.replacement subject ss htext).congr (by rw [hrepl]) ?_
  rintro repl' ⟨hlength, rest, hrest⟩
  exact ⟨hlength.trans hrepl, textAt_of_drop hzero hrest⟩

theorem replacementOf_writesIf (hrepl : repl.length = nruleBufSize)
    (hzero : 0 ∉ rule.text subject ss) :
    WritesIf (rule.hasCaptures = true → (rule.text subject ss).length < nruleBufSize)
      (fun made => made.1.length = nruleBufSize ∧ made.2 = rule.text subject ss)
      (replacementOf rule repl subject ss) := by
  rw [replacementOf]
  split_ifs with hcap
  · exact ((replaceString_writesIf hrepl hcap hzero).map fun repl' h => h).congr
      ⟨fun h => h hcap, fun h _ => h⟩ fun _ h => h
  · exact .pure (fun h => absurd h hcap) ⟨hrepl, (if_neg hcap).symm⟩

/-- What is known of `repl` in the loop over all matches: a text without references is made
only once. -/
structure ReplHolds (rule : NrRule Re) (needReplacement : Bool) (repl : Bytes) : Prop where
  length_eq : repl.length = nruleBufSize
  made : needReplacement = false →
    rule.hasCaptures = false ∧ textAt 0 repl 0 = rule.replacement

theorem fillRepl_writesIf {needReplacement : Bool} (h : ReplHolds rule needReplacement repl)
    (hreplacement : 0 ∉ rule.replacement) (hzero : 0 ∉ rule.text subject ss) :
    WritesIf (needReplacement = true → (rule.text subject ss).length < nruleBufSize)
      (fun repl' => textAt 0 repl' 0 = rule.text subject ss ∧
        ReplHolds rule (needReplacement && (rule.hasAlts || rule.hasCaptures)) repl')
      (fillRepl rule needReplacement repl subject ss) := by
  rw [fillRepl]
  cases needReplacement with
  | false =>
      obtain ⟨hcap, hmade⟩ := h.made rfl
      have htext : rule.text subject ss = rule.replacement := if_neg (Bool.eq_false_iff.mp hcap)
      exact .pure (fun h => absurd h (by decide)) ⟨hmade.trans htext.symm, h⟩
  | true =>
      simp only [if_true, Bool.true_and]
      split_ifs with hcap
      · refine (replaceString_writesIf h.length_eq hcap hzero).congr
          ⟨fun h => h trivial, fun h _ => h⟩ fun repl' hmade => ?_
        refine ⟨hmade.2, hmade.1, fun hneed => ?_⟩
        rw [hcap, Bool.or_true] at hneed
        cases hneed
      · have htext : rule.text subject ss = rule.replacement := if_neg hcap
        rw [htext]
        refine (strcpyOver_writesIf repl rule.replacement).congr
          (by rw [h.length_eq]; exact ⟨fun h => h trivial, fun h _ => h⟩) ?_
        rintro repl' ⟨rfl, hlength⟩
        have htextAt := textAt_blockCopy hreplacement (Nat.zero_le repl.length)
        exact ⟨htextAt, hlength.trans h.length_eq, fun _ => ⟨Bool.eq_false_iff.mpr hcap, htextAt⟩⟩

end

/-! ### Every segment -/

section

variable {Re : Type} {find : Engine Re} {rule : NrRule Re} {work : Bytes}

/-- What a segment becomes, with the slash before it. -/
def segmentText (find : Engine Re) (rule : NrRule Re) (segment : Bytes) : Bytes :=
  0x2f :: (applySegment find rule segment).2

theorem applySegment_some {segment : Bytes} {ss : Match}
    (h : nrRegexMatchCapture find rule.regex segment = some ss) :
    applySegment find rule segment = (true, rule.text segment ss) := by
  rw [applySegment, h]

theorem applySegment_none {segment : Bytes}
    (h : nrRegexMatchCapture find rule.regex segment = none) :
    applySegment find rule segment = (false, segment) := by
  rw [applySegment, h]

theorem writeSegment_writesIf (hreplacement : 0 ∉ rule.replacement) {segment repl : Bytes}
    (hsegment : 0 ∉ segment) (hrepl : repl.length = nruleBufSize) :
    WritesIf (work.length + (segmentText find rule segment).length < nruleBufSize)
      (fun r => r.1.length = nruleBufSize ∧ r.2.1 = work ++ segmentText find rule segment ∧
        r.2.2 = (applySegment find rule segment).1)
      (writeSegment find rule segment repl work) := by
  have hslash := strcpyBehind_writesIf work [0x2f]
  rw [writeSegment, segmentText, List.length_cons]
  rw [List.length_singleton] at hslash
  refine hslash.bind (fun hfits => by omega) fun _ work₁ hwork₁ => ?_
  have hcopy := strcpyBehind_writesIf work₁
  have hlength : work₁.length = work.length + 1 := by rw [hwork₁, List.length_append]; rfl
  have happend : ∀ text, work₁ ++ text = work ++ 0x2f :: text := fun text => by
    rw [hwork₁, List.append_assoc]
    rfl
  cases hfind : nrRegexMatchCapture find rule.regex segment with
  | none =>
      simp only [applySegment_none hfind]
      refine (hcopy segment).bind (fun hfits => by omega) fun hfits work₂ hwork₂ => ?_
      exact .pure (by omega) ⟨hrepl, hwork₂.trans (happend segment), rfl⟩
  | some ss =>
      simp only [applySegment_some hfind]
      have hzero := NrRule.zero_notMem_text hreplacement hsegment ss
      refine (replacementOf_writesIf hrepl hzero).bind (fun hfits _ => by omega) ?_
      rintro - ⟨repl', text⟩ ⟨hrepl', htext⟩
      simp only at hrepl' htext ⊢
      subst htext
      refine (hcopy (rule.text segment ss)).bind (fun hfits => by omega) fun hfits work₂ hwork₂ => ?_
      exact .pure (by omega) ⟨hrepl', hwork₂.trans (happend _), rfl⟩

theorem eachSegmentLoop_writesIf (hreplacement : 0 ∉ rule.replacement) {segments : List Bytes}
    (hsegments : ∀ segment ∈ segments, 0 ∉ segment) {repl : Bytes}
    (hrepl : repl.length = nruleBufSize) (hwork : work.length < nruleBufSize) (changed : Bool) :
    WritesIf (work.length + (segments.flatMap (segmentText find rule)).length < nruleBufSize)
      (fun r => r.1.length = nruleBufSize ∧ r.2.1 = work ++ segments.flatMap (segmentText find rule) ∧
        r.2.2 = (changed || segments.any fun segment => (applySegment find rule segment).1))
      (eachSegmentLoop find rule segments repl work changed) := by
  induction segments generalizing repl work changed with
  | nil =>
      refine .pure ?_ ⟨hrepl, by simp, by simp⟩
      rwa [List.flatMap_nil, List.length_nil, Nat.add_zero]
  | cons segment segments ih =>
      obtain ⟨hsegment, hrest⟩ := List.forall_mem_cons.mp hsegments
      rw [eachSegmentLoop, List.flatMap_cons, List.length_append, ← Nat.add_assoc]
      refine (writeSegment_writesIf hreplacement hsegment hrepl).bind (fun hfits => by omega)
        fun hfits r hr => ?_
      obtain ⟨repl', work', found⟩ := r
      obtain ⟨hrepl', rfl, rfl⟩ := hr
      rw [← List.length_append] at hfits ⊢
      refine (ih hrest hrepl' hfits _).congr .rfl fun r hr => ?_
      rw [List.any_cons, ← Bool.or_assoc, ← List.append_assoc]
      exact hr

end

/-! ### Every match -/

section

variable {Re : Type}

/-- A round of the loop over all matches: where it searches, and how much is in `work`. -/
def scanRound (find : Engine Re) (rule : NrRule Re) (str : Bytes) (s : ℕ × ℕ) : Option (ℕ × ℕ) :=
  (find rule.regex (str.drop s.1) 0).map fun ss => (s.1 + ss.stop, s.2 + ss.start + rule.width ss)

/-- There is room for what a round writes. -/
def RoundFits (find : Engine Re) (rule : NrRule Re) (str : Bytes) (s : ℕ × ℕ) : Prop :=
  match find rule.regex (str.drop s.1) 0 with
  | some ss => s.2 + ss.start + rule.width ss < nruleBufSize
  | none => s.2 + (str.length - s.1) < nruleBufSize

/-- The texts of a rule are as long as the offsets of their matches say. -/
def WidthsOk (find : Engine Re) (rule : NrRule Re) : Prop :=
  ∀ subject ss, find rule.regex subject 0 = some ss →
    (rule.text subject ss).length = rule.width ss

theorem widthsOk {find : Engine Re} (hfind : MatchesWithin find) (hgroups : GroupsWithin find)
    (rule : NrRule Re) : WidthsOk find rule := fun _ _ hss =>
  rule.length_text (Match.length_text (hfind _ _ _ hss).2
    fun i j hmem => (hgroups _ _ _ hss i j hmem).2)

variable {find : Engine Re} {rule : NrRule Re} {str repl work : Bytes}

theorem writeMatch_writesIf (hreplacement : 0 ∉ rule.replacement) {needReplacement : Bool}
    (h : ReplHolds rule needReplacement repl) {subject : Bytes} (hsubject : 0 ∉ subject)
    {ss : Match} (hstart : ss.start ≤ subject.length) :
    WritesIf (work.length + ss.start + (rule.text subject ss).length < nruleBufSize)
      (fun r => ReplHolds rule (needReplacement && (rule.hasAlts || rule.hasCaptures)) r.1 ∧
        r.2 = work ++ (subject.take ss.start ++ rule.text subject ss))
      (writeMatch rule subject ss needReplacement repl work) := by
  have hzero := NrRule.zero_notMem_text hreplacement hsubject ss
  have hlength : (subject.take ss.start).length = ss.start := List.length_take_of_le hstart
  rw [writeMatch]
  refine (strcpyBehind_writesIf work (subject.take ss.start)).bind (fun hfits => by omega)
    fun _ work₁ hwork₁ => ?_
  have hlength₁ : work₁.length = work.length + ss.start := by
    rw [hwork₁, List.length_append, hlength]
  refine (fillRepl_writesIf h hreplacement hzero).bind (fun hfits _ => by omega) ?_
  rintro - repl' ⟨htext, hrepl'⟩
  rw [htext]
  refine (strcpyBehind_writesIf work₁ (rule.text subject ss)).bind (fun hfits => by omega)
    fun hfits work₂ hwork₂ => ?_
  exact .pure (by omega) ⟨hrepl', by rw [hwork₂, hwork₁, List.append_assoc]⟩

section Round

variable {startpos : ℕ}

theorem lastRound_writesIf (hss : find rule.regex (str.drop startpos) 0 = none) :
    WritesIf (RoundFits find rule str (startpos, work.length)) (· = work ++ str.drop startpos)
      (strcpyBehind work (str.drop startpos)) := by
  refine (strcpyBehind_writesIf work (str.drop startpos)).congr ?_ fun _ h => h
  rw [RoundFits, hss, List.length_drop]

theorem matchRound_writesIf (hfind : MatchesWithin find) (hwidths : WidthsOk find rule)
    (hreplacement : 0 ∉ rule.replacement) (hstr : 0 ∉ str) {needReplacement : Bool}
    (h : ReplHolds rule needReplacement repl) {ss : Match}
    (hss : find rule.regex (str.drop startpos) 0 = some ss) :
    WritesIf (RoundFits find rule str (startpos, work.length))
      (fun r => ReplHolds rule (needReplacement && (rule.hasAlts || rule.hasCaptures)) r.1 ∧
        r.2 = work ++ ((str.drop startpos).take ss.start ++ rule.text (str.drop startpos) ss) ∧
        scanRound find rule str (startpos, work.length) = some (startpos + ss.stop, r.2.length))
      (writeMatch rule (str.drop startpos) ss needReplacement repl work) := by
  have hdrop : 0 ∉ str.drop startpos := fun hmem => hstr (List.mem_of_mem_drop hmem)
  obtain ⟨hstart, hstop⟩ := hfind _ _ _ hss
  have hlength := hwidths _ _ hss
  refine (writeMatch_writesIf hreplacement h hdrop (hstart.trans hstop)).congr ?_ ?_
  · rw [RoundFits, hss, hlength]
  · rintro ⟨repl', work'⟩ ⟨hrepl', hwork'⟩
    refine ⟨hrepl', hwork', ?_⟩
    simp only at hwork' ⊢
    rw [scanRound, hss, hwork', List.length_append, List.length_append, hlength,
      List.length_take_of_le (hstart.trans hstop), ← Nat.add_assoc]
    rfl

theorem replaceAllLoop_none (hss : find rule.regex (str.drop startpos) 0 = none) (rounds : ℕ)
    (needReplacement : Bool) (repl work : Bytes) (changed : Bool) :
    replaceAllLoop find rule str (rounds + 1) startpos needReplacement repl work changed =
      (fun work => (repl, work, changed)) <$> strcpyBehind work (str.drop startpos) := by
  rw [replaceAllLoop, nrRegexMatchCapture, hss]
  rfl

theorem replaceAllLoop_some {ss : Match} (hss : find rule.regex (str.drop startpos) 0 = some ss)
    (rounds : ℕ) (needReplacement : Bool) (repl work : Bytes) (changed : Bool) :
    replaceAllLoop find rule str (rounds + 1) startpos needReplacement repl work changed =
      writeMatch rule (str.drop startpos) ss needReplacement repl work >>= fun r =>
        replaceAllLoop find rule str rounds (startpos + ss.stop)
          (needReplacement && (rule.hasAlts || rule.hasCaptures)) r.1 r.2 true := by
  rw [replaceAllLoop, nrRegexMatchCapture, hss]

theorem replaceAllLoop_fault (hfind : MatchesWithin find) (hwidths : WidthsOk find rule)
    (hreplacement : 0 ∉ rule.replacement) (hstr : 0 ∉ str) {needReplacement : Bool}
    (h : ReplHolds rule needReplacement repl)
    (hnot : ¬ RoundFits find rule str (startpos, work.length)) (rounds : ℕ) (changed : Bool) :
    replaceAllLoop find rule str (rounds + 1) startpos needReplacement repl work changed =
      .error .write := by
  cases hss : find rule.regex (str.drop startpos) 0 with
  | none =>
      rw [replaceAllLoop_none hss, (lastRound_writesIf hss).fault hnot]
      rfl
  | some ss =>
      rw [replaceAllLoop_some hss,
        (matchRound_writesIf hfind hwidths hreplacement hstr h hss).fault hnot]
      rfl

end Round

theorem text_of_mem_cached {text : Bytes} (subject : Bytes) (ss : Match)
    (h : text ∈ (if rule.hasAlts || rule.hasCaptures then none
      else some (rule.text subject ss) : Option Bytes)) (subject' : Bytes) (ss' : Match) :
    rule.text subject' ss' = text := by
  split_ifs at h with hflags
  · cases h
  · obtain rfl := Option.some.inj h
    have hcap : ¬ rule.hasCaptures = true := fun hcap => hflags (by rw [hcap, Bool.or_true])
    rw [NrRule.text, NrRule.text, if_neg hcap, if_neg hcap]

/-- What the loop over all matches gives if it is not in want of rounds: a write outside of
the buffers if some round has no room, else the string that is to come. -/
theorem replaceAllLoop_yields (hfind : MatchesWithin find) (hwidths : WidthsOk find rule)
    (hreplacement : 0 ∉ rule.replacement) (hstr : 0 ∉ str) (rounds startpos : ℕ)
    {needReplacement : Bool} (h : ReplHolds rule needReplacement repl) (hwork : 0 ∉ work)
    (changed : Bool) (cached : Option Bytes)
    (hcached : ∀ text ∈ cached, ∀ subject ss, rule.text subject ss = text) :
    Yields (fun e => e = .deep ∨ e = .write ∧ ∃ s,
        Reaches (scanRound find rule str) (startpos, work.length) s ∧ ¬ RoundFits find rule str s)
      (fun r => r.1.length = nruleBufSize ∧ 0 ∉ r.2.1 ∧ r.2.1.length < nruleBufSize ∧
        (replaceAllFrom find rule str rounds startpos cached).map (work ++ ·) = some r.2.1 ∧
        r.2.2 = (changed || (find rule.regex (str.drop startpos) 0).isSome))
      (replaceAllLoop find rule str rounds startpos needReplacement repl work changed) := by
  induction rounds generalizing startpos needReplacement repl work changed cached with
  | zero => exact .inl rfl
  | succ rounds ih =>
      have hdrop : 0 ∉ str.drop startpos := fun hmem => hstr (List.mem_of_mem_drop hmem)
      by_cases hfits : RoundFits find rule str (startpos, work.length)
      · rw [replaceAllFrom]
        simp only [nrRegexMatchCapture]
        cases hss : find rule.regex (str.drop startpos) 0 with
        | none =>
            obtain ⟨work', hcopy, rfl⟩ := (lastRound_writesIf hss).ok hfits
            rw [replaceAllLoop_none hss, hcopy]
            rw [RoundFits, hss] at hfits
            refine ⟨h.length_eq, ?_, ?_, rfl, by simp⟩
            · exact fun hmem => (List.mem_append.mp hmem).elim hwork hdrop
            · simpa using hfits
        | some ss =>
            obtain ⟨⟨repl', work'⟩, hwrite, hrepl', hwork', hscan⟩ :=
              (matchRound_writesIf hfind hwidths hreplacement hstr h hss).ok hfits
            have htext : cached.getD (rule.text (str.drop startpos) ss) =
                rule.text (str.drop startpos) ss := by
              cases cached with
              | none => rfl
              | some text => exact (hcached text rfl _ _).symm
            have hzero : 0 ∉ work' := by
              rw [show work' = _ from hwork', List.mem_append, List.mem_append]
              rintro (hmem | hmem | hmem)
              · exact hwork hmem
              · exact hdrop (List.mem_of_mem_take hmem)
              · exact NrRule.zero_notMem_text hreplacement hdrop ss hmem
            rw [replaceAllLoop_some hss, hwrite, ok_bind]
            simp only [htext]
            have hrest := ih (startpos + ss.stop) hrepl' hzero true _
              fun text hmem => text_of_mem_cached (str.drop startpos) ss hmem
            refine hrest.imp ?_ ?_
            · rintro e (rfl | ⟨rfl, s, hreach, hnot⟩)
              · exact .inl rfl
              · exact .inr ⟨rfl, s, .head hscan hreach, hnot⟩
            · rintro r ⟨hlength, hnot, hlt, hlist, hchanged⟩
              refine ⟨hlength, hnot, hlt, ?_, ?_⟩
              · rw [← hlist, Option.map_map, show work' = _ from hwork']
                congr 1
                funext rest
                simp
              · rw [hchanged]
                simp
      · rw [replaceAllLoop_fault hfind hwidths hreplacement hstr h hfits]
        exact .inr ⟨rfl, _, .refl, hfits⟩

/-- With enough rounds the loop comes to a round that has no room. -/
theorem exists_replaceAllLoop_fault (hfind : MatchesWithin find) (hwidths : WidthsOk find rule)
    (hreplacement : 0 ∉ rule.replacement) (hstr : 0 ∉ str) {startpos : ℕ} {needReplacement : Bool}
    (h : ReplHolds rule needReplacement repl) (changed : Bool) {s : ℕ × ℕ}
    (hreach : Reaches (scanRound find rule str) (startpos, work.length) s)
    (hnot : ¬ RoundFits find rule str s) :
    ∃ rounds, replaceAllLoop find rule str rounds startpos needReplacement repl work changed =
      .error .write := by
  generalize ha : (startpos, work.length) = a at hreach
  induction hreach using Relation.ReflTransGen.head_induction_on
    generalizing startpos needReplacement repl work changed with
  | refl =>
      exact ⟨1, replaceAllLoop_fault hfind hwidths hreplacement hstr h (ha ▸ hnot) 0 changed⟩
  | head hstep _ ih =>
      subst ha
      by_cases hfits : RoundFits find rule str (startpos, work.length)
      · obtain ⟨ss, hss, -⟩ := Option.map_eq_some_iff.mp hstep
        obtain ⟨⟨repl', work'⟩, hwrite, hrepl', -, hscan⟩ :=
          (matchRound_writesIf hfind hwidths hreplacement hstr h hss).ok hfits
        obtain ⟨rounds, hfault⟩ := ih hrepl' true (Option.some.inj (hscan.symm.trans hstep))
        refine ⟨rounds + 1, ?_⟩
        rw [replaceAllLoop_some hss, hwrite, ok_bind]
        exact hfault
      · exact ⟨1, replaceAllLoop_fault hfind hwidths hreplacement hstr h hfits 0 changed⟩

end

end Buffered

end AxiomDaemon.Axiom

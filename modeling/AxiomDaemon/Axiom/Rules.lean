import AxiomDaemon.Lib.Regexp

/-!
The rules of a connect reply as the agent applies them to the names of
transactions and their URLs, `nr_rules.c`. A rule ignores a name, replaces
one match, every match, or every segment that has a match.

The regular expressions are compiled and matched by a library, which is a
parameter. The buffers of fixed size are left out, as is whatever would be
cut off by them. What would run past the end of a string, or for ever, has no
result.
-/

namespace AxiomDaemon.Axiom

open AxiomDaemon.Lib

/-! ### Rules -/

/-- A rule as it stands in the reply; a flag that is missing is not set. -/
structure RawRule where
  matchExpression : Option Bytes
  replacement : Option Bytes
  ignore : Bool
  eachSegment : Bool
  replaceAll : Bool
  terminateChain : Bool
  evalOrder : Option ℤ
  deriving DecidableEq

/-- `NR_RULE_DEFAULT_ORDER`. -/
def nrRuleDefaultOrder : ℤ := 99999

/-- `nrrule_t`, with the rule flags one by one. -/
structure NrRule (Re : Type) where
  eachSegment : Bool
  ignore : Bool
  replaceAll : Bool
  terminate : Bool
  hasAlts : Bool
  hasCaptures : Bool
  order : ℤ
  replacement : Bytes
  regex : Re

def backslash : UInt8 := 0x5c

/-- The first backslash stands before a digit. -/
def hasCaptures (rstr : Bytes) : Bool :=
  match rstr.dropWhile fun b => b ≠ backslash with
  | _ :: c :: _ => isDigit c
  | _ => false

section

variable {Re : Type}

/-- `nr_rules_process_rule` and `nr_rules_add`. -/
def nrRulesProcessRule (compile : Bytes → Option Re) (rule : RawRule) : Option (NrRule Re) :=
  match rule.matchExpression with
  | none => none
  | some mstr =>
      if rule.replacement = none ∧ rule.ignore = false then none
      else if mstr = [] then none
      else
        (compile mstr).map fun regex =>
          { eachSegment := rule.eachSegment
            ignore := rule.ignore
            replaceAll := rule.replaceAll
            terminate := rule.terminateChain
            hasAlts := mstr.contains 0x7c
            hasCaptures := hasCaptures (rule.replacement.getD [])
            order := rule.evalOrder.getD nrRuleDefaultOrder
            replacement := rule.replacement.getD []
            regex := regex }

/-- `nr_rules_create_from_obj`; rules of the same order come in any order. -/
def nrRulesCreateFromObj (compile : Bytes → Option Re) (rules : List RawRule) : List (NrRule Re) :=
  (rules.filterMap (nrRulesProcessRule compile)).mergeSort fun a b => a.order ≤ b.order

/-! ### Replacements -/

/-- `nr_regex_substrings_count`: the last group that took part. -/
def substringsCount (ss : Match) : ℕ := (ss.groups.reverse.dropWhile Option.isNone).length

/-- One more character of a reference: its number is an `int`, which wraps around. -/
def nextNum (num : ℤ) (ch : UInt8) : ℤ :=
  if isDigit ch then (num * 10 + (ch.toNat - 0x30 : ℕ)).bmod (2 ^ 32) else num

/-- What a reference stands for; a negative number has no text. -/
def referenceText (count : ℕ) (sub : ℕ → Bytes) (num : ℤ) : Bytes :=
  if num > count then backslash :: decimal num.toNat else if num < 0 then [] else sub num.toNat

/-- `nr_rule_replace_string`. The number of the reference that is being read is
the state. -/
def nrRuleReplaceString (count : ℕ) (sub : ℕ → Bytes) : (num : Option ℤ) → Bytes → Bytes
  | _, [] => []
  | none, ch :: repl =>
      if ch = backslash then nrRuleReplaceString count sub (some 0) repl
      else ch :: nrRuleReplaceString count sub none repl
  | some num, ch :: repl =>
      if (repl.head?.map isDigit).getD false then
        nrRuleReplaceString count sub (some (nextNum num ch)) repl
      else
        referenceText count sub (nextNum num ch) ++ nrRuleReplaceString count sub none repl

/-- What takes the place of a match in a subject. -/
def NrRule.text (rule : NrRule Re) (subject : Bytes) (ss : Match) : Bytes :=
  if rule.hasCaptures then
    nrRuleReplaceString (substringsCount ss) (ss.text subject) none rule.replacement
  else rule.replacement

/-! ### Applying rules -/

/-- `nr_rules_result_t`. -/
inductive NrRulesResult
  | ignore
  | unchanged
  | changed
  deriving DecidableEq

section

variable (find : Engine Re)

/-- `nr_regex_match_capture`: the subject is the string alone. -/
def nrRegexMatchCapture (regex : Re) (str : Bytes) : Option Match := find regex str 0

/-- A segment after the rule, and whether it has a match. -/
def applySegment (rule : NrRule Re) (segment : Bytes) : Bool × Bytes :=
  match nrRegexMatchCapture find rule.regex segment with
  | some ss => (true, rule.text segment ss)
  | none => (false, segment)

/-- The loop of a rule that replaces all matches. The match goes on in what is left
of the string as a string of its own, so an empty match at its start is
found again and again. A text without references is made only once. -/
def replaceAllFrom (rule : NrRule Re) (str : Bytes) :
    (fuel : ℕ) → (startpos : ℕ) → (repl : Option Bytes) → Option Bytes
  | 0, _, _ => none
  | fuel + 1, startpos, repl =>
      match nrRegexMatchCapture find rule.regex (str.drop startpos) with
      | none => some (str.drop startpos)
      | some ss =>
          let text := repl.getD (rule.text (str.drop startpos) ss)
          let repl := if rule.hasAlts || rule.hasCaptures then none else some text
          (replaceAllFrom rule str fuel (startpos + ss.stop) repl).map
            ((str.drop startpos).take ss.start ++ text ++ ·)

/-- `nr_rule_apply`: the result and the string as it is edited in place. -/
def nrRuleApply (rule : NrRule Re) (str : Bytes) : Option (NrRulesResult × Bytes) :=
  let result (changed : Bool) : NrRulesResult := if changed then .changed else .unchanged
  if rule.ignore || !(rule.eachSegment || rule.replaceAll) then
    match nrRegexMatchCapture find rule.regex str with
    | none => some (.unchanged, str)
    | some ss =>
        if rule.ignore then some (.ignore, str)
        else some (.changed, str.take ss.start ++ rule.text str ss ++ str.drop ss.stop)
  else if rule.eachSegment then
    match str with
    -- the loop starts after the first byte, which the empty string does not have
    | [] => none
    | _ :: rest =>
        let segments := (splitSlash rest).map (applySegment find rule)
        some (result (segments.any Prod.fst), segments.flatMap fun seg => 0x2f :: seg.2)
  else
    (replaceAllFrom find rule str (str.length + 1) 0 none).map fun str' =>
      (result (nrRegexMatchCapture find rule.regex str).isSome, str')

section

variable {find} {rule : NrRule Re}

theorem nrRuleApply_ignore (hignore : rule.ignore = true) (str : Bytes) :
    nrRuleApply find rule str =
      some (if (find rule.regex str 0).isSome then .ignore else .unchanged, str) := by
  simp only [nrRuleApply, hignore, Bool.true_or, if_true, nrRegexMatchCapture]
  cases find rule.regex str 0 <;> rfl

theorem nrRuleApply_first (hignore : rule.ignore = false) (heach : rule.eachSegment = false)
    (hall : rule.replaceAll = false) (str : Bytes) :
    nrRuleApply find rule str =
      match find rule.regex str 0 with
      | none => some (.unchanged, str)
      | some ss => some (.changed, str.take ss.start ++ rule.text str ss ++ str.drop ss.stop) := by
  simp only [nrRuleApply, hignore, heach, hall, nrRegexMatchCapture]
  rfl

theorem nrRuleApply_eachSegment (hignore : rule.ignore = false) (heach : rule.eachSegment = true)
    (b : UInt8) (rest : Bytes) :
    nrRuleApply find rule (b :: rest) =
      some (if ((splitSlash rest).map (applySegment find rule)).any Prod.fst then .changed
        else .unchanged,
        ((splitSlash rest).map (applySegment find rule)).flatMap fun seg => 0x2f :: seg.2) := by
  simp only [nrRuleApply, hignore, heach]
  rfl

theorem nrRuleApply_replaceAll (hignore : rule.ignore = false) (heach : rule.eachSegment = false)
    (hall : rule.replaceAll = true) (str : Bytes) :
    nrRuleApply find rule str =
      (replaceAllFrom find rule str (str.length + 1) 0 none).map fun str' =>
        (if (find rule.regex str 0).isSome then .changed else .unchanged, str') := by
  simp only [nrRuleApply, hignore, heach, hall, nrRegexMatchCapture]
  rfl

end

/-- The loop of `nr_rules_apply`. -/
def nrRulesApplyLoop : List (NrRule Re) → (changed : Bool) → Bytes → Option (NrRulesResult × Bytes)
  | [], changed, str => some (if changed then .changed else .unchanged, str)
  | rule :: rules, changed, str =>
      match nrRuleApply find rule str with
      | none => none
      | some (.ignore, str) => some (.ignore, str)
      | some (.unchanged, str) => nrRulesApplyLoop rules changed str
      | some (.changed, str) =>
          if rule.terminate then some (.changed, str) else nrRulesApplyLoop rules true str

/-- `nr_rules_apply`: there is a new name if the name was changed. -/
def nrRulesApply (rules : List (NrRule Re)) (name : Bytes) :
    Option (NrRulesResult × Option Bytes) :=
  (nrRulesApplyLoop find rules false name).map fun (result, str) =>
    (result, if result = .changed then some str else none)

end

end

end AxiomDaemon.Axiom

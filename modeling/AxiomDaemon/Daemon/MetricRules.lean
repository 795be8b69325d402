import AxiomDaemon.Axiom.Rules
import AxiomDaemon.Daemon.MetricTable

/-!
The rules of a connect reply as the daemon applies them to the names of
metrics, `metric_rules.go`, which sets out to duplicate what the agent does. For
the table of metrics a rule is any function of names; here is the one it is.
The replacements come with backslashes before the numbers of groups and are
rewritten to the templates of the regular expression library.
-/

namespace AxiomDaemon.Daemon.RuleEngine

open AxiomDaemon.Lib AxiomDaemon.Axiom

structure MetricRule (Re : Type) where
  ignore : Bool
  eachSegment : Bool
  replaceAll : Bool
  terminate : Bool
  order : ℤ
  transformedReplacement : Bytes
  re : Re

/-! ### Replacements -/

/-- A match of `\\\\([0-9]+)`: two backslashes and a digit. -/
def transformReplacementAmbiguous : Bytes → Bool
  | a :: b :: c :: bs =>
      (a = backslash && b = backslash && isDigit c) || transformReplacementAmbiguous (b :: c :: bs)
  | _ => false

/-- Every match of `\\([0-9]+)` becomes `${1}`. -/
def transformReplacement : (inReference : Bool) → Bytes → Bytes
  | _, [] => []
  | false, b :: bs =>
      if b = backslash ∧ (bs.head?.map isDigit).getD false then
        dollar :: lcurly :: transformReplacement true bs
      else b :: transformReplacement false bs
  | true, b :: bs =>
      if (bs.head?.map isDigit).getD false then b :: transformReplacement true bs
      else b :: rcurly :: transformReplacement false bs

section

variable {Re : Type}

/-- What `NewMetricRulesFromJSON` makes of a rule. -/
def newMetricRule (compile : Bytes → Option Re) (raw : RawRule) : Option (MetricRule Re) :=
  match compile (raw.matchExpression.getD []) with
  | none => none
  | some re =>
      if transformReplacementAmbiguous (raw.replacement.getD []) then none
      else
        some
          { ignore := raw.ignore
            eachSegment := raw.eachSegment
            replaceAll := raw.replaceAll
            terminate := raw.terminateChain
            order := raw.evalOrder.getD 0
            transformedReplacement := transformReplacement false (raw.replacement.getD [])
            re := re }

def newMetricRulesFromJSON (compile : Bytes → Option Re) (raw : List RawRule) :
    List (MetricRule Re) :=
  (raw.filterMap (newMetricRule compile)).mergeSort fun a b => a.order ≤ b.order

/-! ### Applying rules -/

-- the engine, the names of an expression's groups, and the letters beyond ASCII
variable (find : Engine Re) (names : Re → List Bytes) (letter : Bytes → ℕ)

def replaceAllString (re : Re) (src repl : Bytes) : Bytes :=
  replaceAll (find re src) (expand letter (names re) repl src) src

/-- `replaceFirst`: the text of the first match is searched again, on its own. -/
def replaceFirst (re : Re) (s replacement : Bytes) : MetricRuleResult × Bytes :=
  match find re s 0 with
  | none => (.unmatched, s)
  | some loc =>
      let firstMatch := slice s loc.start loc.stop
      let firstMatchReplaced := replaceAllString find names letter re firstMatch replacement
      (.matched, s.take loc.start ++ firstMatchReplaced ++ s.drop loc.stop)

/-- `MetricRule.Apply`. -/
def MetricRule.apply (r : MetricRule Re) (s : Bytes) : MetricRuleResult × Bytes :=
  if r.ignore then
    match find r.re s 0 with
    | none => (.unmatched, s)
    -- an empty match is as good as none
    | some loc => if slice s loc.start loc.stop ≠ [] then (.ignore, []) else (.unmatched, s)
  else if r.replaceAll then
    if (find r.re s 0).isSome then
      (.matched, replaceAllString find names letter r.re s r.transformedReplacement)
    else (.unmatched, s)
  else if r.eachSegment then
    let applied := (splitSlash s).map fun segment =>
      replaceFirst find names letter r.re segment r.transformedReplacement
    (if applied.any fun seg => seg.1 = .matched then .matched else .unmatched,
      joinSlash (applied.map Prod.snd))
  else replaceFirst find names letter r.re s r.transformedReplacement

section

variable {find} {names} {letter} {r : MetricRule Re}

theorem apply_ignore (hignore : r.ignore = true) (s : Bytes) :
    r.apply find names letter s =
      match find r.re s 0 with
      | none => (.unmatched, s)
      | some loc => if slice s loc.start loc.stop ≠ [] then (.ignore, []) else (.unmatched, s) := by
  rw [MetricRule.apply, if_pos hignore]

theorem apply_replaceAll (hignore : r.ignore = false) (hall : r.replaceAll = true) (s : Bytes) :
    r.apply find names letter s =
      if (find r.re s 0).isSome then
        (.matched, replaceAllString find names letter r.re s r.transformedReplacement)
      else (.unmatched, s) := by
  simp only [MetricRule.apply, hignore, hall]
  rfl

theorem apply_eachSegment (hignore : r.ignore = false) (hall : r.replaceAll = false)
    (heach : r.eachSegment = true) (s : Bytes) :
    r.apply find names letter s =
      (if ((splitSlash s).map fun segment =>
          replaceFirst find names letter r.re segment r.transformedReplacement).any
          fun seg => seg.1 = .matched then .matched else .unmatched,
        joinSlash (((splitSlash s).map fun segment =>
          replaceFirst find names letter r.re segment r.transformedReplacement).map Prod.snd)) := by
  simp only [MetricRule.apply, hignore, hall, heach]
  rfl

theorem apply_first (hignore : r.ignore = false) (hall : r.replaceAll = false)
    (heach : r.eachSegment = false) (s : Bytes) :
    r.apply find names letter s =
      replaceFirst find names letter r.re s r.transformedReplacement := by
  simp only [MetricRule.apply, hignore, hall, heach]
  rfl

end

/-- The loop of `MetricRules.Apply`. -/
def applyLoop : List (MetricRule Re) → (matched : Bool) → Bytes → MetricRuleResult × Bytes
  | [], matched, s => (if matched then .matched else .unmatched, s)
  | rule :: rules, matched, s =>
      match rule.apply find names letter s with
      | (.ignore, _) => (.ignore, [])
      | (.unmatched, s) => applyLoop rules matched s
      | (.matched, s) => if rule.terminate then (.matched, s) else applyLoop rules true s

/-- `MetricRules.Apply`. -/
def metricRulesApply (rules : List (MetricRule Re)) (s : Bytes) : MetricRuleResult × Bytes :=
  applyLoop find names letter rules false s

end

end AxiomDaemon.Daemon.RuleEngine

import AxiomDaemon.Axiom.Rules
import AxiomDaemon.Lib.Loop

/-!
Whether the application of a rule comes to an end. Only a rule that replaces all
matches has a loop that depends on what the pattern matches: every round searches
what is left of the string from where the last match ended.
-/

namespace AxiomDaemon.Axiom

open AxiomDaemon.Lib StateTransition

section

variable {Re : Type} (find : Engine Re)

/-- `nr_rule_apply` comes to the loop that replaces all matches. -/
def NrRule.RunsLoop (rule : NrRule Re) : Prop :=
  rule.ignore = false ∧ rule.eachSegment = false ∧ rule.replaceAll = true

/-- If there is such a loop, it ends after a number of rounds. -/
def ReplacementEnds (rule : NrRule Re) (str : Bytes) : Prop :=
  rule.RunsLoop → ∃ rounds, (replaceAllFrom find rule str rounds 0 none).isSome = true

/-- Where the next round searches. -/
def nextStart (re : Re) (str : Bytes) (startpos : ℕ) : Option ℕ :=
  (nrRegexMatchCapture find re (str.drop startpos)).map fun ss => startpos + ss.stop

variable {find} {rule : NrRule Re} {str : Bytes}

/-- What is written does not matter for how long the loop goes on. -/
theorem isSome_replaceAllFrom (rounds startpos : ℕ) (repl : Option Bytes) :
    (replaceAllFrom find rule str rounds startpos repl).isSome =
      (loopFor (nextStart find rule.regex str) rounds startpos).isSome := by
  induction rounds generalizing startpos repl with
  | zero => rfl
  | succ rounds ih =>
      rw [replaceAllFrom, loopFor, nextStart]
      cases nrRegexMatchCapture find rule.regex (str.drop startpos) with
      | none => rfl
      | some ss =>
          simp only [Option.map_some, Option.isSome_map]
          exact ih _ _

theorem nextStart_eq_or_lt (hfind : MatchesWithin find) {re : Re} {startpos next : ℕ}
    (h : nextStart find re str startpos = some next) :
    next = startpos ∨ str.length - next < str.length - startpos := by
  obtain ⟨ss, hss, rfl⟩ := Option.map_eq_some_iff.mp h
  have hstop := (hfind re (str.drop startpos) ss hss).2
  rw [List.length_drop] at hstop
  omega

theorem nextStart_ne_iff {re : Re} {startpos : ℕ} :
    nextStart find re str startpos ≠ some startpos ↔
      ∀ ss, find re (str.drop startpos) 0 = some ss → 0 < ss.stop := by
  rw [nextStart, nrRegexMatchCapture]
  cases find re (str.drop startpos) 0 with
  | none => simp
  | some ss =>
      simp only [Option.map_some, ne_eq, Option.some.injEq, forall_eq']
      omega

theorem exists_replaceAllFrom_iff (hfind : MatchesWithin find) :
    (∃ rounds, (replaceAllFrom find rule str rounds 0 none).isSome = true) ↔
      ∀ startpos, Reaches (nextStart find rule.regex str) 0 startpos →
        nextStart find rule.regex str startpos ≠ some startpos := by
  simp only [isSome_replaceAllFrom]
  exact exists_loopFor_iff fun t u _ hstep => nextStart_eq_or_lt hfind hstep

end

/-! ### Two patterns -/

/-- `x`. -/
def oneX : Engine Unit := fun _ s pos =>
  ((s.drop pos).findIdx? fun b => b = 0x78).map fun i =>
    { start := pos + i, stop := pos + i + 1, groups := [] }

/-- `x*`, which matches where the search begins, be it nothing. -/
def xRuns : Engine Unit := fun _ s pos =>
  let run := (s.drop pos).takeWhile fun b => b = 0x78
  some { start := pos, stop := pos + run.length, groups := [] }

/-- A rule that drops all matches of its pattern. -/
def dropAll (pattern : Bytes) : RawRule where
  matchExpression := some pattern
  replacement := some []
  ignore := false
  eachSegment := false
  replaceAll := true
  terminateChain := false
  evalOrder := none

def dropRule : NrRule Unit where
  eachSegment := false
  ignore := false
  replaceAll := true
  terminate := false
  hasAlts := false
  hasCaptures := false
  order := nrRuleDefaultOrder
  replacement := []
  regex := ()

theorem oneX_eq_some {s : Bytes} {m : Match} (h : oneX () s 0 = some m) :
    m.start < s.length ∧ m.stop = m.start + 1 := by
  obtain ⟨i, hi, rfl⟩ := Option.map_eq_some_iff.mp h
  obtain ⟨hlt, -⟩ := List.findIdx?_eq_some_iff_findIdx_eq.mp hi
  rw [List.drop_zero] at hlt
  exact ⟨by simpa using hlt, rfl⟩

theorem matchesWithin_oneX : MatchesWithin oneX := by
  intro _ s m hm
  obtain ⟨hstart, hstop⟩ := oneX_eq_some hm
  omega

theorem matchesWithin_xRuns : MatchesWithin xRuns := by
  intro _ s m hm
  obtain rfl := Option.some.inj hm
  have hle := (List.takeWhile_prefix (fun b : UInt8 => decide (b = 0x78)) (l := s)).length_le
  simpa using hle

/-! ### What ends -/

section

variable {Re : Type} {find : Engine Re}

/-- The loop ends exactly if no search from a position that it reaches finds the empty
match right there. -/
theorem replacement_ends_iff (hfind : MatchesWithin find) (rule : NrRule Re) (str : Bytes) :
    ReplacementEnds find rule str ↔
      (rule.RunsLoop → ∀ startpos, Reaches (nextStart find rule.regex str) 0 startpos →
        ∀ ss, find rule.regex (str.drop startpos) 0 = some ss → 0 < ss.stop) := by
  simp only [← nextStart_ne_iff]
  exact imp_congr_right fun _ => exists_replaceAllFrom_iff hfind

end

theorem replacement_ends_oneX : ReplacementEnds oneX dropRule (ascii "/axx/x") := by
  refine (replacement_ends_iff matchesWithin_oneX dropRule (ascii "/axx/x")).mpr
    fun _ startpos _ ss hss => ?_
  obtain ⟨-, hstop⟩ := oneX_eq_some hss
  omega

/-- `x*` matches nothing in front of the slash, again and again. -/
theorem xRuns_never_ends :
    MatchesWithin xRuns ∧
      nrRulesProcessRule (fun _ => some ()) (dropAll (ascii "x*")) = some dropRule ∧
      ¬ ReplacementEnds xRuns dropRule (ascii "/a") := by
  refine ⟨matchesWithin_xRuns, rfl, fun hends => ?_⟩
  exact (exists_replaceAllFrom_iff matchesWithin_xRuns).mp (hends ⟨rfl, rfl, rfl⟩) 0 .refl rfl

end AxiomDaemon.Axiom

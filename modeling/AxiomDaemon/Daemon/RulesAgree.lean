import AxiomDaemon.Daemon.MetricRules

/-!
Agent and daemon apply the rules of a connect reply with engines of their own.
The two do not treat every rule alike: the agent replaces whole segments and
the daemon matches within them, one flag wins on either side when several are
set, the text of a match is searched again by the daemon and not by the
agent, and dollar signs and stray backslashes in a replacement mean something
to one of them only. Where none of this comes up, the two agree on every
name, rule by rule and so over chains of rules.
-/

namespace AxiomDaemon.Daemon.RuleEngine

open AxiomDaemon.Lib AxiomDaemon.Axiom

/-! ### Replacements -/

/-- A dollar sign before this text stands for itself. -/
def PlainDollar (letter : Bytes → ℕ) (rest : Bytes) : Prop :=
  rest.head? ≠ some dollar ∧ extract letter rest = none

/-- The text does not go on with a digit. -/
def NoDigitAhead (bs : Bytes) : Prop := (bs.head?.map isDigit).getD false = false

/-- A replacement without references. -/
inductive LiteralOk (letter : Bytes → ℕ) : Bytes → Prop
  | nil : LiteralOk letter []
  | plain {b : UInt8} {bs : Bytes} (hb : b ≠ backslash) (hb' : b ≠ dollar)
      (h : LiteralOk letter bs) : LiteralOk letter (b :: bs)
  | backslash {bs : Bytes} (hahead : NoDigitAhead bs) (h : LiteralOk letter bs) :
      LiteralOk letter (backslash :: bs)
  | dollar {bs : Bytes} (hplain : PlainDollar letter bs) (h : LiteralOk letter bs) :
      LiteralOk letter (dollar :: bs)

/-- A replacement all of whose backslashes begin references, each to a group that
took part or comes before one that did. -/
inductive TemplateOk (letter : Bytes → ℕ) (count : ℕ) : Bytes → Prop
  | nil : TemplateOk letter count []
  | plain {b : UInt8} {bs : Bytes} (hb : b ≠ backslash) (hb' : b ≠ dollar)
      (h : TemplateOk letter count bs) : TemplateOk letter count (b :: bs)
  | dollar {bs : Bytes} (hplain : PlainDollar letter (transformReplacement false bs))
      (h : TemplateOk letter count bs) : TemplateOk letter count (dollar :: bs)
  | reference {ds bs : Bytes} (hne : ds ≠ []) (hds : ∀ d ∈ ds, isDigit d = true)
      (hahead : NoDigitAhead bs) (hle : digitsValue ds ≤ count)
      (hzero : ds.head? = some 0x30 → ds.length = 1) (h : TemplateOk letter count bs) :
      TemplateOk letter count (backslash :: (ds ++ bs))

/-- Both sides make the same text of the replacement, whatever the match is in which
`count` is the last group that took part. -/
def ReplacementOk (letter : Bytes → ℕ) (count : ℕ) (repl : Bytes) : Prop :=
  LiteralOk letter repl ∨ TemplateOk letter count repl

theorem backslash_ne_dollar : backslash ≠ dollar := by decide

theorem ne_of_isDigit {b : UInt8} (h : isDigit b = true) :
    b ≠ backslash ∧ b ≠ dollar ∧ b ≠ rcurly ∧ b ≠ lcurly ∧ b.toNat < 0x80 := by
  have hb : 0x30 ≤ b.toNat ∧ b.toNat ≤ 0x39 := by simpa [isDigit] using h
  refine ⟨?_, ?_, ?_, ?_, by omega⟩ <;>
    · rintro rfl
      exact absurd hb (by decide)

theorem digitsValue_concat (ds : Bytes) (d : UInt8) :
    digitsValue (ds ++ [d]) = digitsValue ds * 10 + (d.toNat - 0x30) := by
  rw [digitsValue, List.map_append, numberOf_append, List.map_singleton, numberOf_singleton]
  rfl

/-- The number a reference is read as, if it is an `int`. -/
theorem foldl_nextNum {ds : Bytes} (hds : ∀ d ∈ ds, isDigit d = true)
    (hlt : digitsValue ds < 2 ^ 31) : ds.foldl nextNum 0 = digitsValue ds := by
  induction ds using List.reverseRecOn with
  | nil => rfl
  | append_singleton ds d ih =>
      rw [digitsValue_concat] at hlt ⊢
      have hd : isDigit d = true := hds d (by simp)
      rw [List.foldl_concat, ih (fun x hx => hds x (List.mem_append_left _ hx)) (by omega), nextNum,
        if_pos hd, Int.bmod_eq_of_le (by omega) (by omega)]
      push_cast
      rfl

theorem transformReplacement_plain {b : UInt8} (hb : b ≠ backslash) (bs : Bytes) :
    transformReplacement false (b :: bs) = b :: transformReplacement false bs := by
  rw [transformReplacement, if_neg fun h => hb h.1]

theorem transformReplacement_noDigit {bs : Bytes} (hahead : NoDigitAhead bs) (b : UInt8) :
    transformReplacement false (b :: bs) = b :: transformReplacement false bs := by
  rw [transformReplacement, if_neg]
  rw [NoDigitAhead] at hahead
  simp [hahead]

theorem transformReplacement_digits {ds bs : Bytes} (hne : ds ≠ [])
    (hds : ∀ d ∈ ds, isDigit d = true) (hahead : NoDigitAhead bs) :
    transformReplacement true (ds ++ bs) = ds ++ rcurly :: transformReplacement false bs := by
  induction ds with
  | nil => exact absurd rfl hne
  | cons d ds ih =>
      rw [List.cons_append, transformReplacement]
      cases ds with
      | nil =>
          rw [NoDigitAhead] at hahead
          rw [List.nil_append, if_neg (by simp [hahead])]
          rfl
      | cons d' ds =>
          have hd' : isDigit d' = true := hds d' (by simp)
          rw [if_pos (by simp [hd']), ih (by simp) fun x hx => hds x (List.mem_cons_of_mem _ hx)]
          rfl

theorem transformReplacement_reference {ds bs : Bytes} (hne : ds ≠ [])
    (hds : ∀ d ∈ ds, isDigit d = true) (hahead : NoDigitAhead bs) :
    transformReplacement false (backslash :: (ds ++ bs)) =
      dollar :: lcurly :: (ds ++ rcurly :: transformReplacement false bs) := by
  have hhead : ((ds ++ bs).head?.map isDigit).getD false = true := by
    obtain ⟨d, ds, rfl⟩ := List.exists_cons_of_ne_nil hne
    simp [hds d (by simp)]
  rw [transformReplacement, if_pos ⟨rfl, hhead⟩, transformReplacement_digits hne hds hahead]

theorem nrRuleReplaceString_digits {count : ℕ} {sub : ℕ → Bytes} {ds bs : Bytes} (num : ℤ)
    (hne : ds ≠ []) (hds : ∀ d ∈ ds, isDigit d = true) (hahead : NoDigitAhead bs) :
    nrRuleReplaceString count sub (some num) (ds ++ bs) =
      referenceText count sub (ds.foldl nextNum num) ++ nrRuleReplaceString count sub none bs := by
  induction ds generalizing num with
  | nil => exact absurd rfl hne
  | cons d ds ih =>
      rw [List.cons_append, nrRuleReplaceString]
      cases ds with
      | nil =>
          rw [NoDigitAhead] at hahead
          rw [List.nil_append, if_neg (by simp [hahead])]
          rfl
      | cons d' ds =>
          have hd' : isDigit d' = true := hds d' (by simp)
          rw [if_pos (by simp [hd']), ih _ (by simp) fun x hx => hds x (List.mem_cons_of_mem _ hx)]
          rfl

theorem nrRuleReplaceString_reference {count : ℕ} {sub : ℕ → Bytes} {ds bs : Bytes}
    (hne : ds ≠ []) (hds : ∀ d ∈ ds, isDigit d = true) (hahead : NoDigitAhead bs)
    (hle : digitsValue ds ≤ count) (hcount : count ≤ 65535) :
    nrRuleReplaceString count sub none (backslash :: (ds ++ bs)) =
      sub (digitsValue ds) ++ nrRuleReplaceString count sub none bs := by
  rw [nrRuleReplaceString, if_pos rfl, nrRuleReplaceString_digits 0 hne hds hahead,
    foldl_nextNum hds (by omega), referenceText, if_neg (by omega), if_neg (by omega),
    Int.toNat_natCast]

theorem nameLength_digits (letter : Bytes → ℕ) {ds : Bytes} (hds : ∀ d ∈ ds, isDigit d = true)
    (t : Bytes) {fuel : ℕ} (hfuel : ds.length < fuel) :
    nameLength letter fuel (ds ++ rcurly :: t) = ds.length := by
  induction ds generalizing fuel with
  | nil =>
      obtain ⟨fuel, rfl⟩ : ∃ f, fuel = f + 1 := ⟨fuel - 1, by simp at hfuel; omega⟩
      rw [List.nil_append, nameLength]
      have hend : rcurly.toNat < 0x80 ∧ isAsciiWord rcurly = false := by decide
      simp [hend]
  | cons d ds ih =>
      obtain ⟨fuel, rfl⟩ : ∃ f, fuel = f + 1 := ⟨fuel - 1, by simp at hfuel; omega⟩
      have hd := hds d (by simp)
      have hword : isAsciiWord d = true := by simp [isAsciiWord, hd]
      have hrec : nameLength letter fuel (ds ++ rcurly :: t) = ds.length :=
        ih (fun x hx => hds x (List.mem_cons_of_mem _ hx)) (by simp at hfuel; omega)
      rw [List.cons_append, nameLength]
      simp only [(ne_of_isDigit hd).2.2.2.2, hword, if_true, Nat.one_ne_zero, if_false,
        List.drop_succ_cons, List.drop_zero, hrec, List.length_cons]
      omega

theorem extract_reference (letter : Bytes → ℕ) {ds : Bytes} (hne : ds ≠ [])
    (hds : ∀ d ∈ ds, isDigit d = true) (t : Bytes) :
    extract letter (lcurly :: (ds ++ rcurly :: t)) = some (ds, t) := by
  have hlen : 0 < ds.length := List.length_pos_of_ne_nil hne
  have hname : nameLength letter (ds ++ rcurly :: t).length (ds ++ rcurly :: t) = ds.length :=
    nameLength_digits letter hds t (by simp)
  simp only [extract, List.head?_cons, if_true, List.drop_succ_cons, List.drop_zero,
    hname, if_neg hlen.ne']
  rw [List.drop_left, List.take_left]
  simp

/-- A number that the agent finds small enough is one for the daemon too. -/
theorem nameNumber_reference {ds : Bytes} (hds : ∀ d ∈ ds, isDigit d = true)
    (hzero : ds.head? = some 0x30 → ds.length = 1) (hle : digitsValue ds ≤ 65535) :
    nameNumber ds = some (digitsValue ds) := by
  have hlast : digitsValue ds.dropLast ≤ digitsValue ds := by
    induction ds using List.reverseRecOn with
    | nil => exact le_rfl
    | append_singleton ds d _ =>
        rw [List.dropLast_concat, digitsValue_concat]
        omega
  rw [nameNumber, if_pos]
  refine ⟨List.all_eq_true.mpr hds, ?_, by omega⟩
  rintro ⟨hhead, hlong⟩
  have := hzero hhead
  omega

section

variable {letter : Bytes → ℕ} {names : List Bytes} {src : Bytes} {a : Match}

theorem expandLoop_plain {b : UInt8} (hb : b ≠ dollar) (fuel : ℕ) (t : Bytes) :
    expandLoop letter names src a (fuel + 1) (b :: t) =
      b :: expandLoop letter names src a fuel t := by
  rw [expandLoop, if_pos hb]

theorem expandLoop_dollar {t : Bytes} (hplain : PlainDollar letter t) (fuel : ℕ) :
    expandLoop letter names src a (fuel + 1) (dollar :: t) =
      dollar :: expandLoop letter names src a fuel t := by
  rw [expandLoop, if_neg fun h => h rfl, if_neg hplain.1, hplain.2]

theorem expandLoop_reference {ds : Bytes} (hne : ds ≠ []) (hds : ∀ d ∈ ds, isDigit d = true)
    (hzero : ds.head? = some 0x30 → ds.length = 1) (hle : digitsValue ds ≤ 65535) (t : Bytes)
    (fuel : ℕ) :
    expandLoop letter names src a (fuel + 1) (dollar :: lcurly :: (ds ++ rcurly :: t)) =
      a.text src (digitsValue ds) ++ expandLoop letter names src a fuel t := by
  have hbrace : (lcurly :: (ds ++ rcurly :: t)).head? ≠ some dollar := by
    rw [List.head?_cons]
    decide
  rw [expandLoop, if_neg fun h => h rfl, if_neg hbrace, extract_reference letter hne hds]
  simp only [nameNumber_reference hds hzero hle]

theorem expandLoop_literal {repl : Bytes} (h : LiteralOk letter repl) {fuel : ℕ}
    (hfuel : repl.length ≤ fuel) : expandLoop letter names src a fuel repl = repl := by
  induction h generalizing fuel with
  | nil => cases fuel <;> rfl
  | plain _ hb' _ ih =>
      obtain ⟨fuel, rfl⟩ : ∃ f, fuel = f + 1 := ⟨fuel - 1, by simp at hfuel; omega⟩
      rw [expandLoop_plain hb', ih (by simpa using hfuel)]
  | backslash _ _ ih =>
      obtain ⟨fuel, rfl⟩ : ∃ f, fuel = f + 1 := ⟨fuel - 1, by simp at hfuel; omega⟩
      rw [expandLoop_plain backslash_ne_dollar, ih (by simpa using hfuel)]
  | dollar hplain _ ih =>
      obtain ⟨fuel, rfl⟩ : ∃ f, fuel = f + 1 := ⟨fuel - 1, by simp at hfuel; omega⟩
      rw [expandLoop_dollar hplain, ih (by simpa using hfuel)]

theorem transformReplacement_literal {repl : Bytes} (h : LiteralOk letter repl) :
    transformReplacement false repl = repl := by
  induction h with
  | nil => rfl
  | plain hb _ _ ih => rw [transformReplacement_plain hb, ih]
  | backslash hahead _ ih => rw [transformReplacement_noDigit hahead, ih]
  | dollar _ _ ih => rw [transformReplacement_plain backslash_ne_dollar.symm, ih]

theorem hasCaptures_cons {b : UInt8} (hb : b ≠ backslash) (bs : Bytes) :
    hasCaptures (b :: bs) = hasCaptures bs := by
  rw [hasCaptures, hasCaptures, List.dropWhile_cons_of_pos (by simpa using hb)]

theorem hasCaptures_backslash (bs : Bytes) :
    hasCaptures (backslash :: bs) = (bs.head?.map isDigit).getD false := by
  rw [hasCaptures, List.dropWhile_cons_of_neg (by simp)]
  cases bs <;> rfl

theorem hasCaptures_literal {repl : Bytes} (h : LiteralOk letter repl) :
    hasCaptures repl = false := by
  induction h with
  | nil => rfl
  | plain hb _ _ ih => rw [hasCaptures_cons hb, ih]
  | backslash hahead _ _ => rw [hasCaptures_backslash, hahead]
  | dollar _ _ ih => rw [hasCaptures_cons backslash_ne_dollar.symm, ih]

/-- The template that the daemon expands to what the agent makes of the same
replacement. -/
theorem expandLoop_template {count : ℕ} {sub : ℕ → Bytes} {repl : Bytes}
    (h : TemplateOk letter count repl) (hcount : count ≤ 65535)
    (hsub : ∀ n, a.text src n = sub n) {fuel : ℕ}
    (hfuel : (transformReplacement false repl).length ≤ fuel) :
    expandLoop letter names src a fuel (transformReplacement false repl) =
      nrRuleReplaceString count sub none repl := by
  induction h generalizing fuel with
  | nil => cases fuel <;> rfl
  | plain hb hb' _ ih =>
      rw [transformReplacement_plain hb] at hfuel ⊢
      obtain ⟨fuel, rfl⟩ : ∃ f, fuel = f + 1 := ⟨fuel - 1, by simp at hfuel; omega⟩
      rw [expandLoop_plain hb', ih (by simpa using hfuel), nrRuleReplaceString, if_neg hb]
  | dollar hplain _ ih =>
      rw [transformReplacement_plain backslash_ne_dollar.symm] at hfuel ⊢
      obtain ⟨fuel, rfl⟩ : ∃ f, fuel = f + 1 := ⟨fuel - 1, by simp at hfuel; omega⟩
      rw [expandLoop_dollar hplain, ih (by simpa using hfuel), nrRuleReplaceString,
        if_neg backslash_ne_dollar.symm]
  | reference hne hds hahead hle hzero _ ih =>
      rw [transformReplacement_reference hne hds hahead] at hfuel ⊢
      obtain ⟨fuel, rfl⟩ : ∃ f, fuel = f + 1 := ⟨fuel - 1, by simp at hfuel; omega⟩
      rw [expandLoop_reference hne hds hzero (hle.trans hcount), hsub,
        nrRuleReplaceString_reference hne hds hahead hle hcount, ih (by simp at hfuel; omega)]

/-- A replacement in which nothing is a reference is one without references. -/
theorem TemplateOk.literalOk {count : ℕ} {repl : Bytes} (h : TemplateOk letter count repl)
    (hflag : hasCaptures repl = false) : LiteralOk letter repl := by
  induction h with
  | nil => exact .nil
  | plain hb hb' _ ih =>
      rw [hasCaptures_cons hb] at hflag
      exact .plain hb hb' (ih hflag)
  | dollar hplain _ ih =>
      rw [hasCaptures_cons backslash_ne_dollar.symm] at hflag
      rw [transformReplacement_literal (ih hflag)] at hplain
      exact .dollar hplain (ih hflag)
  | @reference ds bs hne hds _ _ _ _ _ =>
      obtain ⟨d, ds, rfl⟩ := List.exists_cons_of_ne_nil hne
      rw [hasCaptures_backslash] at hflag
      simp [hds d (by simp)] at hflag

end

/-! ### One rule -/

/-- A rule with its expression. -/
structure KeptRule (Re : Type) where
  raw : RawRule
  regex : Re

section

variable {Re : Type}

namespace KeptRule

def replacement (r : KeptRule Re) : Bytes := r.raw.replacement.getD []

def agentOrder (r : KeptRule Re) : ℤ := r.raw.evalOrder.getD nrRuleDefaultOrder

def daemonOrder (r : KeptRule Re) : ℤ := r.raw.evalOrder.getD 0

/-- The rule of the agent. -/
def nrRule (r : KeptRule Re) : NrRule Re where
  eachSegment := r.raw.eachSegment
  ignore := r.raw.ignore
  replaceAll := r.raw.replaceAll
  terminate := r.raw.terminateChain
  hasAlts := (r.raw.matchExpression.getD []).contains 0x7c
  hasCaptures := hasCaptures r.replacement
  order := r.agentOrder
  replacement := r.replacement
  regex := r.regex

/-- The rule of the daemon. -/
def metricRule (r : KeptRule Re) : MetricRule Re where
  ignore := r.raw.ignore
  eachSegment := r.raw.eachSegment
  replaceAll := r.raw.replaceAll
  terminate := r.raw.terminateChain
  order := r.daemonOrder
  transformedReplacement := transformReplacement false r.replacement
  re := r.regex

end KeptRule

section

variable (find : Engine Re) (letter : Bytes → ℕ)

/-- The same text is matched, and the same groups if the replacement refers to groups. -/
structure SameMatch (repl : Bytes) (m m' : Match) : Prop where
  start : m.start = m'.start
  stop : m.stop = m'.stop
  groups : hasCaptures repl = true → m = m'

/-- The text of a match, as a subject of its own, has the same match. -/
def Isolated (re : Re) (repl s : Bytes) (m : Match) : Prop :=
  ∃ m', find re (slice s m.start m.stop) 0 = some m' ∧ SameMatch repl (m'.advance m.start) m

/-- From a position on, searching the rest of the subject and searching on in the
subject find the same matches, none of them empty. -/
inductive ScansAlike (re : Re) (repl s : Bytes) : ℕ → Prop
  | done {pos : ℕ} (hrest : find re (s.drop pos) 0 = none) (hin : find re s pos = none) :
      ScansAlike re repl s pos
  | step {pos : ℕ} {m m' : Match} (hrest : find re (s.drop pos) 0 = some m)
      (hin : find re s pos = some m') (hsame : SameMatch repl m' (m.advance pos))
      (hne : m.start < m.stop) (hrepl : ReplacementOk letter (substringsCount m) repl)
      (hnext : ScansAlike re repl s (pos + m.stop)) : ScansAlike re repl s pos

/-- A rule that is not to ignore names comes out alike on the two sides. Segments begin with a
slash each and are matched as a whole or not at all, by a rule that does not replace all matches
as well; any other match is the same on its own. -/
def StepAgrees (r : KeptRule Re) (s : Bytes) : Prop :=
  r.raw.ignore = false ∧
    if r.raw.eachSegment then
      r.raw.replaceAll = false ∧ ∃ rest, s = 0x2f :: rest ∧ find r.regex [] 0 = none ∧
        ∀ seg ∈ splitSlash rest, ∀ m, find r.regex seg 0 = some m →
          m.start = 0 ∧ m.stop = seg.length ∧
            ReplacementOk letter (substringsCount m) r.replacement
    else if r.raw.replaceAll then ScansAlike find letter r.regex r.replacement s 0
    else
      ∀ m, find r.regex s 0 = some m →
        Isolated find r.regex r.replacement s m ∧
          ReplacementOk letter (substringsCount m) r.replacement

end

variable {find : Engine Re} {letter : Bytes → ℕ} (names : Re → List Bytes)

theorem substringsCount_le (m : Match) : substringsCount m ≤ m.groups.length := by
  have hle := List.length_dropWhile_le Option.isNone m.groups.reverse
  rwa [List.length_reverse] at hle

theorem expand_eq_text {r : KeptRule Re} {ss a : Match} {src subject : Bytes}
    (hrepl : ReplacementOk letter (substringsCount ss) r.replacement)
    (hgroups : ss.groups.length ≤ 65535)
    (hsub : hasCaptures r.replacement = true → ∀ n, a.text src n = ss.text subject n) :
    expand letter (names r.regex) r.metricRule.transformedReplacement src a =
      r.nrRule.text subject ss := by
  have hcount : substringsCount ss ≤ 65535 := (substringsCount_le ss).trans hgroups
  rw [expand, KeptRule.metricRule, NrRule.text, KeptRule.nrRule]
  cases hflag : hasCaptures r.replacement with
  | false =>
      have hliteral : LiteralOk letter r.replacement := by
        rcases hrepl with hliteral | htemplate
        · exact hliteral
        · exact htemplate.literalOk hflag
      rw [if_neg Bool.false_ne_true, transformReplacement_literal hliteral]
      exact expandLoop_literal hliteral le_rfl
  | true =>
      rcases hrepl with hliteral | htemplate
      · rw [hasCaptures_literal hliteral] at hflag
        cases hflag
      · rw [if_pos rfl]
        exact expandLoop_template htemplate hcount (hsub hflag) le_rfl

/-- The daemon's replacement of the first match, searched again, is the agent's. -/
theorem replaceFirst_of_isolated (hfind : EngineOk find) {r : KeptRule Re} {s : Bytes} {m : Match}
    (hm : find r.regex s 0 = some m) (hiso : Isolated find r.regex r.replacement s m)
    (hrepl : ReplacementOk letter (substringsCount m) r.replacement) :
    replaceFirst find names letter r.regex s r.metricRule.transformedReplacement =
      (.matched, s.take m.start ++ r.nrRule.text s m ++ s.drop m.stop) := by
  obtain ⟨m', hm', hsame⟩ := hiso
  have hle := hfind.le_stop hm
  have hstop := hfind.stop_le hm
  have hstart' : m'.start + m.start = m.start := hsame.start
  have hstop' : m'.stop + m.start = m.stop := hsame.stop
  have hwhole : m'.stop = (slice s m.start m.stop).length := by
    rw [length_slice hstop]
    omega
  have htext : expand letter (names r.regex) r.metricRule.transformedReplacement
      (slice s m.start m.stop) m' = r.nrRule.text s m := by
    refine expand_eq_text names hrepl (hfind.groups_le hm) fun hflag n => ?_
    rw [hfind.text_slice hstop hm', hsame.groups hflag]
  rw [replaceFirst, hm]
  simp only [replaceAllString]
  rw [replaceAll_whole hfind hm' (by omega) hwhole, htext]

/-- A rule that replaces all matches makes the same of what is left of the name. -/
theorem replaceAllFrom_of_scansAlike (hfind : EngineOk find) {r : KeptRule Re} {s : Bytes}
    {pos : ℕ} (h : ScansAlike find letter r.regex r.replacement s pos) (hpos : pos ≤ s.length)
    {fuel fuel' : ℕ} (hfuel : s.length < pos + fuel) (hfuel' : s.length < pos + fuel')
    {repl : Option Bytes}
    (hkept : ∀ text, repl = some text → hasCaptures r.replacement = false ∧ text = r.replacement) :
    replaceAllFrom find r.nrRule s fuel pos repl =
      some (replaceAllLoop (find r.regex s)
        (expand letter (names r.regex) r.metricRule.transformedReplacement s) s fuel' pos pos) := by
  induction h generalizing fuel fuel' repl with
  | @done pos hrest hin =>
      obtain ⟨fuel, rfl⟩ : ∃ f, fuel = f + 1 := ⟨fuel - 1, by omega⟩
      obtain ⟨fuel', rfl⟩ : ∃ f, fuel' = f + 1 := ⟨fuel' - 1, by omega⟩
      rw [replaceAllFrom, replaceAllLoop, if_pos hpos, hin]
      simp only [nrRegexMatchCapture, KeptRule.nrRule, hrest]
  | @step pos m m' hrest hin hsame hne hrepl hnext ih =>
      obtain ⟨fuel, rfl⟩ : ∃ f, fuel = f + 1 := ⟨fuel - 1, by omega⟩
      obtain ⟨fuel', rfl⟩ : ∃ f, fuel' = f + 1 := ⟨fuel' - 1, by omega⟩
      have hstop : m.stop ≤ s.length - pos := by
        have := hfind.stop_le hrest
        rwa [List.length_drop] at this
      have hle := hfind.le_stop hrest
      have htext : expand letter (names r.regex) r.metricRule.transformedReplacement s m' =
          r.nrRule.text (s.drop pos) m :=
        expand_eq_text names hrepl (hfind.groups_le hrest) fun hflag n => by
          rw [hsame.groups hflag, m.text_advance s pos]
      -- the text that the agent keeps from the match before is the same
      have hkeptText : repl.getD (r.nrRule.text (s.drop pos) m) = r.nrRule.text (s.drop pos) m := by
        cases repl with
        | none => rfl
        | some text =>
            obtain ⟨hflag, rfl⟩ := hkept text rfl
            simp [NrRule.text, KeptRule.nrRule, hflag]
      have hstartAt : m'.start = m.start + pos := hsame.start
      have hstopAt : m'.stop = pos + m.stop := hsame.stop.trans (Nat.add_comm _ _)
      have haligned : pos + runeWidth (s.drop pos) ≤ m'.stop :=
        hfind.aligned hin (by omega)
      -- the daemon goes on at the end of the match
      have hnextPos : (if pos + runeWidth (s.drop pos) > m'.stop then pos + runeWidth (s.drop pos)
          else if pos + 1 > m'.stop then pos + 1 else m'.stop) = pos + m.stop := by
        rw [if_neg (by omega), if_neg (by omega), hstopAt]
      have hnextKept : ∀ text, (if r.nrRule.hasAlts || r.nrRule.hasCaptures then none
          else some (r.nrRule.text (s.drop pos) m)) = some text →
          hasCaptures r.replacement = false ∧ text = r.replacement := by
        intro text htext'
        split_ifs at htext' with hflags
        cases htext'
        have hflag : hasCaptures r.replacement = false := by
          simp only [Bool.or_eq_true, not_or, Bool.not_eq_true] at hflags
          exact hflags.2
        exact ⟨hflag, by simp [NrRule.text, KeptRule.nrRule, hflag]⟩
      have hrec := ih (by omega) (show s.length < pos + m.stop + fuel by omega)
        (show s.length < pos + m.stop + fuel' by omega) hnextKept
      rw [replaceAllFrom, replaceAllLoop, if_pos hpos, hin]
      simp only [nrRegexMatchCapture]
      rw [show find r.nrRule.regex (s.drop pos) 0 = some m from hrest]
      simp only [hkeptText]
      rw [hrec, Option.map_some]
      have hreplaced : m'.stop > pos ∨ m'.start = 0 := Or.inl (by omega)
      rw [if_pos hreplaced, htext, hnextPos, hstopAt, slice, hstartAt, Nat.add_sub_cancel]

/-- The result of the daemon that corresponds to one of the agent. -/
def metricRuleResult : NrRulesResult → MetricRuleResult
  | .ignore => .ignore
  | .unchanged => .unmatched
  | .changed => .matched

theorem replaceFirst_segment (hfind : EngineOk find) {r : KeptRule Re} {seg : Bytes}
    (h : ∀ m, find r.regex seg 0 = some m → m.start = 0 ∧ m.stop = seg.length ∧
      ReplacementOk letter (substringsCount m) r.replacement) :
    replaceFirst find names letter r.regex seg r.metricRule.transformedReplacement =
      (if (applySegment find r.nrRule seg).1 then .matched else .unmatched,
        (applySegment find r.nrRule seg).2) := by
  cases hm : find r.regex seg 0 with
  | none =>
      have happly : applySegment find r.nrRule seg = (false, seg) := by
        simp only [applySegment, nrRegexMatchCapture, KeptRule.nrRule, hm]
      rw [happly, replaceFirst, hm]
      rfl
  | some m =>
      obtain ⟨hstart, hstop, hrepl⟩ := h m hm
      have happly : applySegment find r.nrRule seg = (true, r.nrRule.text seg m) := by
        simp only [applySegment, nrRegexMatchCapture]
        rw [show find r.nrRule.regex seg 0 = some m from hm]
      have hiso : Isolated find r.regex r.replacement seg m := by
        refine ⟨m, ?_, ?_⟩
        · rw [hstart, hstop, slice, List.drop_zero, Nat.sub_zero, List.take_length]
          exact hm
        · rw [hstart, m.advance_zero]
          exact ⟨rfl, rfl, fun _ => rfl⟩
      rw [happly, replaceFirst_of_isolated names hfind hm hiso hrepl, hstart, hstop]
      simp

/-- One rule comes to the same on both sides. -/
def SameOutcome (find : Engine Re) (letter : Bytes → ℕ) (r : KeptRule Re) (s : Bytes) : Prop :=
  ∃ result s', nrRuleApply find r.nrRule s = some (result, s') ∧
    r.metricRule.apply find names letter s = (metricRuleResult result, s')

theorem sameOutcome_first (hfind : EngineOk find) {r : KeptRule Re} {s : Bytes}
    (hignore : r.raw.ignore = false) (heach : r.raw.eachSegment = false)
    (hall : r.raw.replaceAll = false)
    (h : ∀ m, find r.regex s 0 = some m →
      Isolated find r.regex r.replacement s m ∧
        ReplacementOk letter (substringsCount m) r.replacement) :
    SameOutcome names find letter r s := by
  have hdaemon : r.metricRule.apply find names letter s =
      replaceFirst find names letter r.regex s r.metricRule.transformedReplacement :=
    apply_first hignore hall heach s
  rw [SameOutcome, nrRuleApply_first hignore heach hall, hdaemon]
  cases hm : find r.regex s 0 with
  | none =>
      rw [show find r.nrRule.regex s 0 = none from hm, replaceFirst, hm]
      exact ⟨.unchanged, s, rfl, rfl⟩
  | some m =>
      obtain ⟨hiso, hrepl⟩ := h m hm
      rw [show find r.nrRule.regex s 0 = some m from hm,
        replaceFirst_of_isolated names hfind hm hiso hrepl]
      exact ⟨.changed, _, rfl, rfl⟩

theorem sameOutcome_replaceAll (hfind : EngineOk find) {r : KeptRule Re} {s : Bytes}
    (hignore : r.raw.ignore = false) (heach : r.raw.eachSegment = false)
    (hall : r.raw.replaceAll = true)
    (h : ScansAlike find letter r.regex r.replacement s 0) :
    SameOutcome names find letter r s := by
  have hloop := replaceAllFrom_of_scansAlike names hfind h (Nat.zero_le _)
    (show s.length < 0 + (s.length + 1) by omega) (show s.length < 0 + (s.length + 2) by omega)
    (show ∀ text, none = some text → _ from fun text htext => absurd htext (by simp))
  rw [SameOutcome, nrRuleApply_replaceAll hignore heach hall, hloop, apply_replaceAll hignore hall]
  refine ⟨_, _, rfl, ?_⟩
  rw [show r.nrRule.regex = r.metricRule.re from rfl]
  split_ifs with hsome
  · rfl
  · -- nothing is replaced where there is no match
    have hnone : find r.regex s 0 = none := by
      simpa [KeptRule.metricRule] using hsome
    rw [replaceAllLoop, if_pos (Nat.zero_le _), hnone]
    rfl

theorem sameOutcome_eachSegment (hfind : EngineOk find) {r : KeptRule Re} {rest : Bytes}
    (hignore : r.raw.ignore = false) (heach : r.raw.eachSegment = true)
    (hall : r.raw.replaceAll = false) (hempty : find r.regex [] 0 = none)
    (h : ∀ seg ∈ splitSlash rest, ∀ m, find r.regex seg 0 = some m →
      m.start = 0 ∧ m.stop = seg.length ∧
        ReplacementOk letter (substringsCount m) r.replacement) :
    SameOutcome names find letter r (0x2f :: rest) := by
  have hfirst : replaceFirst find names letter r.regex [] r.metricRule.transformedReplacement =
      (.unmatched, []) := by
    rw [replaceFirst, hempty]
  have hsegs : (splitSlash rest).map (fun segment =>
      replaceFirst find names letter r.regex segment r.metricRule.transformedReplacement) =
      ((splitSlash rest).map (applySegment find r.nrRule)).map fun seg =>
        (if seg.1 then .matched else .unmatched, seg.2) := by
    rw [List.map_map]
    exact List.map_congr_left fun seg hseg => replaceFirst_segment names hfind (h seg hseg)
  have hsplit : splitSlash (0x2f :: rest) = [] :: splitSlash rest := by
    rw [splitSlash, if_pos rfl]
  have hdaemon : (splitSlash (0x2f :: rest)).map (fun segment => replaceFirst find names letter
      r.metricRule.re segment r.metricRule.transformedReplacement) =
      (.unmatched, []) :: ((splitSlash rest).map (applySegment find r.nrRule)).map fun seg =>
        (if seg.1 then .matched else .unmatched, seg.2) := by
    rw [hsplit, List.map_cons, ← hsegs, ← hfirst]
    rfl
  rw [SameOutcome, nrRuleApply_eachSegment hignore heach, apply_eachSegment hignore hall heach,
    hdaemon]
  generalize (splitSlash rest).map (applySegment find r.nrRule) = applied
  refine ⟨_, _, rfl, Prod.ext ?_ ?_⟩
  · have hany : ((MetricRuleResult.unmatched, []) :: applied.map fun seg =>
        (if seg.1 then MetricRuleResult.matched else .unmatched, seg.2)).any
        (fun seg => seg.1 = .matched) = applied.any Prod.fst := by
      rw [List.any_cons, List.any_map]
      refine (Bool.false_or _).trans (congrArg _ (funext fun seg => ?_))
      cases hseg : seg.1 <;> simp [hseg]
    rw [hany]
    split_ifs <;> rfl
  · rw [List.map_cons, List.map_map, joinSlash_nil_cons, List.flatMap_map]
    rfl

theorem sameOutcome_of_stepAgrees (hfind : EngineOk find) {r : KeptRule Re} {s : Bytes}
    (h : StepAgrees find letter r s) : SameOutcome names find letter r s := by
  obtain ⟨hignore, h⟩ := h
  split_ifs at h with heach hall
  · obtain ⟨hall, rest, rfl, hempty, hsegs⟩ := h
    exact sameOutcome_eachSegment names hfind hignore heach hall hempty hsegs
  · rw [Bool.not_eq_true] at heach
    exact sameOutcome_replaceAll names hfind hignore heach hall h
  · rw [Bool.not_eq_true] at heach hall
    exact sameOutcome_first names hfind hignore heach hall h

/-! ### Chains of rules -/

/-- The daemon finds a match: one that is not empty for a rule to ignore names, and one in a segment
for a rule for every segment that does not replace all matches. -/
def DaemonFinds (find : Engine Re) (r : KeptRule Re) (s : Bytes) : Prop :=
  if r.raw.ignore then ∃ m, find r.regex s 0 = some m ∧ m.start < m.stop
  else if r.raw.eachSegment && !r.raw.replaceAll then
    ∃ seg ∈ splitSlash s, find r.regex seg 0 ≠ none
  else find r.regex s 0 ≠ none

theorem apply_of_not_daemonFinds (hfind : EngineOk find) {r : KeptRule Re} {s : Bytes}
    (h : ¬ DaemonFinds find r s) : r.metricRule.apply find names letter s = (.unmatched, s) := by
  rw [DaemonFinds] at h
  split_ifs at h with hignore heach
  · rw [apply_ignore (show r.metricRule.ignore = true from hignore),
      show r.metricRule.re = r.regex from rfl]
    cases hm : find r.regex s 0 with
    | none => rfl
    | some m =>
        have hempty : slice s m.start m.stop = [] := by
          refine List.length_eq_zero_iff.mp ?_
          rw [length_slice (hfind.stop_le hm)]
          have := not_lt.mp fun hlt => h ⟨m, hm, hlt⟩
          omega
        simp only [hempty, ne_eq, not_true_eq_false, if_false]
  · rw [Bool.not_eq_true] at hignore
    rw [Bool.and_eq_true, Bool.not_eq_true'] at heach
    have hsegs : (splitSlash s).map (fun segment => replaceFirst find names letter
        r.metricRule.re segment r.metricRule.transformedReplacement) =
        (splitSlash s).map fun segment => (.unmatched, segment) := by
      refine List.map_congr_left fun seg hseg => ?_
      have hnone : find r.metricRule.re seg 0 = none := by
        by_contra hsome
        exact h ⟨seg, hseg, hsome⟩
      rw [replaceFirst, hnone]
    rw [apply_eachSegment (show r.metricRule.ignore = false from hignore) heach.2 heach.1, hsegs,
      List.map_map]
    simp [joinSlash_splitSlash]
  · rw [Bool.not_eq_true] at hignore
    have hnone : find r.metricRule.re s 0 = none := not_not.mp h
    cases hall : r.raw.replaceAll with
    | true =>
        rw [apply_replaceAll (show r.metricRule.ignore = false from hignore) hall, hnone]
        rfl
    | false =>
        have heach' : r.raw.eachSegment = false := by simpa [hall] using heach
        rw [apply_first (show r.metricRule.ignore = false from hignore) hall heach', replaceFirst,
          hnone]

theorem apply_of_daemonFinds_ignore (hfind : EngineOk find) {r : KeptRule Re} {s : Bytes}
    (hignore : r.raw.ignore = true) (h : DaemonFinds find r s) :
    r.metricRule.apply find names letter s = (.ignore, []) := by
  rw [DaemonFinds, if_pos hignore] at h
  obtain ⟨m, hm, hlt⟩ := h
  have hne : slice s m.start m.stop ≠ [] := by
    refine List.ne_nil_of_length_pos ?_
    rw [length_slice (hfind.stop_le hm)]
    omega
  rw [apply_ignore (show r.metricRule.ignore = true from hignore),
    show r.metricRule.re = r.regex from rfl, hm]
  simp only [if_pos hne]

/-- But for rules in which a side finds no match, the two have the same rules before them, each with
the same name, and come out alike; rules to ignore names may be others. The strings are what
each side has of the name, which may differ once a rule for every segment has taken the first
byte of it for a slash. -/
inductive RunsAlike (find : Engine Re) (letter : Bytes → ℕ) :
    (agent daemon : List (KeptRule Re)) → (changed : Bool) → (s t : Bytes) → Prop
  | done {changed : Bool} {s t : Bytes} (hsame : changed = true → s = t) :
      RunsAlike find letter [] [] changed s t
  | agentFindsNone {r : KeptRule Re} {agent daemon : List (KeptRule Re)} {changed : Bool}
      {s s' t : Bytes} (happly : nrRuleApply find r.nrRule s = some (.unchanged, s'))
      (hrest : RunsAlike find letter agent daemon changed s' t) :
      RunsAlike find letter (r :: agent) daemon changed s t
  | daemonFindsNone {r : KeptRule Re} {agent daemon : List (KeptRule Re)} {changed : Bool}
      {s t : Bytes} (hnot : ¬ DaemonFinds find r t)
      (hrest : RunsAlike find letter agent daemon changed s t) :
      RunsAlike find letter agent (r :: daemon) changed s t
  | ignored {r r' : KeptRule Re} {agent daemon : List (KeptRule Re)} {changed : Bool}
      {s t : Bytes} (hignore : r.raw.ignore = true) (hignore' : r'.raw.ignore = true)
      (hfinds : find r.regex s 0 ≠ none) (hfinds' : DaemonFinds find r' t) :
      RunsAlike find letter (r :: agent) (r' :: daemon) changed s t
  | terminated {r : KeptRule Re} {agent daemon : List (KeptRule Re)} {changed : Bool}
      {s s' : Bytes} (hstep : StepAgrees find letter r s)
      (happly : nrRuleApply find r.nrRule s = some (.changed, s'))
      (hterminate : r.raw.terminateChain = true) :
      RunsAlike find letter (r :: agent) (r :: daemon) changed s s
  | step {r : KeptRule Re} {agent daemon : List (KeptRule Re)} {changed : Bool}
      {s s' : Bytes} (hstep : StepAgrees find letter r s)
      (happly : nrRuleApply find r.nrRule s = some (.changed, s'))
      (hterminate : r.raw.terminateChain = false)
      (hrest : RunsAlike find letter agent daemon true s' s') :
      RunsAlike find letter (r :: agent) (r :: daemon) changed s s

/-- A rule that changes the name on the side of the agent changes it alike on that of the daemon. -/
theorem apply_of_changed (hfind : EngineOk find) {r : KeptRule Re} {s s' : Bytes}
    (hstep : StepAgrees find letter r s)
    (happly : nrRuleApply find r.nrRule s = some (.changed, s')) :
    r.metricRule.apply find names letter s = (.matched, s') := by
  obtain ⟨result, s'', hagent, hdaemon⟩ := sameOutcome_of_stepAgrees names hfind hstep
  cases hagent.symm.trans happly
  exact hdaemon

theorem RunsAlike.sameResult (hfind : EngineOk find) {agent daemon : List (KeptRule Re)}
    {changed : Bool} {s t : Bytes} (h : RunsAlike find letter agent daemon changed s t) :
    ∃ result s', nrRulesApplyLoop find (agent.map KeptRule.nrRule) changed s = some (result, s') ∧
      (applyLoop find names letter (daemon.map KeptRule.metricRule) changed t).1 =
        metricRuleResult result ∧
      (result = .changed →
        (applyLoop find names letter (daemon.map KeptRule.metricRule) changed t).2 = s') ∧
      (result = .unchanged → changed = false ∧
        (applyLoop find names letter (daemon.map KeptRule.metricRule) changed t).2 = t) := by
  induction h with
  | @done changed s t hsame =>
      refine ⟨if changed then .changed else .unchanged, s, rfl, ?_⟩
      cases changed with
      | false => exact ⟨rfl, nofun, fun _ => ⟨rfl, rfl⟩⟩
      | true => exact ⟨rfl, fun _ => (hsame rfl).symm, nofun⟩
  | agentFindsNone happly _ ih =>
      rw [List.map_cons, nrRulesApplyLoop, happly]
      exact ih
  | daemonFindsNone hnot _ ih =>
      rw [List.map_cons, applyLoop, apply_of_not_daemonFinds names hfind hnot]
      exact ih
  | @ignored r r' agent daemon changed s t hignore hignore' hfinds hfinds' =>
      have happly : nrRuleApply find r.nrRule s = some (.ignore, s) := by
        rw [nrRuleApply_ignore (show r.nrRule.ignore = true from hignore),
          if_pos (show (find r.nrRule.regex s 0).isSome = true from
            Option.isSome_iff_ne_none.mpr hfinds)]
      rw [List.map_cons, nrRulesApplyLoop, happly, List.map_cons, applyLoop,
        apply_of_daemonFinds_ignore names hfind hignore' hfinds']
      exact ⟨.ignore, s, rfl, rfl, nofun, nofun⟩
  | @terminated r agent daemon changed s s' hstep happly hterminate =>
      rw [List.map_cons, nrRulesApplyLoop, happly, List.map_cons, applyLoop,
        apply_of_changed names hfind hstep happly]
      simp only [if_pos (show r.nrRule.terminate = true from hterminate),
        if_pos (show r.metricRule.terminate = true from hterminate)]
      exact ⟨.changed, s', rfl, rfl, fun _ => rfl, nofun⟩
  | @step r agent daemon changed s s' hstep happly hterminate _ ih =>
      have hnot : ¬ r.raw.terminateChain = true := by simp [hterminate]
      rw [List.map_cons, nrRulesApplyLoop, happly, List.map_cons, applyLoop,
        apply_of_changed names hfind hstep happly]
      simp only [if_neg (show ¬ r.nrRule.terminate = true from hnot),
        if_neg (show ¬ r.metricRule.terminate = true from hnot)]
      obtain ⟨result, s'', hagent, hresult, hchanged, hunchanged⟩ := ih
      exact ⟨result, s'', hagent, hresult, hchanged, fun hres => by cases (hunchanged hres).1⟩

/-! ### Rule sets -/

/-- The rules with expressions that compile. -/
def keptRules (compile : Bytes → Option Re) (raw : List RawRule) : List (KeptRule Re) :=
  raw.filterMap fun r => (compile (r.matchExpression.getD [])).map fun regex => ⟨r, regex⟩

/-- The agent wants an expression, and a replacement unless the name is to be ignored. -/
def keptByAgent (r : RawRule) : Bool :=
  r.matchExpression.getD [] ≠ [] ∧ ¬ (r.replacement = none ∧ r.ignore = false)

/-- The rules of the agent, in its order. -/
def agentRules (compile : Bytes → Option Re) (raw : List RawRule) : List (KeptRule Re) :=
  (keptRules compile (raw.filter keptByAgent)).mergeSort fun a b => a.agentOrder ≤ b.agentOrder

/-- The rules of the daemon, in its order. -/
def daemonRules (compile : Bytes → Option Re) (raw : List RawRule) : List (KeptRule Re) :=
  (keptRules compile (raw.filter fun r =>
    !transformReplacementAmbiguous (r.replacement.getD []))).mergeSort
      fun a b => a.daemonOrder ≤ b.daemonOrder

theorem nrRulesProcessRule_eq (compile : Bytes → Option Re) (r : RawRule) :
    nrRulesProcessRule compile r =
      if keptByAgent r then
        (compile (r.matchExpression.getD [])).map fun regex => (KeptRule.mk r regex).nrRule
      else none := by
  rw [nrRulesProcessRule]
  cases hmstr : r.matchExpression with
  | none => simp [keptByAgent, hmstr]
  | some mstr =>
      by_cases hnone : r.replacement = none ∧ r.ignore = false
      · simp [keptByAgent, hnone]
      · by_cases hempty : mstr = []
        · simp [keptByAgent, hmstr, hempty]
        · have hkept : keptByAgent r = true := by
            rw [keptByAgent, hmstr, decide_eq_true_iff]
            exact ⟨hempty, hnone⟩
          simp only [if_neg hnone, if_neg hempty, if_pos hkept, Option.getD_some]
          refine congrArg (Option.map · (compile mstr)) (funext fun regex => ?_)
          simp only [KeptRule.nrRule, KeptRule.replacement, KeptRule.agentOrder, hmstr,
            Option.getD_some]

theorem newMetricRule_eq (compile : Bytes → Option Re) (r : RawRule) :
    newMetricRule compile r =
      if !transformReplacementAmbiguous (r.replacement.getD []) then
        (compile (r.matchExpression.getD [])).map fun regex => (KeptRule.mk r regex).metricRule
      else none := by
  rw [newMetricRule]
  cases compile (r.matchExpression.getD []) with
  | none => simp
  | some regex =>
      cases transformReplacementAmbiguous (r.replacement.getD []) <;> rfl

theorem filterMap_keptRules {α : Type} {compile : Bytes → Option Re} {keeps : RawRule → Bool}
    {process : RawRule → Option α} {f : KeptRule Re → α}
    (h : ∀ r, process r = if keeps r then
      (compile (r.matchExpression.getD [])).map fun regex => f ⟨r, regex⟩ else none)
    (raw : List RawRule) :
    raw.filterMap process = (keptRules compile (raw.filter keeps)).map f := by
  rw [keptRules, List.map_filterMap, List.filterMap_filter]
  refine List.filterMap_congr fun r _ => (h r).trans ?_
  split
  · rw [Option.map_map]
    rfl
  · rfl

theorem nrRulesCreateFromObj_eq (compile : Bytes → Option Re) (raw : List RawRule) :
    nrRulesCreateFromObj compile raw = (agentRules compile raw).map KeptRule.nrRule := by
  rw [nrRulesCreateFromObj, filterMap_keptRules (nrRulesProcessRule_eq compile), agentRules]
  generalize keptRules compile _ = rules
  have hsame : ∀ a ∈ rules, ∀ b ∈ rules,
      decide (a.agentOrder ≤ b.agentOrder) = decide (a.nrRule.order ≤ b.nrRule.order) :=
    fun _ _ _ _ => rfl
  exact (List.map_mergeSort hsame).symm

theorem newMetricRulesFromJSON_eq (compile : Bytes → Option Re) (raw : List RawRule) :
    newMetricRulesFromJSON compile raw = (daemonRules compile raw).map KeptRule.metricRule := by
  rw [newMetricRulesFromJSON, filterMap_keptRules (newMetricRule_eq compile), daemonRules]
  generalize keptRules compile _ = rules
  have hsame : ∀ a ∈ rules, ∀ b ∈ rules,
      decide (a.daemonOrder ≤ b.daemonOrder) =
        decide (a.metricRule.order ≤ b.metricRule.order) := fun _ _ _ _ => rfl
  exact (List.map_mergeSort hsame).symm

end

/-! ### Runs of digits -/

/-- The engine for `[0-9]+` on subjects that are ASCII. -/
def digitRuns : Engine Unit := fun _ s pos =>
  let skipped := (s.drop pos).takeWhile fun b => !isDigit b
  let run := ((s.drop pos).dropWhile fun b => !isDigit b).takeWhile isDigit
  if (s.all fun b => b.toNat < 0x80) ∧ run ≠ [] then
    some
      { start := pos + skipped.length
        stop := pos + skipped.length + run.length
        groups := [] }
  else none

def compileDigits (expr : Bytes) : Option Unit := if expr = ascii "[0-9]+" then some () else none

theorem digitRuns_eq_some {re : Unit} {s : Bytes} {pos : ℕ} {m : Match}
    (h : digitRuns re s pos = some m) : (∀ b ∈ s, b.toNat < 0x80) ∧ m.groups = [] ∧
      pos ≤ m.start ∧ m.start < m.stop ∧ m.stop ≤ s.length := by
  simp only [digitRuns] at h
  split_ifs at h with hcond
  cases h
  obtain ⟨hascii, hrun⟩ := hcond
  have hpos := List.length_pos_of_ne_nil hrun
  have htake : (((s.drop pos).dropWhile fun b => !isDigit b).takeWhile isDigit).length ≤
      ((s.drop pos).dropWhile fun b => !isDigit b).length :=
    (List.takeWhile_prefix _).length_le
  have hsplit := congrArg List.length
    (List.takeWhile_append_dropWhile (p := fun b => !isDigit b) (l := s.drop pos))
  rw [List.length_append, List.length_drop] at hsplit
  refine ⟨fun b hb => by simpa using List.all_eq_true.mp hascii b hb, rfl, ?_, ?_, ?_⟩ <;>
    simp only <;> omega

theorem runeWidth_ascii {bs : Bytes} (h : ∀ b ∈ bs, b.toNat < 0x80) : runeWidth bs ≤ 1 := by
  match bs with
  | [] => exact Nat.zero_le _
  | [_] => exact le_rfl
  | b :: b' :: bs =>
      rw [runeWidth.eq_def]
      simp only
      rw [if_pos (h b List.mem_cons_self)]

theorem engineOk_digitRuns : EngineOk digitRuns where
  start_le h := (digitRuns_eq_some h).2.2.1
  le_stop h := (digitRuns_eq_some h).2.2.2.1.le
  stop_le h := (digitRuns_eq_some h).2.2.2.2
  group_le h hmem := by
    rw [(digitRuns_eq_some h).2.1] at hmem
    exact absurd hmem List.not_mem_nil
  groups_le h := by
    rw [(digitRuns_eq_some h).2.1]
    exact Nat.zero_le _
  aligned {_ s pos _} h hlt := by
    obtain ⟨hascii, -, hstart, -⟩ := digitRuns_eq_some h
    have hwidth : runeWidth (s.drop pos) ≤ 1 :=
      runeWidth_ascii fun b hb => hascii b (List.mem_of_mem_drop hb)
    omega

/-- A rule that replaces runs of digits in segments. -/
def digitsRule : RawRule where
  matchExpression := some (ascii "[0-9]+")
  replacement := some (ascii "*")
  ignore := false
  eachSegment := true
  replaceAll := false
  terminateChain := false
  evalOrder := some 1

theorem rules_digitsRule : agentRules compileDigits [digitsRule] = [⟨digitsRule, ()⟩] ∧
    daemonRules compileDigits [digitsRule] = [⟨digitsRule, ()⟩] :=
  ⟨List.mergeSort_singleton .., List.mergeSort_singleton ..⟩

/-- Without a match both sides leave a name as it is, also one without a slash in front. -/
example : RunsAlike digitRuns (fun _ => 0) [⟨digitsRule, ()⟩] [⟨digitsRule, ()⟩] false
    (ascii "WebTransaction/Uri/abc") (ascii "WebTransaction/Uri/abc") := by
  have happly : nrRuleApply digitRuns (KeptRule.mk digitsRule ()).nrRule
      (ascii "WebTransaction/Uri/abc") = some (.unchanged, ascii "/ebTransaction/Uri/abc") := by
    decide
  have hnot : ¬ DaemonFinds digitRuns ⟨digitsRule, ()⟩ (ascii "WebTransaction/Uri/abc") := by
    rw [DaemonFinds]
    decide
  exact .agentFindsNone happly (.daemonFindsNone hnot (.done nofun))

end AxiomDaemon.Daemon.RuleEngine

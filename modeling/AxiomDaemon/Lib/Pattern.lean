import AxiomDaemon.Lib.Text

/-!
Patterns of PCRE without repetition: characters, groups and alternatives, the
dot and the end of the subject. A pattern is read token by token, and what it
matches is said by the parts of the subject that are left behind a match.

Upper and lower case are told apart by a function that folds them. What is
looked for is a match at the start of the subject; there may be something
behind it. A dot does not match a line feed, and the end of the subject is
also before a last line feed, which is what these are without options.
-/

namespace AxiomDaemon.Lib

inductive Pattern
  | empty
  | literal (b : UInt8)
  | any
  | endOfSubject
  | seq (r r' : Pattern)
  | alt (r r' : Pattern)
  | group (r : Pattern)
  deriving DecidableEq

namespace Pattern

def lineFeed : UInt8 := 0x0a

/-- What is left of a subject behind the matches at its start, in the order in which
they are tried. -/
def rests (fold : UInt8 → UInt8) : Pattern → Bytes → List Bytes
  | empty, s => [s]
  | literal _, [] => []
  | literal c, b :: s => if fold b = fold c then [s] else []
  | any, [] => []
  | any, b :: s => if b = lineFeed then [] else [s]
  | endOfSubject, s => if s = [] ∨ s = [lineFeed] then [s] else []
  | seq r r', s => (r.rests fold s).flatMap (r'.rests fold)
  | alt r r', s => r.rests fold s ++ r'.rests fold s
  | group r, s => r.rests fold s

/-- There is a match at the start. -/
def matchesStart (fold : UInt8 → UInt8) (r : Pattern) (s : Bytes) : Bool :=
  !(r.rests fold s).isEmpty

/-! ### Reading a pattern -/

inductive Token
  | chr (b : UInt8)
  | opening
  | closing
  | bar
  | dot
  | dollar
  deriving DecidableEq

/-- Behind a backslash, letters and digits have a meaning that is not dealt with. -/
def isAlphanumeric (b : UInt8) : Bool :=
  isDigit b || (0x41 ≤ b.toNat && b.toNat ≤ 0x5a) || (0x61 ≤ b.toNat && b.toNat ≤ 0x7a)

/-- What a byte means that no backslash is before. Quantifiers, classes and the start of
the subject are not dealt with. -/
def tokenOf (b : UInt8) : Option Token :=
  if b ∈ ascii "*+?\x7b[^" then none
  else if b = 0x28 then some .opening
  else if b = 0x29 then some .closing
  else if b = 0x7c then some .bar
  else if b = 0x2e then some .dot
  else if b = 0x24 then some .dollar
  else some (.chr b)

/-- The tokens of a pattern; the flag says that a backslash was read. -/
def tokens : (escaped : Bool) → Bytes → Option (List Token)
  | false, [] => some []
  | true, [] => none
  | true, b :: p => if isAlphanumeric b then none else (tokens false p).map (.chr b :: ·)
  | false, b :: p =>
      if b = 0x5c then tokens true p
      else (tokenOf b).bind fun token => (tokens false p).map (token :: ·)

/-- An alternation that is being read: the alternatives before, and the one that is
not at its end. -/
structure Frame where
  before : Option Pattern
  current : Pattern

namespace Frame

def opened : Frame := { before := none, current := empty }

def add (f : Frame) (r : Pattern) : Frame := { f with current := .seq f.current r }

def close (f : Frame) : Pattern :=
  match f.before with
  | none => f.current
  | some r => .alt r f.current

/-- The next alternative begins. -/
def next (f : Frame) : Frame := { before := some f.close, current := empty }

end Frame

/-- The groups that are open are on a stack. -/
def parseTokens : List Token → (outer : List Frame) → Frame → Option Pattern
  | [], [], f => some f.close
  | [], _ :: _, _ => none
  | .opening :: ts, outer, f => parseTokens ts (f :: outer) .opened
  | .closing :: _, [], _ => none
  | .closing :: ts, g :: outer, f => parseTokens ts outer (g.add (.group f.close))
  | .bar :: ts, outer, f => parseTokens ts outer f.next
  | .chr b :: ts, outer, f => parseTokens ts outer (f.add (.literal b))
  | .dot :: ts, outer, f => parseTokens ts outer (f.add .any)
  | .dollar :: ts, outer, f => parseTokens ts outer (f.add .endOfSubject)

def parse (p : Bytes) : Option Pattern := (tokens false p).bind fun ts => parseTokens ts [] .opened

/-! ### Texts -/

/-- The pattern that is the characters of a text, one after the other. -/
def addText (f : Frame) (text : Bytes) : Frame := text.foldl (fun f b => f.add (.literal b)) f

theorem parseTokens_text (text : Bytes) (ts : List Token) (outer : List Frame) (f : Frame) :
    parseTokens (text.map .chr ++ ts) outer f = parseTokens ts outer (addText f text) := by
  induction text generalizing f with
  | nil => rfl
  | cons b text ih => exact ih (f.add (.literal b))

section

variable (fold : UInt8 → UInt8)

/-- A text stands at the start of a subject, upper or lower case. -/
def StartsWith (text s : Bytes) : Prop := text.map fold <+: s.map fold

instance (text s : Bytes) : Decidable (StartsWith fold text s) :=
  inferInstanceAs (Decidable (_ <+: _))

variable {fold}

theorem startsWith_nil (s : Bytes) : StartsWith fold [] s := List.nil_prefix

theorem startsWith_cons {c b : UInt8} {text s : Bytes} :
    StartsWith fold (c :: text) (b :: s) ↔ fold b = fold c ∧ StartsWith fold text s := by
  rw [StartsWith, List.map_cons, List.map_cons, List.cons_prefix_cons, eq_comm]
  rfl

theorem not_startsWith_nil (c : UInt8) (text : Bytes) : ¬ StartsWith fold (c :: text) [] := by
  rw [StartsWith, List.map_nil, List.prefix_nil]
  exact List.cons_ne_nil _ _

theorem rests_addText (text : Bytes) (f : Frame) (s : Bytes) :
    (addText f text).current.rests fold s =
      (f.current.rests fold s).flatMap fun r =>
        if StartsWith fold text r then [r.drop text.length] else [] := by
  induction text generalizing f with
  | nil =>
      simp only [addText, List.foldl_nil, startsWith_nil, if_true, List.length_nil, List.drop_zero]
      exact (List.flatMap_singleton' _).symm
  | cons c text ih =>
      have hstep := ih (f.add (.literal c))
      have hcurrent : (f.add (.literal c)).current.rests fold s =
          (f.current.rests fold s).flatMap ((literal c).rests fold) := rfl
      rw [hcurrent, List.flatMap_assoc] at hstep
      refine hstep.trans (congrArg (List.flatMap · _) (funext fun r => ?_))
      cases r with
      | nil =>
          rw [if_neg (not_startsWith_nil c text)]
          rfl
      | cons b r =>
          simp only [rests, startsWith_cons]
          by_cases hb : fold b = fold c
          · simp only [hb, if_true, true_and, List.flatMap_singleton, List.length_cons,
              List.drop_succ_cons]
          · simp only [hb, if_false, false_and, List.flatMap_nil]

theorem before_addText (text : Bytes) (f : Frame) : (addText f text).before = f.before := by
  induction text generalizing f with
  | nil => rfl
  | cons b text ih => exact ih (f.add (.literal b))

/-- The pattern that is a text in a group. -/
def textGroup (text : Bytes) : Pattern := .group (addText .opened text).close

theorem matchesStart_eq_true {r : Pattern} {s : Bytes} :
    r.matchesStart fold s = true ↔ r.rests fold s ≠ [] := by
  rw [matchesStart, Bool.not_eq_true', List.isEmpty_eq_false_iff]

theorem matchesStart_textGroup {text s : Bytes} :
    (Pattern.seq .empty (textGroup text)).matchesStart fold s = true ↔ StartsWith fold text s := by
  have hrests : (Pattern.seq .empty (textGroup text)).rests fold s =
      if StartsWith fold text s then [s.drop text.length] else [] := by
    have htext : (addText .opened text).current.rests fold s = _ := rests_addText text .opened s
    simp only [Frame.opened, rests, List.flatMap_singleton] at htext
    simp only [rests, textGroup, Frame.close, before_addText, Frame.opened, List.flatMap_singleton]
    exact htext
  rw [matchesStart_eq_true, hrests]
  split_ifs with htext
  · exact iff_of_true (List.cons_ne_nil _ _) htext
  · exact iff_of_false (fun hne => hne rfl) htext

theorem matchesStart_alt {r r' : Pattern} {s : Bytes} :
    (Pattern.alt r r').matchesStart fold s = true ↔
      r.matchesStart fold s = true ∨ r'.matchesStart fold s = true := by
  simp only [matchesStart_eq_true, rests, ne_eq, List.append_eq_nil_iff, not_and_or]

/-- The tokens of a text in a group. -/
def groupTokens (text : Bytes) : List Token := .opening :: (text.map .chr ++ [.closing])

theorem parseTokens_groupTokens (text : Bytes) (ts : List Token) (f : Frame) :
    parseTokens (groupTokens text ++ ts) [] f = parseTokens ts [] (f.add (textGroup text)) := by
  rw [groupTokens, List.cons_append, List.append_assoc, parseTokens, parseTokens_text]
  rfl

/-- Alternatives that are a text in a group each, behind what was read before. -/
theorem parseTokens_alternatives (texts : List Bytes) (f : Frame) :
    ∃ r, parseTokens (texts.flatMap fun text => .bar :: groupTokens text) [] f = some r ∧
      ∀ s, r.matchesStart fold s = true ↔
        f.close.matchesStart fold s = true ∨ ∃ text ∈ texts, StartsWith fold text s := by
  induction texts generalizing f with
  | nil =>
      refine ⟨f.close, rfl, fun s => ?_⟩
      simp only [List.not_mem_nil, false_and, exists_false, or_false]
  | cons text texts ih =>
      obtain ⟨r, hparse, hmatches⟩ := ih (f.next.add (textGroup text))
      refine ⟨r, ?_, fun s => ?_⟩
      · rw [List.flatMap_cons, List.cons_append, parseTokens, parseTokens_groupTokens]
        exact hparse
      · have hclose : (f.next.add (textGroup text)).close =
            .alt f.close (.seq .empty (textGroup text)) := rfl
        rw [hmatches, hclose, matchesStart_alt, matchesStart_textGroup, or_assoc]
        simp only [List.mem_cons, exists_eq_or_imp]

end

end Pattern

end AxiomDaemon.Lib

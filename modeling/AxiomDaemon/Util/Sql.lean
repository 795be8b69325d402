import AxiomDaemon.Lib.Json
import Mathlib.Data.List.TakeWhile

/-!
Obfuscation of SQL, `util_sql.c`: a quoted literal and a run of digits become a
question mark each, comments go.

What the obfuscation is for is said by `SameButLiterals`, which relates two
texts that agree outside their literals, their numbers and their comments.
-/

namespace AxiomDaemon.Util

open AxiomDaemon.Lib AxiomDaemon.Lib.Json

abbrev apostrophe : UInt8 := 0x27
abbrev newline : UInt8 := 0x0a
abbrev star : UInt8 := 0x2a
abbrev questionMark : UInt8 := 0x3f
abbrev lparen : UInt8 := 0x28
abbrev rparen : UInt8 := 0x29

/-- The states of the scanner: outside everything, inside a literal, inside a
run of digits. -/
inductive SqlState
  | normal
  | quoted (q : UInt8)
  | number
  deriving DecidableEq

/-- What comes behind the first newline; nothing if there is none. -/
def afterNewline (p : Bytes) : Bytes := (p.dropWhile (· ≠ newline)).tail

/-- What comes behind the first end of a comment; nothing if there is none. -/
def afterCommentEnd : Bytes → Bytes
  | [] => []
  | b :: bs => if b = star ∧ bs.head? = some slash then bs.tail else afterCommentEnd bs

theorem length_afterNewline_cons_le (b : UInt8) (bs : Bytes) :
    (afterNewline (b :: bs)).length ≤ bs.length := by
  have hdrop : ((b :: bs).dropWhile (· ≠ newline)).length ≤ (b :: bs).length :=
    (List.dropWhile_suffix _).length_le
  rw [afterNewline, List.length_tail]
  rw [List.length_cons] at hdrop
  omega

theorem length_afterCommentEnd_cons_le (b : UInt8) (bs : Bytes) :
    (afterCommentEnd (b :: bs)).length ≤ bs.length := by
  induction bs generalizing b with
  | nil =>
      rw [afterCommentEnd]
      split <;> rfl
  | cons c cs ih =>
      rw [afterCommentEnd]
      split
      · exact Nat.le_succ _
      · exact (ih c).trans (Nat.le_succ _)

/-- The loop of `nr_sql_obfuscate`. A backslash at the end of a text that is
inside a literal makes the source read on behind the text; here it ends. -/
def obfuscateLoop : SqlState → Bytes → Bytes
  | _, [] => []
  | .normal, b :: bs =>
      if b = quote ∨ b = apostrophe then questionMark :: obfuscateLoop (.quoted b) bs
      else if b = minus ∧ bs.head? = some minus then obfuscateLoop .normal (afterNewline (b :: bs))
      else if b = slash ∧ bs.head? = some star then
        obfuscateLoop .normal (afterCommentEnd (b :: bs))
      else if isDigit b then questionMark :: obfuscateLoop .number bs
      else b :: obfuscateLoop .normal bs
  | .quoted q, b :: bs =>
      if b = backslash then obfuscateLoop (.quoted q) bs.tail
      else if b = q then
        if bs.head? = some q then obfuscateLoop (.quoted q) bs.tail else obfuscateLoop .normal bs
      else obfuscateLoop (.quoted q) bs
  | .number, b :: bs =>
      if isDigit b then obfuscateLoop .number bs else obfuscateLoop .normal (b :: bs)
termination_by state bs => 2 * bs.length + if state = .number then 1 else 0
decreasing_by
  all_goals simp only [if_false, if_true, List.length_cons, List.length_tail]
  all_goals first
    | omega
    | have hnewline := length_afterNewline_cons_le b bs
      have hcomment := length_afterCommentEnd_cons_le b bs
      omega

/-- `nr_sql_obfuscate`. -/
def nrSqlObfuscate (raw : Option Bytes) : Option Bytes := raw.map (obfuscateLoop .normal)

/-! ### Texts that differ in their literals -/

/-- What may stand between two quotes `q`: a backslash makes the next byte a
part of the literal, and so does the quote before another one. -/
inductive LiteralBody (q : UInt8) : Bytes → Prop
  | nil : LiteralBody q []
  | escape (c : UInt8) {bs : Bytes} (h : LiteralBody q bs) : LiteralBody q (backslash :: c :: bs)
  | doubled {bs : Bytes} (h : LiteralBody q bs) : LiteralBody q (q :: q :: bs)
  | plain {b : UInt8} {bs : Bytes} (hquote : b ≠ q) (hbackslash : b ≠ backslash)
      (h : LiteralBody q bs) : LiteralBody q (b :: bs)

/-- A comment to the end of its line, or up to the first end of a comment
behind its slash. -/
inductive IsComment : Bytes → Prop
  | line {body : Bytes} (h : newline ∉ body) : IsComment (minus :: minus :: (body ++ [newline]))
  | block {body : Bytes} (hstart : (body ++ [star]).head? = some star)
      (h : ¬ [star, slash] <:+: body ++ [star]) : IsComment (slash :: (body ++ [star, slash]))

/-- A comment that is not ended. -/
inductive IsOpenComment : Bytes → Prop
  | line {body : Bytes} (h : newline ∉ body) : IsOpenComment (minus :: minus :: body)
  | block {body : Bytes} (h : ¬ [star, slash] <:+: star :: body) :
      IsOpenComment (slash :: star :: body)

def StartsComment (text : Bytes) : Prop :=
  [minus, minus] <+: text ∨ [slash, star] <+: text

instance : DecidablePred StartsComment := fun text =>
  inferInstanceAs (Decidable ([minus, minus] <+: text ∨ [slash, star] <+: text))

theorem not_startsComment {b : UInt8} (hminus : b ≠ minus) (hslash : b ≠ slash) (bs : Bytes) :
    ¬ StartsComment (b :: bs) := by
  rintro (h | h)
  · exact hminus (List.cons_prefix_cons.mp h).1.symm
  · exact hslash (List.cons_prefix_cons.mp h).1.symm

/-- Two texts that are the same but for what their literals, their numbers and
their comments say. -/
inductive SameButLiterals : Bytes → Bytes → Prop
  | nil : SameButLiterals [] []
  | literal {q : UInt8} (hq : q = quote ∨ q = apostrophe) {c d r s : Bytes}
      (hc : LiteralBody q c) (hd : LiteralBody q d) (hr : r.head? ≠ some q)
      (hs : s.head? ≠ some q) (h : SameButLiterals r s) :
      SameButLiterals (q :: (c ++ q :: r)) (q :: (d ++ q :: s))
  | digits {c d r s : Bytes} (hc : c ≠ []) (hd : d ≠ []) (hcd : ∀ b ∈ c, isDigit b)
      (hdd : ∀ b ∈ d, isDigit b) (hr : ∀ b ∈ r.head?, isDigit b = false)
      (hs : ∀ b ∈ s.head?, isDigit b = false) (h : SameButLiterals r s) :
      SameButLiterals (c ++ r) (d ++ s)
  | comment {c d r s : Bytes} (hc : IsComment c) (hd : IsComment d) (h : SameButLiterals r s) :
      SameButLiterals (c ++ r) (d ++ s)
  | openComment {c d : Bytes} (hc : IsOpenComment c) (hd : IsOpenComment d) : SameButLiterals c d
  | other {b : UInt8} {r s : Bytes} (hquote : b ≠ quote) (hapostrophe : b ≠ apostrophe)
      (hdigit : isDigit b = false) (hr : ¬ StartsComment (b :: r)) (hs : ¬ StartsComment (b :: s))
      (h : SameButLiterals r s) : SameButLiterals (b :: r) (b :: s)

/-! ### What the scanner does with a token -/

@[simp] theorem obfuscateLoop_nil (state : SqlState) : obfuscateLoop state [] = [] := by
  rw [obfuscateLoop]

/-- Inside a literal the scan goes over what belongs to it, whatever follows. -/
theorem obfuscateLoop_body {q : UInt8} (hq : q ≠ backslash) {body : Bytes}
    (hbody : LiteralBody q body) (r : Bytes) :
    obfuscateLoop (.quoted q) (body ++ r) = obfuscateLoop (.quoted q) r := by
  induction hbody with
  | nil => rfl
  | escape c h ih =>
      rw [List.cons_append, List.cons_append, obfuscateLoop, if_pos rfl, List.tail_cons, ih]
  | doubled h ih =>
      rw [List.cons_append, List.cons_append, obfuscateLoop, if_neg hq, if_pos rfl,
        if_pos List.head?_cons, List.tail_cons, ih]
  | plain hquote hbackslash h ih =>
      rw [List.cons_append, obfuscateLoop, if_neg hbackslash, if_neg hquote, ih]

theorem obfuscateLoop_literal {q : UInt8} (hq : q ≠ backslash) {c r : Bytes} (hc : LiteralBody q c)
    (hr : r.head? ≠ some q) :
    obfuscateLoop (.quoted q) (c ++ q :: r) = obfuscateLoop .normal r := by
  rw [obfuscateLoop_body hq hc, obfuscateLoop, if_neg hq, if_pos rfl, if_neg hr]

theorem obfuscateLoop_number (b : UInt8) (bs : Bytes) :
    obfuscateLoop .number (b :: bs) =
      if isDigit b then obfuscateLoop .number bs else obfuscateLoop .normal (b :: bs) := by
  conv_lhs => rw [obfuscateLoop]

theorem obfuscateLoop_digits {c r : Bytes} (hc : ∀ b ∈ c, isDigit b)
    (hr : ∀ b ∈ r.head?, isDigit b = false) :
    obfuscateLoop .number (c ++ r) = obfuscateLoop .normal r := by
  induction c with
  | nil =>
      cases r with
      | nil => rw [List.nil_append, obfuscateLoop_nil, obfuscateLoop_nil]
      | cons b bs =>
          have hb : isDigit b = false := hr b rfl
          rw [List.nil_append, obfuscateLoop_number, hb, if_neg Bool.false_ne_true]
  | cons b c ih =>
      obtain ⟨hb, hc⟩ := List.forall_mem_cons.mp hc
      rw [List.cons_append, obfuscateLoop_number, if_pos hb, ih hc]

theorem obfuscateLoop_run {d r : Bytes} (hd : d ≠ []) (hdigits : ∀ b ∈ d, isDigit b)
    (hr : ∀ b ∈ r.head?, isDigit b = false) :
    obfuscateLoop .normal (d ++ r) = questionMark :: obfuscateLoop .normal r := by
  obtain ⟨b, d, rfl⟩ := List.exists_cons_of_ne_nil hd
  obtain ⟨hb, hdigits⟩ := List.forall_mem_cons.mp hdigits
  have hne : ∀ {a : UInt8}, isDigit a = false → b ≠ a := by
    rintro a ha rfl
    rw [ha] at hb
    cases hb
  rw [List.cons_append, obfuscateLoop, if_neg (not_or.mpr ⟨hne (by decide), hne (by decide)⟩),
    if_neg fun h => hne (by decide) h.1, if_neg fun h => hne (by decide) h.1, if_pos hb,
    obfuscateLoop_digits hdigits hr]

theorem obfuscateLoop_other {b : UInt8} {r : Bytes} (hquote : b ≠ quote)
    (hapostrophe : b ≠ apostrophe) (hdigit : isDigit b = false) (hr : ¬ StartsComment (b :: r)) :
    obfuscateLoop .normal (b :: r) = b :: obfuscateLoop .normal r := by
  have hstarts : ∀ {x y : UInt8}, b = x ∧ r.head? = some y → [x, y] <+: b :: r := by
    rintro x y ⟨rfl, hy⟩
    obtain ⟨t, rfl⟩ := List.head?_eq_some_iff.mp hy
    exact ⟨t, rfl⟩
  rw [obfuscateLoop, if_neg (not_or.mpr ⟨hquote, hapostrophe⟩),
    if_neg fun h => hr (.inl (hstarts h)), if_neg fun h => hr (.inr (hstarts h)), hdigit,
    if_neg Bool.false_ne_true]

theorem obfuscateLoop_minus_minus (r : Bytes) :
    obfuscateLoop .normal (minus :: minus :: r) =
      obfuscateLoop .normal (afterNewline (minus :: minus :: r)) := by
  rw [obfuscateLoop, if_neg (by decide), if_pos ⟨rfl, rfl⟩]

theorem obfuscateLoop_slash {r : Bytes} (hr : r.head? = some star) :
    obfuscateLoop .normal (slash :: r) = obfuscateLoop .normal (afterCommentEnd r) := by
  rw [obfuscateLoop, if_neg (by decide), if_neg fun h => absurd h.1 (by decide), if_pos ⟨rfl, hr⟩,
    afterCommentEnd, if_neg fun h => absurd h.1 (by decide)]

theorem afterNewline_append {body : Bytes} (h : newline ∉ body) (r : Bytes) :
    afterNewline (body ++ newline :: r) = r := by
  have hne : ∀ b ∈ body, decide (b ≠ newline) = true := fun b hb =>
    decide_eq_true fun he => h (he ▸ hb)
  rw [afterNewline, List.dropWhile_append_of_pos hne, List.dropWhile_cons_of_neg, List.tail_cons]
  simp

theorem afterNewline_eq_nil {body : Bytes} (h : newline ∉ body) : afterNewline body = [] := by
  have hdrop : body.dropWhile (· ≠ newline) = [] :=
    List.dropWhile_eq_nil_iff.mpr fun b hb => decide_eq_true fun he => h (he ▸ hb)
  rw [afterNewline, hdrop]
  rfl

theorem afterCommentEnd_append {body : Bytes} (h : ¬ [star, slash] <:+: body ++ [star])
    (r : Bytes) : afterCommentEnd (body ++ star :: slash :: r) = r := by
  induction body with
  | nil => rw [List.nil_append, afterCommentEnd, if_pos ⟨rfl, rfl⟩, List.tail_cons]
  | cons b body ih =>
      have hrest : ¬ [star, slash] <:+: body ++ [star] := fun hi =>
        h (hi.trans (List.suffix_cons b _).isInfix)
      have hb : ¬(b = star ∧ (body ++ star :: slash :: r).head? = some slash) := by
        rintro ⟨rfl, hhead⟩
        cases body with
        | nil => exact absurd (Option.some.inj hhead) (by decide)
        | cons c body =>
            obtain rfl : c = slash := Option.some.inj hhead
            exact h ⟨[], body ++ [star], rfl⟩
      rw [List.cons_append, afterCommentEnd, if_neg hb, ih hrest]

theorem afterCommentEnd_eq_nil {body : Bytes} (h : ¬ [star, slash] <:+: body) :
    afterCommentEnd body = [] := by
  induction body with
  | nil => rfl
  | cons b body ih =>
      have hb : ¬(b = star ∧ body.head? = some slash) := by
        rintro ⟨rfl, hhead⟩
        obtain ⟨t, rfl⟩ := List.head?_eq_some_iff.mp hhead
        exact h ⟨[], t, rfl⟩
      rw [afterCommentEnd, if_neg hb]
      exact ih fun hi => h (hi.trans (List.suffix_cons b _).isInfix)

theorem obfuscateLoop_comment {c : Bytes} (hc : IsComment c) (r : Bytes) :
    obfuscateLoop .normal (c ++ r) = obfuscateLoop .normal r := by
  cases hc with
  | @line body h =>
      have hbody : newline ∉ minus :: minus :: body := by
        simp only [List.mem_cons, not_or]
        exact ⟨by decide, by decide, h⟩
      have htext : minus :: minus :: (body ++ [newline]) ++ r =
          (minus :: minus :: body) ++ newline :: r := by
        simp only [List.cons_append, List.append_assoc, List.nil_append]
      rw [htext, List.cons_append, List.cons_append, obfuscateLoop_minus_minus, ← List.cons_append,
        ← List.cons_append, afterNewline_append hbody]
  | @block body hstart h =>
      have htext : slash :: (body ++ [star, slash]) ++ r =
          slash :: (body ++ star :: slash :: r) := by
        simp only [List.cons_append, List.append_assoc, List.nil_append]
      have hhead : (body ++ star :: slash :: r).head? = some star := by
        cases body with
        | nil => rfl
        | cons b body => exact hstart
      rw [htext, obfuscateLoop_slash hhead, afterCommentEnd_append h]

theorem obfuscateLoop_openComment {c : Bytes} (hc : IsOpenComment c) :
    obfuscateLoop .normal c = [] := by
  cases hc with
  | @line body h =>
      have hbody : newline ∉ minus :: minus :: body := by
        simp only [List.mem_cons, not_or]
        exact ⟨by decide, by decide, h⟩
      rw [obfuscateLoop_minus_minus, afterNewline_eq_nil hbody, obfuscateLoop_nil]
  | block h => rw [obfuscateLoop_slash rfl, afterCommentEnd_eq_nil h, obfuscateLoop_nil]

/-- Obfuscation hides what literals, numbers and comments say. -/
theorem obfuscateLoop_congr {s t : Bytes} (h : SameButLiterals s t) :
    obfuscateLoop .normal s = obfuscateLoop .normal t := by
  induction h with
  | nil => rfl
  | @literal q hq c d r s hc hd hr hs h ih =>
      have hback : q ≠ backslash := by
        rintro rfl
        exact absurd hq (by decide)
      rw [obfuscateLoop, if_pos hq, obfuscateLoop_literal hback hc hr, obfuscateLoop, if_pos hq,
        obfuscateLoop_literal hback hd hs, ih]
  | @digits c d r s hc hd hcd hdd hr hs h ih =>
      rw [obfuscateLoop_run hc hcd hr, obfuscateLoop_run hd hdd hs, ih]
  | comment hc hd h ih => rw [obfuscateLoop_comment hc, obfuscateLoop_comment hd, ih]
  | openComment hc hd => rw [obfuscateLoop_openComment hc, obfuscateLoop_openComment hd]
  | other hquote hapostrophe hdigit hr hs h ih =>
      rw [obfuscateLoop_other hquote hapostrophe hdigit hr,
        obfuscateLoop_other hquote hapostrophe hdigit hs, ih]

end AxiomDaemon.Util

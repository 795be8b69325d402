import AxiomDaemon.Lib.CMemory
import AxiomDaemon.Util.Sql

/-!
`nr_sql_obfuscate` on a string in memory, where reading behind the zero that
ends the string is a fault. A text is taken apart into the tokens that the scan
takes one at a time; what the scan does with a whole text, whether it stays
inside it and what comes out, is told by what it does with one token.
-/

namespace AxiomDaemon.Util

open AxiomDaemon.Lib AxiomDaemon.Lib.Json AxiomDaemon.Lib.CText

namespace Memory

/-- The loop of `nr_sql_obfuscate` from `p` on: what it writes. -/
def obfuscateLoop : SqlState → Bytes → Checked Bytes
  | _, [] => .error .read
  | .normal, b :: p =>
      if b = 0 then .ok []
      else if b = quote ∨ b = apostrophe then (questionMark :: ·) <$> obfuscateLoop (.quoted b) p
      else if b = minus then do
        if (← load p) = minus then
          match _h : strchr newline (b :: p) with
          | .error e => .error e
          | .ok none => .ok []
          | .ok (some r) => obfuscateLoop .normal r.tail
        else (b :: ·) <$> obfuscateLoop .normal p
      else if b = slash then do
        if (← load p) = star then
          match _h : strstr [star, slash] (b :: p) with
          | .error e => .error e
          | .ok none => .ok []
          | .ok (some r) => obfuscateLoop .normal (r.drop 2)
        else (b :: ·) <$> obfuscateLoop .normal p
      else if isDigit b then (questionMark :: ·) <$> obfuscateLoop .number p
      else (b :: ·) <$> obfuscateLoop .normal p
  | .quoted q, b :: p =>
      if b = 0 then .ok []
      else if b = backslash then obfuscateLoop (.quoted q) p.tail
      else if b = q then do
        if (← load p) = q then obfuscateLoop (.quoted q) p.tail else obfuscateLoop .normal p
      else obfuscateLoop (.quoted q) p
  | .number, b :: p =>
      if b = 0 then .ok []
      else if isDigit b then obfuscateLoop .number p
      else obfuscateLoop .normal (b :: p)
termination_by state p => 2 * p.length + if state = .number then 1 else 0
decreasing_by
  all_goals simp only [if_false, if_true, List.length_cons, List.length_tail]
  all_goals first
    | omega
    | (have hlen := length_tail_lt_of_strchr _h
       simp only [List.length_tail, List.length_cons] at hlen ⊢
       omega)
    | (have hlen := length_drop_lt_of_strstr _h Nat.two_pos
       simp only [List.length_drop, List.length_cons] at hlen ⊢
       omega)

/-- What `nr_sql_obfuscate` reads and writes, without the block that it writes to. -/
def nrSqlObfuscate (raw : Option Bytes) : Checked (Option Bytes) :=
  match raw with
  | none => .ok none
  | some p => some <$> obfuscateLoop .normal p

end Memory

namespace Buffered

/-- The room in the block of `nr_malloc`, which ends the process where there is no block: there is
none of `2 ^ 63` bytes. -/
def nrMalloc (size : ℕ) : Checked ℕ :=
  if size = 0 then .ok 8 else if 2 ^ 63 ≤ size then .error .range else .ok size

/-- `nr_sql_obfuscate` with its block. The size is an `int`. -/
def nrSqlObfuscate (raw : Option Bytes) : Checked (Option Bytes) :=
  match raw with
  | none => .ok none
  | some p => do
      let size ← CMemory.int ((← CMemory.nrStrlenAt p) + 1)
      let room ← nrMalloc (CMemory.intToSize size)
      let obf ← Memory.obfuscateLoop .normal p
      let _ ← store room obf [0]
      .ok (some obf)

end Buffered

/-! ### The tokens of a text -/

/-- What the scan takes in one go when it is outside of everything: the text, what is written
for the token at its start, and the text behind the token. -/
inductive Takes : Bytes → Bytes → Bytes → Prop
  | literal {q : UInt8} (hq : q = quote ∨ q = apostrophe) {body r : Bytes}
      (hbody : LiteralBody q body) (hr : r.head? ≠ some q) :
      Takes (q :: (body ++ q :: r)) [questionMark] r
  | digits {d r : Bytes} (hd : d ≠ []) (hdigits : ∀ b ∈ d, isDigit b)
      (hr : ∀ b ∈ r.head?, isDigit b = false) : Takes (d ++ r) [questionMark] r
  | comment {c r : Bytes} (hc : IsComment c) : Takes (c ++ r) [] r
  | other {b : UInt8} {r : Bytes} (hquote : b ≠ quote) (hapostrophe : b ≠ apostrophe)
      (hdigit : isDigit b = false) (hr : ¬ StartsComment (b :: r)) : Takes (b :: r) [b] r

/-- A text at whose end the scan stands after it: what is written for it. -/
inductive Stops : Bytes → Bytes → Prop
  | nil : Stops [] []
  | openLiteral {q : UInt8} (hq : q = quote ∨ q = apostrophe) {body : Bytes}
      (hbody : LiteralBody q body) : Stops (q :: body) [questionMark]
  | openComment {c : Bytes} (hc : IsOpenComment c) : Stops c []

/-- A literal whose last byte, which is the last one of the text, is a backslash that escapes
nothing. -/
inductive CutEscape : Bytes → Prop
  | mk {q : UInt8} (hq : q = quote ∨ q = apostrophe) {body : Bytes} (hbody : LiteralBody q body) :
      CutEscape (q :: (body ++ [backslash]))

/-- The places that the scan comes to outside of everything. -/
inductive Passes : Bytes → Bytes → Prop
  | refl (s : Bytes) : Passes s s
  | step {s out r t : Bytes} (h : Takes s out r) (hr : Passes r t) : Passes s t

/-- The text ends in a literal, with a backslash that escapes nothing. -/
def LoneEscape (raw : Bytes) : Prop := ∃ s, Passes raw s ∧ CutEscape s

/-- A literal is closed, or open at the end of the text, or cut off behind a backslash. -/
theorem literal_cases {q : UInt8} (s : Bytes) :
    (∃ body r, LiteralBody q body ∧ r.head? ≠ some q ∧ s = body ++ q :: r) ∨ LiteralBody q s ∨
      ∃ body, LiteralBody q body ∧ s = body ++ [backslash] := by
  -- a token of the body in front of a text changes nothing about how it ends
  have hcons : ∀ (front : Bytes) {s : Bytes},
      (∀ {bs}, LiteralBody q bs → LiteralBody q (front ++ bs)) →
      ((∃ body r, LiteralBody q body ∧ r.head? ≠ some q ∧ s = body ++ q :: r) ∨ LiteralBody q s ∨
        ∃ body, LiteralBody q body ∧ s = body ++ [backslash]) →
      ((∃ body r, LiteralBody q body ∧ r.head? ≠ some q ∧ front ++ s = body ++ q :: r) ∨
        LiteralBody q (front ++ s) ∨
        ∃ body, LiteralBody q body ∧ front ++ s = body ++ [backslash]) := by
    rintro front s hfront (⟨body, r, hbody, hr, rfl⟩ | hbody | ⟨body, hbody, rfl⟩)
    · exact .inl ⟨front ++ body, r, hfront hbody, hr, (List.append_assoc _ _ _).symm⟩
    · exact .inr (.inl (hfront hbody))
    · exact .inr (.inr ⟨front ++ body, hfront hbody, (List.append_assoc _ _ _).symm⟩)
  induction hlen : s.length using Nat.strong_induction_on generalizing s with
  | _ n ih =>
      subst hlen
      cases s with
      | nil => exact .inr (.inl .nil)
      | cons b s =>
          by_cases hb : b = backslash
          · subst hb
            cases s with
            | nil => exact .inr (.inr ⟨[], .nil, rfl⟩)
            | cons c s =>
                exact hcons [backslash, c] (fun h => .escape c h)
                  (ih s.length (by simp only [List.length_cons]; omega) s rfl)
          · by_cases hq : b = q
            · subst hq
              by_cases hhead : s.head? = some b
              · obtain ⟨t, rfl⟩ := List.head?_eq_some_iff.mp hhead
                exact hcons [b, b] (fun h => .doubled h)
                  (ih t.length (by simp only [List.length_cons]; omega) t rfl)
              · exact .inl ⟨[], s, .nil, hhead, rfl⟩
            · exact hcons [b] (fun h => .plain hq hb h)
                (ih s.length (by simp only [List.length_cons]; omega) s rfl)

theorem takes_or_stops_line (t : Bytes) :
    (∃ r, Takes (minus :: minus :: t) [] r) ∨ Stops (minus :: minus :: t) [] := by
  by_cases hnewline : newline ∈ t
  · obtain ⟨body, r, rfl, hbody⟩ := List.eq_append_cons_of_mem hnewline
    have htakes : Takes ((minus :: minus :: (body ++ [newline])) ++ r) [] r :=
      .comment (.line hbody)
    simp only [List.cons_append, List.append_assoc, List.nil_append] at htakes
    exact .inl ⟨r, htakes⟩
  · exact .inr (.openComment (.line hnewline))

theorem takes_or_stops_block (t : Bytes) :
    (∃ r, Takes (slash :: star :: t) [] r) ∨ Stops (slash :: star :: t) [] := by
  cases hfind : findText [star, slash] (star :: t) with
  | none => exact .inr (.openComment (.block (findText_eq_none.mp hfind)))
  | some found =>
      obtain ⟨body, r, htext, -, hbody⟩ := findText_eq_some (List.cons_ne_nil _ _) hfind
      have hstart : (body ++ [star]).head? = some star := by
        cases body with
        | nil => rfl
        | cons b body => exact congrArg List.head? htext.symm
      have htakes : Takes ((slash :: (body ++ [star, slash])) ++ r) [] r :=
        .comment (.block hstart hbody)
      rw [List.cons_append, List.append_assoc, ← htext] at htakes
      exact .inl ⟨r, htakes⟩

theorem takes_or_stops_of_startsComment {s : Bytes} (h : StartsComment s) :
    (∃ r, Takes s [] r) ∨ Stops s [] := by
  rcases h with ⟨t, rfl⟩ | ⟨t, rfl⟩
  · exact takes_or_stops_line t
  · exact takes_or_stops_block t

/-- A text starts with a token, or the scan comes to its end in it, inside of it or behind it. -/
theorem takes_or_stops (s : Bytes) :
    (∃ out r, Takes s out r) ∨ (∃ out, Stops s out) ∨ CutEscape s := by
  cases s with
  | nil => exact .inr (.inl ⟨[], .nil⟩)
  | cons b t =>
      by_cases hq : b = quote ∨ b = apostrophe
      · rcases literal_cases (q := b) t with ⟨body, r, hbody, hr, rfl⟩ | hbody | ⟨body, hbody, rfl⟩
        · exact .inl ⟨_, r, .literal hq hbody hr⟩
        · exact .inr (.inl ⟨_, .openLiteral hq hbody⟩)
        · exact .inr (.inr (.mk hq hbody))
      · by_cases hcomment : StartsComment (b :: t)
        · exact (takes_or_stops_of_startsComment hcomment).imp (fun ⟨r, hr⟩ => ⟨[], r, hr⟩)
            fun h => .inl ⟨[], h⟩
        · obtain ⟨hquote, hapostrophe⟩ := not_or.mp hq
          cases hdigit : isDigit b with
          | false => exact .inl ⟨_, t, .other hquote hapostrophe hdigit hcomment⟩
          | true =>
              have htakes : Takes ((b :: t.takeWhile isDigit) ++ t.dropWhile isDigit)
                  [questionMark] (t.dropWhile isDigit) := by
                refine .digits (List.cons_ne_nil _ _) ?_ fun x hx => ?_
                · intro x hx
                  rcases List.mem_cons.mp hx with rfl | hx
                  · exact hdigit
                  · exact List.mem_takeWhile_imp hx
                · have hhead := List.head?_dropWhile_not isDigit t
                  rw [Option.mem_def.mp hx] at hhead
                  exact hhead
              rw [List.cons_append, List.takeWhile_append_dropWhile] at htakes
              exact .inl ⟨_, _, htakes⟩

theorem IsComment.ne_nil {c : Bytes} (hc : IsComment c) : c ≠ [] := by
  cases hc with
  | line h => exact List.cons_ne_nil _ _
  | block hstart h => exact List.cons_ne_nil _ _

theorem Takes.length_lt {s out r : Bytes} (h : Takes s out r) : r.length < s.length := by
  cases h with
  | literal hq hbody hr =>
      simp only [List.length_cons, List.length_append]
      omega
  | digits hd hdigits hr =>
      have hpos := List.length_pos_of_ne_nil hd
      rw [List.length_append]
      omega
  | comment hc =>
      have hpos := List.length_pos_of_ne_nil hc.ne_nil
      rw [List.length_append]
      omega
  | other hquote hapostrophe hdigit hr => exact Nat.lt_succ_self _

/-- What holds of a text if it holds behind its first token holds of every text. -/
theorem token_induction {motive : Bytes → Prop}
    (takes : ∀ {s out r : Bytes}, Takes s out r → motive r → motive s)
    (stops : ∀ {s out : Bytes}, Stops s out → motive s)
    (cut : ∀ {s : Bytes}, CutEscape s → motive s) (s : Bytes) : motive s := by
  induction hlen : s.length using Nat.strong_induction_on generalizing s with
  | _ n ih =>
      subst hlen
      rcases takes_or_stops s with ⟨out, r, h⟩ | ⟨out, h⟩ | h
      · exact takes h (ih r.length h.length_lt r rfl)
      · exact stops h
      · exact cut h

theorem Takes.suffix {s out r : Bytes} (h : Takes s out r) : r <:+ s := by
  cases h with
  | @literal q hq body r hbody hr =>
      have hbehind : r <:+ body ++ q :: r :=
        (List.suffix_cons q r).trans (List.suffix_append body _)
      exact hbehind.trans (List.suffix_cons q _)
  | digits hd hdigits hr => exact List.suffix_append _ r
  | comment hc => exact List.suffix_append _ r
  | other hquote hapostrophe hdigit hr => exact List.suffix_cons _ r

theorem Passes.suffix {s t : Bytes} (h : Passes s t) : t <:+ s := by
  induction h with
  | refl s => exact List.suffix_rfl
  | step h hr ih => exact ih.trans h.suffix

/-! ### The scan of a text, token by token -/

theorem ne_backslash_of_quote {q : UInt8} (hq : q = quote ∨ q = apostrophe) : q ≠ backslash := by
  rintro rfl
  exact absurd hq (by decide)

theorem obfuscateLoop_of_takes {s out r : Bytes} (h : Takes s out r) :
    obfuscateLoop .normal s = out ++ obfuscateLoop .normal r := by
  cases h with
  | literal hq hbody hr =>
      rw [obfuscateLoop, if_pos hq, obfuscateLoop_literal (ne_backslash_of_quote hq) hbody hr]
      rfl
  | digits hd hdigits hr => exact obfuscateLoop_run hd hdigits hr
  | comment hc => exact obfuscateLoop_comment hc r
  | other hquote hapostrophe hdigit hr =>
      exact obfuscateLoop_other hquote hapostrophe hdigit hr

theorem obfuscateLoop_of_stops {s out : Bytes} (h : Stops s out) :
    obfuscateLoop .normal s = out := by
  cases h with
  | nil => exact obfuscateLoop_nil .normal
  | @openLiteral q hq body hbody =>
      have hscan := obfuscateLoop_body (ne_backslash_of_quote hq) hbody []
      rw [List.append_nil, obfuscateLoop_nil] at hscan
      rw [obfuscateLoop, if_pos hq, hscan]
  | openComment hc => exact obfuscateLoop_openComment hc

theorem obfuscateLoop_of_cutEscape {s : Bytes} (h : CutEscape s) :
    obfuscateLoop .normal s = [questionMark] := by
  cases h with
  | @mk q hq body hbody =>
      rw [obfuscateLoop, if_pos hq, obfuscateLoop_body (ne_backslash_of_quote hq) hbody,
        obfuscateLoop, if_pos rfl, List.tail_nil, obfuscateLoop_nil]

/-! ### The scan of a string, token by token -/

namespace Memory

/-- Inside a literal the scan goes over what belongs to it, whatever follows. -/
theorem obfuscateLoop_body {q : UInt8} (hq : q ≠ backslash) {body : Bytes}
    (hbody : LiteralBody q body) (hzero : 0 ∉ body) (r : Bytes) :
    obfuscateLoop (.quoted q) (terminated (body ++ r)) =
      obfuscateLoop (.quoted q) (terminated r) := by
  induction hbody with
  | nil => rfl
  | escape c h ih =>
      simp only [List.mem_cons, not_or] at hzero
      rw [List.cons_append, List.cons_append, terminated_cons, terminated_cons, obfuscateLoop,
        if_neg (Ne.symm hzero.1), if_pos rfl, List.tail_cons, ih hzero.2.2]
  | doubled h ih =>
      simp only [List.mem_cons, not_or] at hzero
      rw [List.cons_append, List.cons_append, terminated_cons, terminated_cons, obfuscateLoop,
        if_neg (Ne.symm hzero.1), if_neg hq, if_pos rfl, load_cons, ok_bind, if_pos rfl,
        List.tail_cons, ih hzero.2.2]
  | plain hquote hbackslash h ih =>
      simp only [List.mem_cons, not_or] at hzero
      rw [List.cons_append, terminated_cons, obfuscateLoop, if_neg (Ne.symm hzero.1),
        if_neg hbackslash, if_neg hquote, ih hzero.2]

theorem obfuscateLoop_closing {q : UInt8} (hq : q ≠ backslash) (hzero : q ≠ 0) {r : Bytes}
    (hr : r.head? ≠ some q) :
    obfuscateLoop (.quoted q) (terminated (q :: r)) = obfuscateLoop .normal (terminated r) := by
  have hnext : r.head?.getD 0 ≠ q := by
    cases r with
    | nil => exact Ne.symm hzero
    | cons b r => exact fun h => hr (congrArg some h)
  rw [terminated_cons, obfuscateLoop, if_neg hzero, if_neg hq, if_pos rfl, load_terminated,
    ok_bind, if_neg hnext]

theorem obfuscateLoop_zero (state : SqlState) : obfuscateLoop state (terminated []) = .ok [] := by
  cases state with
  | normal => rw [terminated_nil, obfuscateLoop, if_pos rfl]
  | quoted q => rw [terminated_nil, obfuscateLoop, if_pos rfl]
  | number => rw [terminated_nil, obfuscateLoop, if_pos rfl]

theorem obfuscateLoop_quote {q : UInt8} (hq : q = quote ∨ q = apostrophe) (p : Bytes) :
    obfuscateLoop .normal (q :: p) = (questionMark :: ·) <$> obfuscateLoop (.quoted q) p := by
  have hzero : q ≠ 0 := by
    rintro rfl
    exact absurd hq (by decide)
  rw [obfuscateLoop, if_neg hzero, if_pos hq]

theorem obfuscateLoop_digits {d r : Bytes} (hd : ∀ b ∈ d, isDigit b)
    (hr : ∀ b ∈ r.head?, isDigit b = false) :
    obfuscateLoop .number (terminated (d ++ r)) = obfuscateLoop .normal (terminated r) := by
  induction d with
  | nil =>
      cases r with
      | nil => rw [List.append_nil, obfuscateLoop_zero, obfuscateLoop_zero]
      | cons b r =>
          by_cases hb : b = 0
          · rw [List.nil_append, terminated_cons, obfuscateLoop, if_pos hb, obfuscateLoop,
              if_pos hb]
          · have hdigit : isDigit b = false := hr b rfl
            conv_lhs => rw [List.nil_append, terminated_cons, obfuscateLoop]
            rw [if_neg hb, hdigit, if_neg Bool.false_ne_true, terminated_cons]
  | cons b d ih =>
      obtain ⟨hb, hd⟩ := List.forall_mem_cons.mp hd
      have hzero : b ≠ 0 := by
        rintro rfl
        exact absurd hb (by decide)
      rw [List.cons_append, terminated_cons, obfuscateLoop, if_neg hzero, if_pos hb, ih hd]

theorem obfuscateLoop_line (p : Bytes) :
    obfuscateLoop .normal (minus :: minus :: p) =
      match strchr newline (minus :: minus :: p) with
      | .error e => .error e
      | .ok none => .ok []
      | .ok (some r) => obfuscateLoop .normal r.tail := by
  conv_lhs => rw [obfuscateLoop]
  rw [if_neg (by decide), if_neg (by decide), if_pos rfl, load_cons, ok_bind, if_pos rfl]
  split
  · next h => rw [h]
  · next h => rw [h]
  · next h => rw [h]

theorem obfuscateLoop_block (p : Bytes) :
    obfuscateLoop .normal (slash :: star :: p) =
      match strstr [star, slash] (slash :: star :: p) with
      | .error e => .error e
      | .ok none => .ok []
      | .ok (some r) => obfuscateLoop .normal (r.drop 2) := by
  conv_lhs => rw [obfuscateLoop]
  rw [if_neg (by decide), if_neg (by decide), if_neg (by decide), if_pos rfl, load_cons, ok_bind,
    if_pos rfl]
  split
  · next h => rw [h]
  · next h => rw [h]
  · next h => rw [h]

theorem obfuscateLoop_comment {c : Bytes} (hc : IsComment c) {r : Bytes} (hzero : 0 ∉ c ++ r) :
    obfuscateLoop .normal (terminated (c ++ r)) = obfuscateLoop .normal (terminated r) := by
  cases hc with
  | @line body h =>
      have hbody : newline ∉ minus :: minus :: body := by
        simp only [List.mem_cons, not_or]
        exact ⟨by decide, by decide, h⟩
      have hclean : 0 ∉ minus :: minus :: body := fun hz =>
        hzero (List.mem_append_left r (List.mem_append_left [newline] hz))
      have hfind := strchr_terminated hbody hclean r
      have htext : minus :: minus :: (body ++ [newline]) ++ r =
          minus :: minus :: (body ++ newline :: r) := by
        simp only [List.cons_append, List.append_assoc, List.nil_append]
      simp only [List.cons_append, terminated_cons] at hfind
      rw [htext, terminated_cons, terminated_cons, obfuscateLoop_line, hfind]
      rfl
  | @block body hstart h =>
      have hfind : findText [star, slash] ((slash :: body) ++ ([star, slash] ++ r)) =
          some ([star, slash] ++ r) := by
        apply findText_append
        intro hi
        rcases List.infix_cons_iff.mp hi with hp | hi
        · exact absurd (List.cons_prefix_cons.mp hp).1 (by decide)
        · exact h hi
      have htext : slash :: (body ++ [star, slash]) ++ r =
          (slash :: body) ++ ([star, slash] ++ r) := by
        simp only [List.cons_append, List.append_assoc]
      obtain ⟨u, hu⟩ : ∃ u, body ++ ([star, slash] ++ r) = star :: u := by
        cases body with
        | nil => exact ⟨_, rfl⟩
        | cons b body =>
            obtain rfl : b = star := Option.some.inj hstart
            exact ⟨_, rfl⟩
      rw [htext] at hzero ⊢
      have hstrstr : strstr [star, slash] _ = _ := strstr_terminated (by decide) hzero
      rw [hfind] at hstrstr
      rw [List.cons_append, hu, terminated_cons, terminated_cons] at hstrstr ⊢
      rw [obfuscateLoop_block, hstrstr]
      rfl

theorem obfuscateLoop_openComment {c : Bytes} (hc : IsOpenComment c) (hzero : 0 ∉ c) :
    obfuscateLoop .normal (terminated c) = .ok [] := by
  cases hc with
  | @line body h =>
      have hbody : newline ∉ minus :: minus :: body := by
        simp only [List.mem_cons, not_or]
        exact ⟨by decide, by decide, h⟩
      have hfind := strchr_terminated_of_notMem (by decide) hbody hzero
      rw [terminated_cons, terminated_cons] at hfind ⊢
      rw [obfuscateLoop_line, hfind]
  | @block body h =>
      have hfind : findText [star, slash] (slash :: star :: body) = none := by
        apply findText_eq_none.mpr
        intro hi
        rcases List.infix_cons_iff.mp hi with hp | hi
        · exact absurd (List.cons_prefix_cons.mp hp).1 (by decide)
        · exact h hi
      have hstrstr : strstr [star, slash] _ = _ := strstr_terminated (by decide) hzero
      rw [hfind] at hstrstr
      rw [terminated_cons, terminated_cons] at hstrstr ⊢
      rw [obfuscateLoop_block, hstrstr]
      rfl

theorem obfuscateLoop_other {b : UInt8} {r : Bytes} (hzero : b ≠ 0) (hquote : b ≠ quote)
    (hapostrophe : b ≠ apostrophe) (hdigit : isDigit b = false) (hr : ¬ StartsComment (b :: r)) :
    obfuscateLoop .normal (terminated (b :: r)) =
      (b :: ·) <$> obfuscateLoop .normal (terminated r) := by
  have hstarts : ∀ {x y : UInt8}, y ≠ 0 → b = x → r.head?.getD 0 = y → [x, y] <+: b :: r := by
    rintro x y hy rfl hhead
    cases r with
    | nil => exact absurd hhead (Ne.symm hy)
    | cons c r =>
        obtain rfl : c = y := hhead
        exact ⟨r, rfl⟩
  rw [terminated_cons, obfuscateLoop, if_neg hzero, if_neg (not_or.mpr ⟨hquote, hapostrophe⟩)]
  split_ifs with hminus hslash hd
  · rw [load_terminated, ok_bind, if_neg fun h => hr (.inl (hstarts (by decide) hminus h))]
  · rw [load_terminated, ok_bind, if_neg fun h => hr (.inr (hstarts (by decide) hslash h))]
  · rw [hdigit] at hd
    cases hd
  · rfl

/-- The scan takes the first token of a string and goes on behind it. -/
theorem obfuscateLoop_takes {s out r : Bytes} (h : Takes s out r) (hzero : 0 ∉ s) :
    obfuscateLoop .normal (terminated s) =
      (out ++ ·) <$> obfuscateLoop .normal (terminated r) := by
  cases h with
  | @literal q hq body r hbody hr =>
      have hback := ne_backslash_of_quote hq
      have hclean : 0 ∉ body := fun hz =>
        hzero (List.mem_cons_of_mem q (List.mem_append_left (q :: r) hz))
      have hq0 : q ≠ 0 := fun h => hzero (h ▸ List.mem_cons_self)
      rw [terminated_cons, obfuscateLoop_quote hq, obfuscateLoop_body hback hbody hclean,
        obfuscateLoop_closing hback hq0 hr]
      rfl
  | @digits d r hd hdigits hr =>
      obtain ⟨b, d, rfl⟩ := List.exists_cons_of_ne_nil hd
      obtain ⟨hb, hdigits⟩ := List.forall_mem_cons.mp hdigits
      have hne : ∀ {a : UInt8}, isDigit a = false → b ≠ a := by
        rintro a ha rfl
        rw [ha] at hb
        cases hb
      rw [List.cons_append, terminated_cons, obfuscateLoop, if_neg (hne (by decide)),
        if_neg (not_or.mpr ⟨hne (by decide), hne (by decide)⟩), if_neg (hne (by decide)),
        if_neg (hne (by decide)), if_pos hb, obfuscateLoop_digits hdigits hr]
      rfl
  | comment hc =>
      rw [obfuscateLoop_comment hc hzero]
      cases obfuscateLoop .normal (terminated r) with
      | ok out => rfl
      | error e => rfl
  | other hquote hapostrophe hdigit hr =>
      have hb : _ ≠ (0 : UInt8) := fun h => hzero (h ▸ List.mem_cons_self)
      rw [obfuscateLoop_other hb hquote hapostrophe hdigit hr]
      rfl

theorem obfuscateLoop_stops {s out : Bytes} (h : Stops s out) (hzero : 0 ∉ s) :
    obfuscateLoop .normal (terminated s) = .ok out := by
  cases h with
  | nil => exact obfuscateLoop_zero .normal
  | @openLiteral q hq body hbody =>
      have hback := ne_backslash_of_quote hq
      have hscan := obfuscateLoop_body hback hbody (mt (List.mem_cons_of_mem q) hzero) []
      rw [List.append_nil, obfuscateLoop_zero] at hscan
      rw [terminated_cons, obfuscateLoop_quote hq, hscan]
      rfl
  | openComment hc => exact obfuscateLoop_openComment hc hzero

/-- The second byte of an escape that is cut off is the zero; the scan steps over it. -/
theorem obfuscateLoop_cutEscape {s : Bytes} (h : CutEscape s) (hzero : 0 ∉ s) :
    obfuscateLoop .normal (terminated s) = .error .read := by
  cases h with
  | @mk q hq body hbody =>
      have hback := ne_backslash_of_quote hq
      have hclean : 0 ∉ body := fun hz =>
        hzero (List.mem_cons_of_mem q (List.mem_append_left [backslash] hz))
      rw [terminated_cons, obfuscateLoop_quote hq, obfuscateLoop_body hback hbody hclean,
        terminated_cons, terminated_nil, obfuscateLoop, if_neg (by decide), if_pos rfl,
        List.tail_cons, obfuscateLoop]
      rfl

end Memory

end AxiomDaemon.Util

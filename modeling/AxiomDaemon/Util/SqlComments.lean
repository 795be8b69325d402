import AxiomDaemon.Util.SqlObfuscateRuns

/-!
The two scanners of `util_sql.c` that know block comments: `nr_sql_obfuscate`
and `nr_sql_whitespace_comment_prefix`. Each looks for the end of a comment by
itself, the one from the slash that opens it, the other from behind the star.
-/

namespace AxiomDaemon.Util

open AxiomDaemon.Lib AxiomDaemon.Lib.Json AxiomDaemon.Lib.CText

/-! ### White space and comments in front of a statement -/

/-- `NR_SQL_WHITESPACE_CHARS`. -/
def whitespaceChars : Bytes := [0x20, 0x0d, 0x0a, 0x09, 0x0b, 0x0c]

namespace Memory

/-- `nr_strspn`. -/
def nrStrspn (p accept : Bytes) : Checked ℕ := strspn accept p >>= toInt

/-- `nr_strcspn`. -/
def nrStrcspn (p reject : Bytes) : Checked ℕ := strcspn reject p >>= toInt

/-- The inner loop of `nr_sql_whitespace_comment_prefix`, from behind the two bytes that open a
comment: where the comment ends, if it does. -/
def skipComment : Bytes → Checked (Option Bytes)
  | [] => .error .read
  | b :: s =>
      if b = 0 then .ok none
      else if b = star then do
        if (← load s) = slash then return some s.tail else skipComment s
      else skipComment s

theorem skipComment_suffix {s r : Bytes} (h : skipComment s = .ok (some r)) : r <:+ s := by
  induction s with
  | nil => cases h
  | cons b s ih =>
      rw [skipComment] at h
      split_ifs at h with hzero hstar
      · cases h
      · cases s with
        | nil => cases h
        | cons c s =>
            rw [load_cons, ok_bind] at h
            split_ifs at h with hslash
            · obtain rfl : s = r := Option.some.inj (Except.ok.inj h)
              exact (List.suffix_cons c s).trans (List.suffix_cons b _)
            · exact (ih h).trans (List.suffix_cons b _)
      · exact (ih h).trans (List.suffix_cons b _)

/-- The outer loop of `nr_sql_whitespace_comment_prefix`: one comment and the white space behind
it at a time. -/
def skipComments : Bytes → Checked (Option Bytes)
  | [] => .error .read
  | b :: s =>
      if b = slash then do
        if (← load s) = star then
          match _h : skipComment s.tail with
          | .error e => .error e
          | .ok none => .ok none
          | .ok (some r) => do
              let x ← nrStrspn r whitespaceChars
              skipComments (r.drop x)
        else return some (b :: s)
      else return some (b :: s)
termination_by s => s.length
decreasing_by
  have hlen := (skipComment_suffix _h).length_le
  simp only [List.length_tail] at hlen
  simp only [List.length_drop, List.length_cons]
  omega

theorem nrStrspn_eq_ok {p accept : Bytes} {n : ℕ} (h : nrStrspn p accept = .ok n) :
    strspn accept p = .ok n := by
  obtain ⟨m, hm, hint⟩ := bind_eq_ok.mp h
  rw [hm, toInt_eq_ok hint]

theorem nrStrcspn_eq_ok {p reject : Bytes} {n : ℕ} (h : nrStrcspn p reject = .ok n) :
    strcspn reject p = .ok n := by
  obtain ⟨m, hm, hint⟩ := bind_eq_ok.mp h
  rw [hm, toInt_eq_ok hint]

/-- `nr_sql_whitespace_comment_prefix`. -/
def nrSqlWhitespaceCommentPrefix (sql : Option Bytes) : Checked (Option Bytes) :=
  match sql with
  | none => .ok none
  | some s => do
      if (← load s) = 0 then return some s
      else
        let x ← nrStrspn s whitespaceChars
        skipComments (s.drop x)

theorem skipComments_eq_some {s x : Bytes} (hs : ∀ b ∈ s.head?, b ∉ whitespaceChars)
    (h : skipComments s = .ok (some x)) : x <:+ s ∧ ∀ b ∈ x.head?, b ∉ whitespaceChars := by
  induction hlen : s.length using Nat.strong_induction_on generalizing s with
  | _ n ih =>
      subst hlen
      cases s with
      | nil =>
          rw [skipComments] at h
          cases h
      | cons b s =>
          rw [skipComments] at h
          split_ifs at h with hslash
          · obtain ⟨c, hc, h⟩ := bind_eq_ok.mp h
            split_ifs at h with hstar
            · split at h
              · cases h
              · cases h
              · next r hskip =>
                  obtain ⟨n, hn, h⟩ := bind_eq_ok.mp h
                  have hsuffix : r.drop n <:+ b :: s := ((List.drop_suffix n r).trans
                    (skipComment_suffix hskip)).trans ((List.tail_suffix s).trans
                    (List.suffix_cons b s))
                  have hshort := (List.drop_suffix n r).length_le.trans
                    (skipComment_suffix hskip).length_le
                  rw [List.length_tail] at hshort
                  obtain ⟨hx, hspace⟩ := ih (r.drop n).length
                    (by rw [List.length_cons]; omega) (strspn_eq_ok (nrStrspn_eq_ok hn)) h rfl
                  exact ⟨hx.trans hsuffix, hspace⟩
            · obtain rfl : b :: s = x := Option.some.inj (Except.ok.inj h)
              exact ⟨List.suffix_rfl, hs⟩
          · obtain rfl : b :: s = x := Option.some.inj (Except.ok.inj h)
            exact ⟨List.suffix_rfl, hs⟩

/-- White space does not go on where `nr_sql_whitespace_comment_prefix` stops. -/
theorem nrSqlWhitespaceCommentPrefix_eq_some {s x : Bytes}
    (h : nrSqlWhitespaceCommentPrefix (some s) = .ok (some x)) :
    x <:+ s ∧ ∀ b ∈ x.head?, b ∉ whitespaceChars := by
  rw [nrSqlWhitespaceCommentPrefix] at h
  obtain ⟨c, hc, h⟩ := bind_eq_ok.mp h
  split_ifs at h with hzero
  · obtain rfl : s = x := Option.some.inj (Except.ok.inj h)
    refine ⟨List.suffix_rfl, fun b hb => ?_⟩
    cases s with
    | nil => cases hb
    | cons d s =>
        obtain rfl : d = b := Option.some.inj hb
        obtain rfl : d = c := Except.ok.inj hc
        rw [hzero]
        decide
  · obtain ⟨n, hn, h⟩ := bind_eq_ok.mp h
    obtain ⟨hx, hspace⟩ := skipComments_eq_some (strspn_eq_ok (nrStrspn_eq_ok hn)) h
    exact ⟨hx.trans (List.drop_suffix n s), hspace⟩

/-! ### The extent of a comment -/

/-- Where `nr_sql_obfuscate` goes on from the slash of a block comment, if the comment ends. -/
def blockEnd (p : Bytes) : Checked (Option Bytes) := do
  let found ← strstr [star, slash] p
  return found.map (·.drop 2)

theorem blockEnd_terminated {text : Bytes} (hzero : 0 ∉ text) :
    blockEnd (terminated text) =
      .ok ((findText [star, slash] text).map fun r => terminated (r.drop 2)) := by
  rw [blockEnd, strstr_terminated (by decide) hzero, ok_bind]
  cases hfind : findText [star, slash] text with
  | none => rfl
  | some r =>
      obtain ⟨body, t, -, rfl, -⟩ := findText_eq_some (List.cons_ne_nil _ _) hfind
      rfl

theorem skipComment_terminated {text : Bytes} (hzero : 0 ∉ text) :
    skipComment (terminated text) =
      .ok ((findText [star, slash] text).map fun r => terminated (r.drop 2)) := by
  induction text with
  | nil => rfl
  | cons b text ih =>
      obtain ⟨hb, htext⟩ := not_or.mp (mt List.mem_cons.mpr hzero)
      rw [terminated_cons, skipComment, if_neg (Ne.symm hb), findText]
      by_cases hend : [star, slash] <+: b :: text
      · obtain ⟨t, ht⟩ := hend
        obtain ⟨rfl, rfl⟩ := List.cons.inj ht
        rw [if_pos rfl, if_pos ⟨t, rfl⟩]
        rfl
      · rw [if_neg hend, ← ih htext]
        split_ifs with hstar
        · have hnext : text.head?.getD 0 ≠ slash := by
            cases text with
            | nil => decide
            | cons c text =>
                rintro rfl
                exact hend ⟨text, by rw [hstar]; rfl⟩
          rw [load_terminated, ok_bind, if_neg hnext]
        · rfl

end Memory

/-! ### The statement behind white space and comments -/

/-- White space and block comments, one behind the other. -/
inductive SkipsLeading : Bytes → Bytes → Prop
  | refl (s : Bytes) : SkipsLeading s s
  | space {b : UInt8} {s t : Bytes} (hb : b ∈ whitespaceChars) (h : SkipsLeading s t) :
      SkipsLeading (b :: s) t
  | comment {body s t : Bytes} (hbody : ¬ [star, slash] <:+: body ++ [star])
      (h : SkipsLeading s t) : SkipsLeading (slash :: star :: (body ++ star :: slash :: s)) t

/-- The statement is what is left of the text when all white space and all comments in front of
it are gone. -/
structure IsStatement (sql statement : Bytes) : Prop where
  skips : SkipsLeading sql statement
  space : ∀ b ∈ statement.head?, b ∉ whitespaceChars
  comment : ¬ [slash, star] <+: statement

theorem SkipsLeading.suffix {s t : Bytes} (h : SkipsLeading s t) : t <:+ s := by
  induction h with
  | refl s => exact List.suffix_rfl
  | space hb h ih => exact ih.trans (List.suffix_cons _ _)
  | @comment body s t hbody h ih =>
      have hbehind : s <:+ slash :: star :: (body ++ [star, slash]) ++ s := List.suffix_append _ s
      simp only [List.cons_append, List.append_assoc, List.nil_append] at hbehind
      exact ih.trans hbehind

theorem SkipsLeading.trans {r s t : Bytes} (h : SkipsLeading r s) (h' : SkipsLeading s t) :
    SkipsLeading r t := by
  induction h with
  | refl s => exact h'
  | space hb h ih => exact .space hb (ih h')
  | comment hbody h ih => exact .comment hbody (ih h')

theorem skipsLeading_dropWhile (s : Bytes) :
    SkipsLeading s (s.dropWhile (· ∈ whitespaceChars)) := by
  induction s with
  | nil => exact .refl []
  | cons b s ih =>
      by_cases hb : b ∈ whitespaceChars
      · rw [List.dropWhile_cons_of_pos (by simpa using hb)]
        exact .space hb ih
      · rw [List.dropWhile_cons_of_neg (by simpa using hb)]
        exact .refl _

theorem head_dropWhile_notMem (s : Bytes) :
    ∀ b ∈ (s.dropWhile (· ∈ whitespaceChars)).head?, b ∉ whitespaceChars := by
  intro b hb
  have hhead := List.head?_dropWhile_not (· ∈ whitespaceChars) s
  rw [Option.mem_def.mp hb] at hhead
  exact of_decide_eq_false hhead

/-- The only fault that a text can lead to is a span that is too long for an `int`. -/
def Long (text : Bytes) (e : Fault) : Prop := e = .range ∧ 2 ^ 31 ≤ text.length

namespace Memory

theorem yields_toInt {text : Bytes} {n : ℕ} (h : n ≤ text.length) :
    Yields (Long text) (· = n) (toInt n) := by
  rw [toInt]
  split_ifs with hn
  · exact Yields.ok rfl
  · exact ⟨rfl, (not_lt.mp hn).trans h⟩

theorem drop_takeWhile_terminated (f : UInt8 → Bool) (t : Bytes) :
    (terminated t).drop (t.takeWhile f).length = terminated (t.dropWhile f) := by
  have hdrop : (t.takeWhile f ++ t.dropWhile f).drop (t.takeWhile f).length = t.dropWhile f :=
    List.drop_left
  rw [List.takeWhile_append_dropWhile] at hdrop
  rw [drop_terminated (List.takeWhile_prefix f).length_le, hdrop]

theorem take_takeWhile_terminated (f : UInt8 → Bool) (t : Bytes) :
    (terminated t).take (t.takeWhile f).length = t.takeWhile f := by
  have htake : (t.takeWhile f ++ t.dropWhile f).take (t.takeWhile f).length = t.takeWhile f :=
    List.take_left
  rw [List.takeWhile_append_dropWhile] at htake
  rw [terminated, List.take_append_of_le_length (List.takeWhile_prefix f).length_le, htake]

theorem yields_nrStrspn {text t accept : Bytes} (ht : t <:+ text) (haccept : 0 ∉ accept) :
    Yields (Long text) (· = (t.takeWhile (· ∈ accept)).length)
      (nrStrspn (terminated t) accept) := by
  rw [nrStrspn, strspn_terminated haccept, ok_bind]
  exact yields_toInt ((List.takeWhile_prefix _).length_le.trans ht.length_le)

theorem yields_nrStrcspn {text t : Bytes} (ht : t <:+ text) (hzero : 0 ∉ text) (reject : Bytes) :
    Yields (Long text) (· = (t.takeWhile (· ∉ reject)).length)
      (nrStrcspn (terminated t) reject) := by
  rw [nrStrcspn, strcspn_terminated fun hz => hzero (ht.subset hz), ok_bind]
  exact yields_toInt ((List.takeWhile_prefix _).length_le.trans ht.length_le)

/-- The comments and the white space behind each of them are what is skipped. -/
theorem yields_skipComments {text t : Bytes} (ht : t <:+ text) (hzero : 0 ∉ text)
    (hspace : ∀ b ∈ t.head?, b ∉ whitespaceChars) :
    Yields (Long text) (fun x => ∀ p ∈ x, ∃ u, p = terminated u ∧ IsStatement t u)
      (skipComments (terminated t)) := by
  induction hlen : t.length using Nat.strong_induction_on generalizing t with
  | _ n ih =>
      subst hlen
      have hstop : ¬ [slash, star] <+: t →
          Yields (Long text) (fun x => ∀ p ∈ x, ∃ u, p = terminated u ∧ IsStatement t u)
            (.ok (some (terminated t))) := by
        intro hcomment
        refine Yields.ok fun p hp => ⟨t, (Option.some.inj hp).symm, .refl t, hspace, hcomment⟩
      cases t with
      | nil =>
          rw [terminated_nil, skipComments, if_neg (by decide)]
          exact hstop (by decide)
      | cons b t =>
          rw [terminated_cons, skipComments]
          split_ifs with hslash
          · rw [load_terminated, ok_bind]
            split_ifs with hstar
            · obtain ⟨u, rfl⟩ : ∃ u, t = star :: u := by
                cases t with
                | nil => exact absurd hstar (by decide)
                | cons c u => exact ⟨u, by rw [show c = star from hstar]⟩
              have hu : u <:+ text :=
                ((List.suffix_cons star u).trans (List.suffix_cons b _)).trans ht
              have hskip := skipComment_terminated fun hz => hzero (hu.subset hz)
              split
              · next e he =>
                  rw [terminated_cons, List.tail_cons, hskip] at he
                  cases he
              · exact Yields.ok nofun
              · next r hr =>
                  rw [terminated_cons, List.tail_cons, hskip] at hr
                  obtain ⟨found, hfound, rfl⟩ := Option.map_eq_some_iff.mp (Except.ok.inj hr)
                  obtain ⟨body, v, rfl, rfl, hbody⟩ :=
                    findText_eq_some (List.cons_ne_nil _ _) hfound
                  have hv : v <:+ text :=
                    ((List.suffix_append [star, slash] v).trans (List.suffix_append body _)).trans hu
                  rw [show List.drop 2 ([star, slash] ++ v) = v from rfl]
                  refine (yields_nrStrspn hv (by decide)).bind ?_
                  rintro n rfl
                  rw [drop_takeWhile_terminated]
                  have hrest := skipsLeading_dropWhile v
                  have hlen := hrest.suffix.length_le
                  refine (ih _ ?_ (hrest.suffix.trans hv) ?_ rfl).mono ?_
                  · simp only [List.length_cons, List.length_append]
                    omega
                  · exact head_dropWhile_notMem v
                  · rintro x hx p hp
                    obtain ⟨w, rfl, hw⟩ := hx p hp
                    refine ⟨w, rfl, ?_, hw.space, hw.comment⟩
                    rw [hslash]
                    exact .comment hbody (hrest.trans hw.skips)
            · refine hstop fun hp => hstar ?_
              obtain ⟨u, hu⟩ := (List.cons_prefix_cons.mp hp).2
              rw [← hu]
              rfl
          · exact hstop fun hp => hslash (List.cons_prefix_cons.mp hp).1.symm

/-- `nr_sql_whitespace_comment_prefix` finds the statement, or sees that a comment does not end. -/
theorem yields_nrSqlWhitespaceCommentPrefix {text t : Bytes} (ht : t <:+ text) (hzero : 0 ∉ text) :
    Yields (Long text) (fun x => ∀ p ∈ x, ∃ u, p = terminated u ∧ IsStatement t u)
      (nrSqlWhitespaceCommentPrefix (some (terminated t))) := by
  rw [nrSqlWhitespaceCommentPrefix, load_terminated, ok_bind]
  split_ifs with hhead
  · have hnil : t = [] := by
      cases t with
      | nil => rfl
      | cons b t =>
          have hb : b = 0 := hhead
          exact absurd (ht.subset (List.mem_cons.mpr (.inl hb.symm))) hzero
    subst hnil
    exact Yields.ok fun p hp => ⟨[], (Option.some.inj hp).symm, .refl [], by simp, by decide⟩
  · refine (yields_nrStrspn ht (by decide)).bind ?_
    rintro n rfl
    rw [drop_takeWhile_terminated]
    have hrest := skipsLeading_dropWhile t
    refine (yields_skipComments (hrest.suffix.trans ht) hzero (head_dropWhile_notMem t)).mono ?_
    rintro x hx p hp
    obtain ⟨u, rfl, hu⟩ := hx p hp
    exact ⟨u, rfl, hrest.trans hu.skips, hu.space, hu.comment⟩

end Memory

/-- The text `out` is `s` with a question mark for each literal and each run of digits, and
without its comments. A block comment ends with the first star and slash behind the two bytes
that open it. -/
inductive Obfuscated : Bytes → Bytes → Prop
  | nil : Obfuscated [] []
  | literal {q : UInt8} (hq : q = quote ∨ q = apostrophe) {body r out : Bytes}
      (hbody : LiteralBody q body) (hr : r.head? ≠ some q) (h : Obfuscated r out) :
      Obfuscated (q :: (body ++ q :: r)) (questionMark :: out)
  | openLiteral {q : UInt8} (hq : q = quote ∨ q = apostrophe) {body : Bytes}
      (hbody : LiteralBody q body) : Obfuscated (q :: body) [questionMark]
  | digits {d r out : Bytes} (hd : d ≠ []) (hdigits : ∀ b ∈ d, isDigit b)
      (hr : ∀ b ∈ r.head?, isDigit b = false) (h : Obfuscated r out) :
      Obfuscated (d ++ r) (questionMark :: out)
  | line {body r out : Bytes} (hbody : newline ∉ body) (h : Obfuscated r out) :
      Obfuscated (minus :: minus :: (body ++ newline :: r)) out
  | openLine {body : Bytes} (hbody : newline ∉ body) : Obfuscated (minus :: minus :: body) []
  | block {body r out : Bytes} (hbody : ¬ [star, slash] <:+: body ++ [star])
      (h : Obfuscated r out) : Obfuscated (slash :: star :: (body ++ star :: slash :: r)) out
  | openBlock {body : Bytes} (hbody : ¬ [star, slash] <:+: body) :
      Obfuscated (slash :: star :: body) []
  | other {b : UInt8} {r out : Bytes} (hquote : b ≠ quote) (hapostrophe : b ≠ apostrophe)
      (hdigit : isDigit b = false) (hr : ¬ StartsComment (b :: r)) (h : Obfuscated r out) :
      Obfuscated (b :: r) (b :: out)

/-- Each block comment that the scan of `raw` comes to ends where
`nr_sql_whitespace_comment_prefix` sees its end, and a comment that it sees no end of goes up to
the end of the text; so nothing of a comment is written. -/
structure CommentsAlike (raw : Bytes) : Prop where
  extent : ∀ text, Passes raw (slash :: star :: text) →
    ∃ after skipped, Memory.blockEnd (terminated (slash :: star :: text)) = .ok after ∧
      Memory.skipComment (terminated text) = .ok skipped ∧
      after.getD (terminated []) = skipped.getD (terminated [])
  output : ∀ out, Memory.nrSqlObfuscate (some (terminated raw)) = .ok (some out) →
    Obfuscated raw out

/-- No comment of the text starts with slash, star, slash, but at the very end of the text. -/
def NoOverlap (raw : Bytes) : Prop :=
  ∀ text, Passes raw (slash :: star :: slash :: text) → text = []

theorem NoOverlap.takes {s out r : Bytes} (h : Takes s out r) (hs : NoOverlap s) : NoOverlap r :=
  fun text htext => hs text (.step h htext)

theorem not_end_of_star {text : Bytes} (h : ¬ [star, slash] <:+: star :: text) :
    ¬ [star, slash] <:+: text :=
  fun hi => h (hi.trans (List.suffix_cons star text).isInfix)

/-- Without overlapping marks the comments that the scan takes out are the comments. -/
theorem obfuscated_of_noOverlap {s : Bytes} (hs : NoOverlap s) (hlone : ¬ LoneEscape s) :
    Obfuscated s (obfuscateLoop .normal s) := by
  induction s using token_induction with
  | @takes s out r h ih =>
      have hrest := ih (hs.takes h) fun ⟨t, ht, hcut⟩ => hlone ⟨t, .step h ht, hcut⟩
      rw [obfuscateLoop_of_takes h]
      cases h with
      | literal hq hbody hr => exact .literal hq hbody hr hrest
      | digits hd hdigits hr => exact .digits hd hdigits hr hrest
      | other hquote hapostrophe hdigit hr => exact .other hquote hapostrophe hdigit hr hrest
      | comment hc =>
          cases hc with
          | line hbody =>
              simp only [List.cons_append, List.append_assoc, List.nil_append]
              exact .line hbody hrest
          | @block body hstart hbody =>
              cases body with
              | nil =>
                  obtain rfl : r = [] := hs r (.refl _)
                  have hopen : ¬ [star, slash] <:+: [slash] := by decide
                  rw [obfuscateLoop_nil]
                  exact .openBlock hopen
              | cons b body =>
                  obtain rfl : b = star := Option.some.inj hstart
                  simp only [List.cons_append, List.append_assoc, List.nil_append]
                  exact .block (not_end_of_star hbody) hrest
  | stops h =>
      rw [obfuscateLoop_of_stops h]
      cases h with
      | nil => exact .nil
      | openLiteral hq hbody => exact .openLiteral hq hbody
      | openComment hc =>
          cases hc with
          | line hbody => exact .openLine hbody
          | block hbody => exact .openBlock (not_end_of_star hbody)
  | @cut s h => exact absurd ⟨s, .refl s, h⟩ hlone

/-- The search from the slash finds the end that the search from behind the star finds, unless
the star of the opening is taken for a part of the end. -/
theorem findText_slash_star (text : Bytes) :
    findText [star, slash] (slash :: star :: text) =
      if text.head? = some slash then some (star :: text) else findText [star, slash] text := by
  have hslash : ¬ [star, slash] <+: slash :: star :: text := fun h =>
    absurd (List.cons_prefix_cons.mp h).1 (by decide)
  rw [findText, if_neg hslash, findText]
  by_cases hhead : text.head? = some slash
  · obtain ⟨t, rfl⟩ := List.head?_eq_some_iff.mp hhead
    rw [if_pos ⟨t, rfl⟩, if_pos hhead]
  · rw [if_neg hhead, if_neg]
    rintro ⟨t, ht⟩
    exact hhead (by rw [← (List.cons.inj ht).2]; rfl)

theorem extents_eq_iff (text : Bytes) :
    ((findText [star, slash] (slash :: star :: text)).map (·.drop 2)).getD [] =
        ((findText [star, slash] text).map (·.drop 2)).getD [] ↔
      ∀ t, text = slash :: t → t = [] := by
  rw [findText_slash_star]
  split_ifs with hhead
  · obtain ⟨t, rfl⟩ := List.head?_eq_some_iff.mp hhead
    have hiff : (∀ u, slash :: t = slash :: u → u = []) ↔ t = [] :=
      ⟨fun h => h t rfl, fun h u hu => (List.cons.inj hu).2 ▸ h⟩
    rw [hiff]
    change t = _ ↔ t = []
    cases hfind : findText [star, slash] (slash :: t) with
    | none => exact Iff.rfl
    | some found =>
        obtain ⟨body, u, htext, rfl, -⟩ := findText_eq_some (List.cons_ne_nil _ _) hfind
        have hlen : u.length < t.length := by
          cases body with
          | nil => exact absurd (List.cons.inj htext).1 (by decide)
          | cons b body =>
              have ht : t = body ++ ([star, slash] ++ u) := (List.cons.inj htext).2
              rw [ht]
              simp only [List.length_append, List.length_cons]
              omega
        refine iff_of_false (fun h => ?_) fun h => ?_
        · change t = u at h
          rw [h] at hlen
          exact lt_irrefl _ hlen
        · rw [h] at hlen
          exact Nat.not_lt_zero _ hlen
  · exact iff_of_true rfl fun t ht => absurd (congrArg List.head? ht) hhead

/-- The comments of a text are taken out as `nr_sql_whitespace_comment_prefix` delimits them
exactly if the scan comes to no comment that starts with slash, star, slash and has more behind
these. -/
theorem commentsAlike_iff (raw : Bytes) (hzero : 0 ∉ raw) : CommentsAlike raw ↔ NoOverlap raw := by
  have hextent : ∀ text, Passes raw (slash :: star :: text) →
      ((∃ after skipped, Memory.blockEnd (terminated (slash :: star :: text)) = .ok after ∧
        Memory.skipComment (terminated text) = .ok skipped ∧
        after.getD (terminated []) = skipped.getD (terminated [])) ↔
      ∀ t, text = slash :: t → t = []) := by
    intro text hpasses
    have hclean : 0 ∉ slash :: star :: text := fun hz => hzero (hpasses.suffix.subset hz)
    have hclean' : 0 ∉ text := fun hz =>
      hclean (List.mem_cons_of_mem _ (List.mem_cons_of_mem _ hz))
    have hgetD : ∀ found : Option Bytes, (found.map fun r => terminated (r.drop 2)).getD
        (terminated []) = terminated ((found.map (·.drop 2)).getD []) := by
      intro found
      cases found with
      | none => rfl
      | some r => rfl
    rw [← extents_eq_iff, Memory.blockEnd_terminated hclean, Memory.skipComment_terminated hclean']
    constructor
    · rintro ⟨after, skipped, hafter, hskipped, heq⟩
      rw [← Except.ok.inj hafter, ← Except.ok.inj hskipped, hgetD, hgetD] at heq
      exact terminated_inj.mp heq
    · intro heq
      exact ⟨_, _, rfl, rfl, by rw [hgetD, hgetD, heq]⟩
  constructor
  · intro h text hpasses
    exact (hextent _ hpasses).mp (h.extent _ hpasses) text rfl
  · intro h
    refine ⟨fun text hpasses => ?_, fun out hout => ?_⟩
    · apply (hextent text hpasses).mpr
      rintro t rfl
      exact h t hpasses
    · have hlone : ¬ LoneEscape raw := by
        intro hlone
        rw [Memory.nrSqlObfuscate, obfuscateLoop_of_loneEscape hzero hlone] at hout
        cases hout
      rw [Memory.nrSqlObfuscate, obfuscateLoop_eq hzero hlone] at hout
      obtain rfl : obfuscateLoop .normal raw = out := Option.some.inj (Except.ok.inj hout)
      exact obfuscated_of_noOverlap h hlone

theorem commentsAlike_iff_empty :
    CommentsAlike [slash, star, star, slash] ↔ NoOverlap [slash, star, star, slash] :=
  commentsAlike_iff _ (by decide)

/-- A comment that starts with a slash, and one letter: `nr_sql_obfuscate` sees the comment end
with its own opening. -/
theorem not_commentsAlike : ¬ ∀ raw : Bytes, 0 ∉ raw → CommentsAlike raw := by
  intro h
  have hraw := h [slash, star, slash, 0x61, star, slash] (by decide)
  obtain ⟨after, skipped, hafter, hskipped, heq⟩ := hraw.extent _ (.refl _)
  have hafter' : Memory.blockEnd (terminated [slash, star, slash, 0x61, star, slash]) =
      .ok (some [0x61, star, slash, 0]) := rfl
  have hskipped' : Memory.skipComment (terminated [slash, 0x61, star, slash]) = .ok (some [0]) :=
    rfl
  rw [hafter'] at hafter
  rw [hskipped'] at hskipped
  rw [← Except.ok.inj hafter, ← Except.ok.inj hskipped] at heq
  cases heq

end AxiomDaemon.Util

import AxiomDaemon.Util.Url

/-!
What a URL is reported as: no user and no parameters are in what `nr_url_clean` makes of
it, nor does that depend on them, and `nr_url_extract_domain` finds the host behind them.
-/

namespace AxiomDaemon.Util

open AxiomDaemon.Lib AxiomDaemon.Lib.CText AxiomDaemon.Lib.Json

/-! ### What is kept -/

theorem cleaned_atSign (clean : Bytes) : cleaned false clean atSign = (backUp clean).2 := by
  simp [cleaned]

theorem cleaned_of_ne {b : UInt8} (h : b ≠ atSign) (maskCreds : Bool) (clean : Bytes) :
    cleaned maskCreds clean b = b :: clean := if_neg h

theorem cleaned_subset (clean : Bytes) (b : UInt8) :
    ∀ c ∈ cleaned false clean b, c ∈ clean ∨ c = b ∧ b ≠ atSign := by
  intro c hc
  by_cases hb : b = atSign
  · rw [hb, cleaned_atSign] at hc
    exact Or.inl ((backUp_suffix clean).subset hc)
  · rw [cleaned_of_ne hb] at hc
    rcases List.mem_cons.mp hc with rfl | hmem
    · exact Or.inr ⟨rfl, hb⟩
    · exact Or.inl hmem

theorem length_cleaned_le (clean : Bytes) (b : UInt8) :
    (cleaned false clean b).length ≤ clean.length + 1 := by
  by_cases hb : b = atSign
  · rw [hb, cleaned_atSign]
    exact (backUp_suffix clean).length_le.trans (Nat.le_succ _)
  · rw [cleaned_of_ne hb, List.length_cons]

theorem length_foldl_cleaned_le (text clean : Bytes) :
    (text.foldl (cleaned false) clean).length ≤ clean.length + text.length := by
  induction text generalizing clean with
  | nil => exact le_rfl
  | cons b text ih =>
      rw [List.foldl_cons, List.length_cons]
      have hrest := ih (cleaned false clean b)
      have hbyte := length_cleaned_le clean b
      omega

/-- What is kept are bytes of the text, and none of them is an at sign. -/
theorem mem_foldl_cleaned {text : Bytes} {c : UInt8}
    (h : c ∈ text.foldl (cleaned false) []) : c ∈ text ∧ c ≠ atSign := by
  suffices hall : ∀ clean : Bytes, c ∈ text.foldl (cleaned false) clean →
      c ∈ clean ∨ c ∈ text ∧ c ≠ atSign by
    exact (hall [] h).resolve_left (by simp)
  clear h
  induction text with
  | nil => exact fun clean hc => Or.inl hc
  | cons b text ih =>
      intro clean hc
      rcases ih (cleaned false clean b) hc with hmem | ⟨hmem, hne⟩
      · rcases cleaned_subset clean b c hmem with hclean | ⟨rfl, hb⟩
        · exact Or.inl hclean
        · exact Or.inr ⟨by simp, hb⟩
      · exact Or.inr ⟨by simp [hmem], hne⟩

theorem cleanFits_false (text : Bytes) : CleanFits false text := by
  have hkept : ∀ done, done <+: text →
      (done.foldl (cleaned false) []).length ≤ text.length := by
    intro done hdone
    have hle := length_foldl_cleaned_le done []
    rw [List.length_nil, Nat.zero_add] at hle
    exact hle.trans hdone.length_le
  have hcapacity : text.length < cleanCapacity text.length := by
    rw [cleanCapacity]
    omega
  exact ⟨fun done hdone => (hkept done hdone).trans hcapacity.le,
    (hkept text List.prefix_rfl).trans_lt hcapacity⟩

theorem CleansUpTo.nrUrlClean_eq {url : Bytes} {urllen : ℤ} {len : ℕ}
    (h : CleansUpTo url urllen len) :
    nrUrlClean (some url) urllen =
      .ok (some ((url.take len).foldl (cleaned false) []).reverse) := by
  obtain ⟨out, hout, rfl⟩ := (h.writesIf false).ok (cleanFits_false _)
  exact hout

/-- Nothing that is private is in what a URL is reported as, and it is no longer than the
URL. -/
theorem nrUrlClean_clean {url out : Bytes} {urllen : ℤ}
    (h : nrUrlClean (some url) urllen = .ok (some out)) :
    (∀ b ∈ out, b ∉ atSign :: nrUrlQueryChars) ∧ (out.length : ℤ) ≤ urllen := by
  obtain ⟨len, hlen⟩ := exists_cleansUpTo h
  rw [hlen.nrUrlClean_eq] at h
  obtain rfl := Option.some.inj (Except.ok.inj h)
  obtain ⟨htake, hle, -⟩ := spanUntil_eq_ok hlen.span
  refine ⟨?_, ?_⟩
  · intro b hb
    obtain ⟨hmem, hat⟩ := mem_foldl_cleaned (List.mem_reverse.mp hb)
    rw [htake] at hmem
    have hquery := List.mem_takeWhile_imp hmem
    simp only [List.mem_append, not_or, Bool.decide_and, Bool.and_eq_true,
      decide_eq_true_eq] at hquery
    exact List.not_mem_cons_of_ne_of_not_mem hat hquery.1
  · have hlength := length_foldl_cleaned_le (url.take len) []
    have hpos := hlen.urllen_pos
    rw [List.length_nil, Nat.zero_add, hlen.length_take] at hlength
    rw [List.length_reverse]
    omega

/-! ### The user -/

/-- Behind a slash nothing is kept of what stands between it and an at sign. -/
theorem backUp_append {user : Bytes} (h : slash ∉ user) (clean : Bytes) :
    (backUp (user ++ slash :: clean)).2 = slash :: clean := by
  induction user with
  | nil => rw [List.nil_append, backUp, if_neg (by decide), if_pos rfl]
  | cons b user ih =>
      obtain ⟨hb, huser⟩ := not_or.mp (mt List.mem_cons.mpr h)
      rw [List.cons_append, backUp, if_neg (Ne.symm hb)]
      split_ifs
      · exact ih huser
      · exact ih huser

theorem foldl_cleaned_user {user : Bytes} (h : slash ∉ user) {kept : Bytes} (hkept : slash ∉ kept)
    (clean : Bytes) : ∃ kept', slash ∉ kept' ∧
      user.foldl (cleaned false) (kept ++ slash :: clean) = kept' ++ slash :: clean := by
  have hnil : slash ∉ ([] : Bytes) := List.not_mem_nil
  induction user generalizing kept with
  | nil => exact ⟨kept, hkept, rfl⟩
  | cons b user ih =>
      obtain ⟨hb, huser⟩ := not_or.mp (mt List.mem_cons.mpr h)
      rw [List.foldl_cons]
      by_cases hat : b = atSign
      · rw [hat, cleaned_atSign, backUp_append hkept]
        exact ih huser hnil
      · rw [cleaned_of_ne hat]
        exact ih huser (List.not_mem_cons_of_ne_of_not_mem hb hkept)

theorem foldl_cleaned_userinfo {user : Bytes} (h : slash ∉ user) (clean : Bytes) :
    (user ++ [atSign]).foldl (cleaned false) (slash :: clean) = slash :: clean := by
  have hnil : slash ∉ ([] : Bytes) := List.not_mem_nil
  obtain ⟨kept, hkept, hfold⟩ := foldl_cleaned_user h hnil clean
  rw [List.nil_append] at hfold
  rw [List.foldl_append, hfold, List.foldl_cons, List.foldl_nil, cleaned_atSign,
    backUp_append hkept]

/-! ### URLs -/

/-- The bytes that end what is looked at of a URL. -/
def urlEnds : Bytes := nrUrlQueryChars ++ [0]

/-- `scheme://userinfo@host:port/path?query`, where the user, the port, the path and the
query may be missing. The query has the byte that starts it, and a fragment is one. -/
structure Url where
  scheme : Bytes
  userinfo : Option Bytes
  host : Bytes
  port : Option Bytes
  path : Bytes
  query : Bytes
  scheme_free : ∀ b ∈ scheme, b ∉ atSign :: colon :: slash :: urlEnds
  userinfo_free : ∀ user ∈ userinfo, ∀ b ∈ user, b ∉ slash :: urlEnds
  host_free : ∀ b ∈ host, b ∉ atSign :: slash :: urlEnds
  port_free : ∀ number ∈ port, ∀ b ∈ number, b ∉ atSign :: colon :: slash :: urlEnds
  path_free : ∀ b ∈ path, b ∉ urlEnds
  path_start : ∀ b ∈ path.head?, b = slash
  query_start : ∀ b ∈ query.head?, b ∈ nrUrlQueryChars

namespace Url

/-- The user with the at sign. -/
def user (url : Url) : Bytes := (url.userinfo.map (· ++ [atSign])).getD []

/-- The port with the colon. -/
def portText (url : Url) : Bytes := (url.port.map (colon :: ·)).getD []

/-- What of a URL is not private. -/
def shown (url : Url) : Bytes := url.host ++ (url.portText ++ url.path)

def text (url : Url) : Bytes :=
  url.scheme ++ (colon :: slash :: slash :: (url.user ++ (url.shown ++ url.query)))

theorem user_free (url : Url) : ∀ b ∈ url.user, b ∉ urlEnds := by
  intro b hb
  have hfree := url.userinfo_free
  rw [user] at hb
  cases huser : url.userinfo with
  | none =>
      rw [huser] at hb
      cases hb
  | some u =>
      rw [huser] at hb
      rcases List.mem_append.mp hb with hmem | hat
      · exact fun hend => hfree u huser b hmem (List.mem_cons_of_mem _ hend)
      · rw [List.mem_singleton.mp hat]
        decide

theorem portText_free (url : Url) : ∀ b ∈ url.portText, b ∉ urlEnds := by
  intro b hb
  have hfree := url.port_free
  rw [portText] at hb
  cases hport : url.port with
  | none =>
      rw [hport] at hb
      cases hb
  | some number =>
      rw [hport] at hb
      rcases List.mem_cons.mp hb with rfl | hmem
      · decide
      · intro hend
        exact hfree number hport b hmem
          (List.mem_cons_of_mem _ (List.mem_cons_of_mem _ (List.mem_cons_of_mem _ hend)))

theorem shown_free (url : Url) : ∀ b ∈ url.shown, b ∉ urlEnds := by
  intro b hb
  rcases List.mem_append.mp hb with hhost | hb
  · exact fun hend => url.host_free b hhost (List.mem_cons_of_mem _ (List.mem_cons_of_mem _ hend))
  · rcases List.mem_append.mp hb with hport | hpath
    · exact url.portText_free b hport
    · exact url.path_free b hpath

/-- The part of a URL in front of its query. -/
def front (url : Url) : Bytes :=
  url.scheme ++ (colon :: slash :: slash :: (url.user ++ url.shown))

theorem text_eq (url : Url) : url.text = url.front ++ url.query := by
  simp [text, front]

theorem front_free (url : Url) : ∀ b ∈ url.front, b ∉ urlEnds := by
  have hscheme : ∀ b ∈ url.scheme, b ∉ urlEnds := by
    intro b hb hend
    exact url.scheme_free b hb
      (List.mem_cons_of_mem _ (List.mem_cons_of_mem _ (List.mem_cons_of_mem _ hend)))
  intro b hb
  rw [front] at hb
  simp only [List.mem_append, List.mem_cons] at hb
  rcases hb with hmem | rfl | rfl | rfl | hmem | hmem
  · exact hscheme b hmem
  · decide
  · decide
  · decide
  · exact url.user_free b hmem
  · exact url.shown_free b hmem

theorem takeWhile_text (url : Url) : url.text.takeWhile (· ∉ urlEnds) = url.front := by
  have hfront : ∀ b ∈ url.front, decide (b ∉ urlEnds) = true := fun b hb =>
    decide_eq_true (url.front_free b hb)
  rw [text_eq, List.takeWhile_append_of_pos hfront]
  cases hquery : url.query with
  | nil => rw [List.takeWhile_nil, List.append_nil]
  | cons b query =>
      have hb := url.query_start b (by rw [hquery]; rfl)
      have hend : b ∈ urlEnds := List.mem_append_left _ hb
      simp [hend]

theorem front_ne_nil (url : Url) : 0 < url.front.length := by
  rw [front, List.length_append, List.length_cons]
  omega

theorem front_prefix (url : Url) (behind : Bytes) : url.front <+: url.text ++ behind := by
  rw [text_eq, List.append_assoc]
  exact List.prefix_append _ _

theorem exists_text_cons (url : Url) : ∃ b rest, url.text = b :: rest ∧ b ≠ 0 := by
  have hpos := url.front_ne_nil
  cases hfront : url.front with
  | nil =>
      rw [hfront] at hpos
      cases hpos
  | cons b front =>
      refine ⟨b, front ++ url.query, by rw [text_eq, hfront, List.cons_append], ?_⟩
      rintro rfl
      exact url.front_free 0 (by rw [hfront]; exact List.mem_cons_self) (by decide)

theorem cleansUpTo (url : Url) {behind : Bytes} (hbehind : behind ≠ []) :
    CleansUpTo (url.text ++ behind) url.text.length url.front.length := by
  have hpos := url.front_ne_nil
  have hlength : url.front.length ≤ url.text.length := by
    rw [text_eq, List.length_append]
    omega
  obtain ⟨len, hlen⟩ := exists_spanUntil (nrUrlQueryChars ++ [0])
    (show url.text.length < (url.text ++ behind).length by
      rw [List.length_append]
      have := List.length_pos_iff.mpr hbehind
      omega)
  obtain ⟨htake, -, hlt⟩ := spanUntil_eq_ok hlen
  rw [List.take_left] at htake
  have hfront : (url.text ++ behind).take len = url.front := htake.trans url.takeWhile_text
  obtain rfl : len = url.front.length := by
    rw [← hfront, List.length_take_of_le hlt.le]
  obtain ⟨b, rest, htext, hb⟩ := url.exists_text_cons
  refine ⟨by omega, ⟨b, rest ++ behind, ?_, hb⟩, hlen, hpos⟩
  rw [htext, List.cons_append]

/-- What a URL is reported as. -/
def reported (url : Url) : Bytes :=
  ((url.scheme ++ (colon :: slash :: slash :: url.shown)).foldl (cleaned false) []).reverse

/-- `nr_url_clean` reports a URL without its user and its query. -/
theorem nrUrlClean_text (url : Url) {behind : Bytes} (hbehind : behind ≠ []) :
    nrUrlClean (some (url.text ++ behind)) url.text.length = .ok (some url.reported) := by
  have htake : (url.text ++ behind).take url.front.length = url.front :=
    (List.prefix_iff_eq_take.mp (url.front_prefix behind)).symm
  rw [(url.cleansUpTo hbehind).nrUrlClean_eq, htake, reported, front]
  have huser : ∀ clean, url.user.foldl (cleaned false) (slash :: clean) = slash :: clean := by
    intro clean
    have hfree := url.userinfo_free
    rw [user]
    cases hinfo : url.userinfo with
    | none => rfl
    | some u =>
        refine foldl_cleaned_userinfo (fun hmem => ?_) clean
        exact hfree u hinfo slash hmem List.mem_cons_self
  have hslash : ∀ clean, cleaned false clean slash = slash :: clean :=
    cleaned_of_ne (by decide) false
  simp only [List.foldl_append, List.foldl_cons, hslash, huser]

end Url

end AxiomDaemon.Util

import AxiomDaemon.Util.Url
import Mathlib.Algebra.Ring.Int.Defs
import Mathlib.Data.List.DropRight

/-!
Whether the masks of `nr_url_proxy_clean` fit their buffer, which has room for two masks of
four bytes more than the URL. Each part of the URL between slashes has a mask of its own in
place of what stands before its last at sign. Lengths are taken to be numbers without bound.
-/

namespace AxiomDaemon.Util

open AxiomDaemon.Lib AxiomDaemon.Lib.CText AxiomDaemon.Lib.Json

/-- `nr_url_proxy_clean`. -/
def nrUrlProxyClean (url : Option Bytes) : Checked (Option Bytes) :=
  match url with
  | none => nrUrlCleanInternal none 0 true
  | some url => do
      let n ← strlen url
      nrUrlCleanInternal (some url) n true

/-! ### The parts between slashes -/

/-- What stands before the last at sign. -/
def segmentUser (segment : Bytes) : Bytes := (segment.rdropWhile (· ≠ atSign)).dropLast

/-- A part with a mask in place of its user. -/
def shownSegment (segment : Bytes) : Bytes :=
  if atSign ∈ segment then
    credsMask (colon ∈ segmentUser segment) ++ segment.rtakeWhile (· ≠ atSign)
  else segment

/-- By how much the mask makes a part longer: it has 5 bytes, or 10 if there is a password,
in place of the user and the at sign. -/
def segmentGain (segment : Bytes) : ℤ :=
  if atSign ∈ segment then
    (if colon ∈ segmentUser segment then 10 else 5) - ((segmentUser segment).length + 1)
  else 0

/-- By how much the masks make a text longer. -/
def gain (text : Bytes) : ℤ := ((text.splitOn slash).map segmentGain).sum

theorem segment_eq {segment : Bytes} (h : atSign ∈ segment) :
    segment = segmentUser segment ++ (atSign :: segment.rtakeWhile (· ≠ atSign)) := by
  have hne : segment.rdropWhile (· ≠ atSign) ≠ [] := by
    intro hnil
    have hall := List.rdropWhile_eq_nil_iff.mp hnil atSign h
    simp at hall
  have hlast := List.rdropWhile_last_not (· ≠ atSign) segment hne
  have hat : (segment.rdropWhile (· ≠ atSign)).getLast hne = atSign := by simpa using hlast
  calc
    segment = segment.rdropWhile (· ≠ atSign) ++ segment.rtakeWhile (· ≠ atSign) :=
      List.rdropWhile_append_rtakeWhile.symm
    _ = (segmentUser segment ++ [atSign]) ++ segment.rtakeWhile (· ≠ atSign) := by
      have hsplit := List.dropLast_append_getLast hne
      rw [hat] at hsplit
      rw [segmentUser, hsplit]
    _ = _ := by rw [List.append_assoc, List.singleton_append]

theorem length_shownSegment (segment : Bytes) :
    ((shownSegment segment).length : ℤ) = segment.length + segmentGain segment := by
  rw [shownSegment, segmentGain]
  split_ifs with hat hcolon
  · have hlength := congrArg List.length (segment_eq hat)
    rw [List.length_append, List.length_cons] at hlength
    simp only [hcolon, decide_true, List.length_append]
    change ((10 + _ : ℕ) : ℤ) = _
    omega
  · have hlength := congrArg List.length (segment_eq hat)
    rw [List.length_append, List.length_cons] at hlength
    simp only [hcolon, decide_false, List.length_append]
    change ((5 + _ : ℕ) : ℤ) = _
    omega
  · simp

theorem colon_mem_shownSegment (segment : Bytes) :
    colon ∈ shownSegment segment ↔ colon ∈ segment := by
  rw [shownSegment]
  split_ifs with hat
  · conv_rhs => rw [segment_eq hat]
    have hmask : ∀ hasPassword, colon ∈ credsMask hasPassword ↔ hasPassword = true := by decide
    have hne : colon ≠ atSign := by decide
    rw [List.mem_append, hmask, decide_eq_true_eq, List.mem_append, List.mem_cons]
    simp only [hne, false_or]
  · rfl

theorem slash_notMem_shownSegment {segment : Bytes} (h : slash ∉ segment) :
    slash ∉ shownSegment segment := by
  rw [shownSegment]
  split_ifs with hat
  · have hmask : ∀ hasPassword, slash ∉ credsMask hasPassword := by decide
    rw [List.mem_append, not_or]
    exact ⟨hmask _, fun hmem => h (segment.rtakeWhile_suffix _ |>.subset hmem)⟩
  · exact h

/-! ### What is written -/

/-- The start of a part: that of the buffer, or behind a slash. -/
def StartsSegment (clean : Bytes) : Prop := ∀ b ∈ clean.head?, b = slash

theorem startsSegment_nil : StartsSegment [] := by
  rintro b ⟨⟩

theorem startsSegment_slash (clean : Bytes) : StartsSegment (slash :: clean) := by
  rintro b ⟨⟩
  rfl

theorem backUp_segment {shown clean : Bytes} (h : slash ∉ shown) (hclean : StartsSegment clean) :
    backUp (shown ++ clean) = (decide (colon ∈ shown), clean) := by
  induction shown with
  | nil =>
      cases clean with
      | nil => rfl
      | cons b clean =>
          rw [hclean b rfl, List.nil_append, backUp, if_neg (by decide), if_pos rfl]
          rfl
  | cons b shown ih =>
      obtain ⟨hb, hshown⟩ := not_or.mp (mt List.mem_cons.mpr h)
      rw [List.cons_append, backUp, ih hshown]
      by_cases hcolon : b = colon
      · simp [hcolon]
      · rw [if_neg hcolon, if_neg (Ne.symm hb)]
        simp [Ne.symm hcolon]

theorem shownSegment_concat_atSign (segment : Bytes) :
    shownSegment (segment ++ [atSign]) = credsMask (colon ∈ segment) := by
  have huser : segmentUser (segment ++ [atSign]) = segment := by
    rw [segmentUser, List.rdropWhile_concat_neg _ _ _ (by simp), List.dropLast_concat]
  rw [shownSegment, if_pos (by simp), huser, List.rtakeWhile_concat_neg _ _ _ (by simp),
    List.append_nil]

theorem shownSegment_concat {segment : Bytes} {b : UInt8} (hb : b ≠ atSign) :
    shownSegment (segment ++ [b]) = shownSegment segment ++ [b] := by
  have huser : segmentUser (segment ++ [b]) = segmentUser segment := by
    rw [segmentUser, List.rdropWhile_concat_pos _ _ _ (by simpa using hb), segmentUser]
  have hmem : atSign ∈ segment ++ [b] ↔ atSign ∈ segment := by simp [Ne.symm hb]
  have hbehind : (segment ++ [b]).rtakeWhile (· ≠ atSign) =
      segment.rtakeWhile (· ≠ atSign) ++ [b] :=
    List.rtakeWhile_concat_pos _ _ _ (decide_eq_true hb)
  simp only [shownSegment, huser, hmem, hbehind]
  split_ifs
  · rw [List.append_assoc]
  · rfl

theorem foldl_cleaned_segment {segment : Bytes} (h : slash ∉ segment) {clean : Bytes}
    (hclean : StartsSegment clean) :
    segment.foldl (cleaned true) clean = (shownSegment segment).reverse ++ clean := by
  induction segment using List.reverseRecOn with
  | nil => rfl
  | append_singleton segment b ih =>
      have hsegment : slash ∉ segment := fun hmem => h (List.mem_append_left _ hmem)
      rw [List.foldl_append, ih hsegment, List.foldl_cons, List.foldl_nil]
      by_cases hb : b = atSign
      · have hshown : slash ∉ (shownSegment segment).reverse := fun hmem =>
          slash_notMem_shownSegment hsegment (List.mem_reverse.mp hmem)
        rw [hb, cleaned, if_pos rfl, if_pos rfl, backUp_segment hshown hclean,
          shownSegment_concat_atSign]
        simp only [List.mem_reverse, colon_mem_shownSegment]
      · rw [cleaned, if_neg hb, shownSegment_concat hb, List.reverse_append]
        rfl

theorem foldl_cleaned_cons {segment : Bytes} (h : slash ∉ segment) {clean : Bytes}
    (hclean : StartsSegment clean) (rest : Bytes) :
    (segment ++ slash :: rest).foldl (cleaned true) clean =
      rest.foldl (cleaned true) (slash :: ((shownSegment segment).reverse ++ clean)) := by
  rw [List.foldl_append, foldl_cleaned_segment h hclean, List.foldl_cons]
  rfl

theorem segment_induction {motive : Bytes → Prop}
    (last : ∀ segment, slash ∉ segment → motive segment)
    (cons : ∀ segment rest, slash ∉ segment → motive rest → motive (segment ++ slash :: rest))
    (text : Bytes) : motive text := by
  induction hlength : text.length using Nat.strong_induction_on generalizing text with
  | _ n ih =>
      by_cases h : slash ∈ text
      · obtain ⟨segment, rest, rfl, hsegment⟩ := List.eq_append_cons_of_mem h
        refine cons segment rest hsegment (ih rest.length ?_ rest rfl)
        rw [← hlength, List.length_append, List.length_cons]
        omega
      · exact last text h

/-- Of a text that is what is shown of its parts, with slashes between them. -/
theorem foldl_cleaned_text (text : Bytes) {clean : Bytes} (hclean : StartsSegment clean) :
    text.foldl (cleaned true) clean =
      ([slash].intercalate ((text.splitOn slash).map shownSegment)).reverse ++ clean := by
  induction text using segment_induction generalizing clean with
  | last segment h =>
      rw [List.splitOn_eq_singleton h, List.map_singleton, List.intercalate_singleton,
        foldl_cleaned_segment h hclean]
  | cons segment rest h ih =>
      have hne : (rest.splitOn slash).map shownSegment ≠ [] := by
        simp [List.splitOn_ne_nil]
      rw [foldl_cleaned_cons h hclean, ih (startsSegment_slash _),
        List.splitOn_append_cons_self_of_not_mem h, List.map_cons,
        List.intercalate_cons_of_ne_nil hne]
      simp

theorem length_foldl_cleaned (text : Bytes) {clean : Bytes} (hclean : StartsSegment clean) :
    ((text.foldl (cleaned true) clean).length : ℤ) =
      clean.length + text.length + gain text := by
  induction text using segment_induction generalizing clean with
  | last segment h =>
      rw [foldl_cleaned_segment h hclean, gain, List.splitOn_eq_singleton h, List.map_singleton,
        List.sum_singleton, List.length_append, List.length_reverse]
      push_cast
      rw [length_shownSegment]
      ring
  | cons segment rest h ih =>
      have hgain : gain (segment ++ slash :: rest) = segmentGain segment + gain rest := by
        rw [gain, List.splitOn_append_cons_self_of_not_mem h, List.map_cons, List.sum_cons, gain]
      have hshown := length_shownSegment segment
      rw [foldl_cleaned_cons h hclean, ih (startsSegment_slash _), hgain]
      simp only [List.length_cons, List.length_append, List.length_reverse]
      push_cast
      rw [hshown]
      ring

/-! ### What fits -/

/-- What is cleaned of a URL: all in front of its query. -/
def proxyText (url : Bytes) : Bytes := url.takeWhile (· ∉ nrUrlQueryChars)

/-- At every turn the masks make what was read longer by no more than what is still to be
read and the nine bytes of the buffer behind it, the last of which is for the zero. -/
def MasksFit (text : Bytes) : Prop :=
  ∀ done rest, text = done ++ rest →
    gain done ≤ rest.length + 9 ∧ (rest = [] → gain done ≤ 8)

theorem length_foldl_cleaned_nil (text : Bytes) :
    ((text.foldl (cleaned true) []).length : ℤ) = text.length + gain text := by
  rw [length_foldl_cleaned text startsSegment_nil, List.length_nil, Nat.cast_zero, zero_add]

theorem cleanFits_true_iff (text : Bytes) : CleanFits true text ↔ MasksFit text := by
  have hcapacity : cleanCapacity text.length = text.length + 9 := rfl
  rw [CleanFits, hcapacity, MasksFit]
  constructor
  · rintro ⟨hloop, hend⟩ done rest rfl
    have hdone := hloop done (List.prefix_append done rest)
    have hlength := length_foldl_cleaned_nil done
    rw [List.length_append] at hdone
    refine ⟨by omega, ?_⟩
    rintro rfl
    rw [List.append_nil] at hend
    omega
  · intro h
    refine ⟨?_, ?_⟩
    · rintro done ⟨rest, rfl⟩
      have hlength := length_foldl_cleaned_nil done
      have hgain := (h done rest rfl).1
      rw [List.length_append]
      omega
    · have hlength := length_foldl_cleaned_nil text
      have hgain := (h text [] (List.append_nil text).symm).2 rfl
      omega

theorem masksFit_nil : MasksFit [] := by
  intro done rest h
  obtain ⟨rfl, rfl⟩ := List.append_eq_nil_iff.mp h.symm
  decide

theorem length_proxyText_le (url : Bytes) : (proxyText url).length ≤ url.length :=
  (List.takeWhile_prefix _).length_le

theorem takeWhile_urlEnd {url : Bytes} (h : 0 ∉ url) :
    url.takeWhile (· ∉ nrUrlQueryChars ++ [0]) = proxyText url := by
  rw [proxyText]
  induction url with
  | nil => rfl
  | cons b url ih =>
      obtain ⟨hb, hurl⟩ := not_or.mp (mt List.mem_cons.mpr h)
      by_cases hquery : b ∈ nrUrlQueryChars
      · simp [hquery]
      · have hend : b ∉ nrUrlQueryChars ++ [0] := by simp [hquery, Ne.symm hb]
        rw [List.takeWhile_cons_of_pos (by simpa using hend), ih hurl,
          List.takeWhile_cons_of_pos (by simpa using hquery)]

theorem spanUntil_terminated {url : Bytes} (h : 0 ∉ url) :
    spanUntil (nrUrlQueryChars ++ [0]) url.length (terminated url) =
      .ok (proxyText url).length := by
  have hlt : url.length < (terminated url).length := by
    rw [terminated, List.length_append]
    exact Nat.lt_succ_self _
  obtain ⟨len, hlen⟩ := exists_spanUntil (nrUrlQueryChars ++ [0]) hlt
  obtain ⟨htake, hle, -⟩ := spanUntil_eq_ok hlen
  have htext : (terminated url).take len = proxyText url := by
    rw [htake, terminated, List.take_left, takeWhile_urlEnd h]
  rw [hlen, ← htext, List.length_take_of_le (hle.trans hlt.le)]

theorem cleansUpTo_terminated {url : Bytes} (h : 0 ∉ url) (hne : proxyText url ≠ []) :
    CleansUpTo (terminated url) url.length (proxyText url).length := by
  have hpos := List.length_pos_iff.mpr hne
  have hle := length_proxyText_le url
  refine ⟨by omega, ?_, spanUntil_terminated h, hpos⟩
  cases url with
  | nil => exact absurd hpos (by decide)
  | cons b url => exact ⟨b, terminated url, rfl, fun hb => h (hb ▸ List.mem_cons_self)⟩

theorem take_terminated {url : Bytes} :
    (terminated url).take (proxyText url).length = proxyText url := by
  rw [terminated, List.take_append_of_le_length (length_proxyText_le url)]
  exact (List.prefix_iff_eq_take.mp (List.takeWhile_prefix _)).symm

/-- Where there is nothing in front of the query, nothing is written. -/
theorem nrUrlProxyClean_nothing {url : Bytes} (h : 0 ∉ url) (hnil : proxyText url = []) :
    nrUrlProxyClean (some (terminated url)) = .ok none := by
  cases url with
  | nil => rfl
  | cons b url =>
      have hb : b ≠ 0 := fun hb => h (hb ▸ List.mem_cons_self)
      have hspan : nrStrncspn (terminated (b :: url)) (b :: url).length (nrUrlQueryChars ++ [0]) =
          .ok 0 := by
        rw [nrStrncspn, if_neg (by simp), Int.toNat_natCast, spanUntil_terminated h, hnil]
        rfl
      rw [nrUrlProxyClean, strlen_terminated h, ok_bind, nrUrlCleanInternal]
      simp only [hspan, ok_bind, if_true]
      rw [if_neg (by simp), terminated_cons, load_cons, ok_bind, if_neg hb]

theorem nrUrlProxyClean_writesIf {url : Bytes} (h : 0 ∉ url) (hne : proxyText url ≠ []) :
    WritesIf (MasksFit (proxyText url))
      (· = some ([slash].intercalate (((proxyText url).splitOn slash).map shownSegment)))
      (nrUrlProxyClean (some (terminated url))) := by
  have hwrites := (cleansUpTo_terminated h hne).writesIf true
  rw [take_terminated] at hwrites
  have hproxy : nrUrlProxyClean (some (terminated url)) =
      nrUrlCleanInternal (some (terminated url)) url.length true := by
    rw [nrUrlProxyClean, strlen_terminated h, ok_bind]
  rw [hproxy]
  refine hwrites.congr (cleanFits_true_iff _).symm ?_
  rintro _ rfl
  rw [foldl_cleaned_text _ startsSegment_nil, List.append_nil, List.reverse_reverse]

/-! ### One user -/

theorem segmentGain_le (segment : Bytes) : segmentGain segment ≤ 8 := by
  rw [segmentGain]
  split_ifs with hat hcolon
  · have hpos := List.length_pos_of_mem hcolon
    omega
  · omega
  · omega

theorem foldl_cleaned_of_notMem {text : Bytes} (h : atSign ∉ text) (maskCreds : Bool)
    (clean : Bytes) : text.foldl (cleaned maskCreds) clean = text.reverse ++ clean := by
  induction text generalizing clean with
  | nil => rfl
  | cons b text ih =>
      obtain ⟨hb, htext⟩ := not_or.mp (mt List.mem_cons.mpr h)
      rw [List.foldl_cons, cleaned, if_neg (Ne.symm hb), ih htext, List.reverse_cons,
        List.append_assoc, List.singleton_append]

/-- What has a user in one part only, as a proxy is to have, fits. -/
theorem masksFit_of_single {before segment behind : Bytes} (hbefore : atSign ∉ before)
    (hstarts : StartsSegment before.reverse) (hsegment : slash ∉ segment)
    (hbehind : atSign ∉ behind) : MasksFit (before ++ (segment ++ behind)) := by
  suffices hgain : ∀ done rest, before ++ (segment ++ behind) = done ++ rest → gain done ≤ 8 by
    intro done rest h
    have hle := hgain done rest h
    exact ⟨by omega, fun _ => hle⟩
  intro done rest h
  have hlength := length_foldl_cleaned_nil done
  rcases List.append_eq_append_iff.mp h with ⟨done', rfl, hrest⟩ | ⟨before', rfl, -⟩
  · rw [List.foldl_append, foldl_cleaned_of_notMem hbefore, List.append_nil] at hlength
    rcases List.append_eq_append_iff.mp hrest with ⟨behind', rfl, rfl⟩ | ⟨segment', rfl, -⟩
    · have hbehind' : atSign ∉ behind' := fun hmem => hbehind (List.mem_append_left _ hmem)
      have hle := segmentGain_le segment
      have hshown := length_shownSegment segment
      rw [List.foldl_append, foldl_cleaned_segment hsegment hstarts,
        foldl_cleaned_of_notMem hbehind'] at hlength
      simp only [List.length_append, List.length_reverse] at hlength
      push_cast at hlength
      omega
    · have hdone : slash ∉ done' := fun hmem => hsegment (List.mem_append_left _ hmem)
      have hle := segmentGain_le done'
      have hshown := length_shownSegment done'
      rw [foldl_cleaned_segment hdone hstarts] at hlength
      simp only [List.length_append, List.length_reverse] at hlength
      push_cast at hlength
      omega
  · have hdone : atSign ∉ done := fun hmem => hbefore (List.mem_append_left _ hmem)
    rw [foldl_cleaned_of_notMem hdone, List.append_nil, List.length_reverse] at hlength
    omega

/-! ### The buffer -/

/-- `nr_url_proxy_clean` writes within its buffer if and only if the masks fit. -/
theorem nrUrlProxyClean_fits_iff (url : Bytes) (h : 0 ∉ url) :
    nrUrlProxyClean (some (terminated url)) ≠ .error .write ↔ MasksFit (proxyText url) := by
  by_cases hnil : proxyText url = []
  · rw [nrUrlProxyClean_nothing h hnil, hnil]
    exact iff_of_true (by simp) masksFit_nil
  · have hwrites := nrUrlProxyClean_writesIf h hnil
    constructor
    · intro hok
      by_contra hnot
      exact hok (hwrites.fault hnot)
    · intro hfits hfault
      obtain ⟨out, hout, -⟩ := hwrites.ok hfits
      rw [hout] at hfault
      cases hfault

/-- Three masks for one byte each are too many. -/
theorem nrUrlProxyClean_three_atSigns :
    nrUrlProxyClean (some (terminated (ascii "@/@/@"))) = .error .write := by
  rfl

theorem nrUrlProxyClean_user_password :
    nrUrlProxyClean (some (terminated (ascii "http://ab:cd@ef:80"))) ≠ .error .write := by
  refine (nrUrlProxyClean_fits_iff (ascii "http://ab:cd@ef:80") (by decide)).mpr ?_
  have hstarts : StartsSegment (ascii "http://").reverse := by
    rintro b ⟨⟩
    rfl
  have hatSign : atSign ∉ ascii "http://" := by decide
  have hslash : slash ∉ ascii "ab:cd@ef:80" := by decide
  exact masksFit_of_single hatSign hstarts hslash List.not_mem_nil

end AxiomDaemon.Util

import AxiomDaemon.Util.UrlPrivacy
import Mathlib.Data.Bool.AllAny

/-!
The host that `nr_url_extract_domain` finds in a URL: the scan goes over the parts of the
URL one by one, and each sets or resets where the host may start and end.
-/

namespace AxiomDaemon.Util

open AxiomDaemon.Lib AxiomDaemon.Lib.CText AxiomDaemon.Lib.Json

/-! ### One byte -/

theorem nrUrlExtractLoop_zero (i : ℕ) (p : Bytes) (s : DomainScan) :
    nrUrlExtractLoop 0 i p s = .ok (some (s, i)) := by
  rw [nrUrlExtractLoop, if_pos rfl]

section Byte

variable {n i : ℕ} {p : Bytes} {s : DomainScan}

theorem nrUrlExtractLoop_atSign (hat : s.afterAt = 0) :
    nrUrlExtractLoop (n + 1) i (atSign :: p) s =
      nrUrlExtractLoop n (i + 1) p
        { s with afterAt := i + 1, start := i + 1, stop := none } := by
  rw [nrUrlExtractLoop]
  simp [hat]

theorem nrUrlExtractLoop_colon (h : 2 ≤ n → startsWith [slash, slash] p = .ok false) :
    nrUrlExtractLoop (n + 1) i (colon :: p) s =
      nrUrlExtractLoop n (i + 1) p { s with stop := s.stop.or (some i) } := by
  have hslashes : colonSlashSlash (n + 1) p = .ok false := by
    rw [colonSlashSlash]
    split_ifs with hn
    · exact h (by omega)
    · rfl
  rw [nrUrlExtractLoop, if_neg (Nat.succ_ne_zero n), load_cons, ok_bind, if_neg (by decide),
    if_pos rfl, List.tail_cons, hslashes, ok_bind, if_neg (by decide), Nat.add_sub_cancel]

theorem nrUrlExtractLoop_scheme (hat : s.afterAt = 0) (hscheme : s.afterColonSlashSlash = 0) :
    nrUrlExtractLoop (n + 3) i (colon :: slash :: slash :: p) s =
      nrUrlExtractLoop n (i + 3) p
        { s with afterColonSlashSlash := i + 3, start := i + 3, stop := none } := by
  rw [nrUrlExtractLoop, if_neg (by omega), load_cons, ok_bind, if_neg (by decide), if_pos rfl,
    List.tail_cons, colonSlashSlash, if_pos (by omega)]
  simp [startsWith, hat, hscheme]

theorem nrUrlExtractLoop_other {b : UInt8} (h : b ∉ atSign :: colon :: slash :: urlEnds) :
    nrUrlExtractLoop (n + 1) i (b :: p) s = nrUrlExtractLoop n (i + 1) p s := by
  simp only [urlEnds, List.mem_cons, List.mem_append, not_or] at h
  obtain ⟨hat, hcolon, hslash, hquery, hzero, -⟩ := h
  rw [nrUrlExtractLoop, if_neg (Nat.succ_ne_zero n), load_cons, ok_bind, if_neg hat,
    if_neg hcolon, if_neg, Nat.add_sub_cancel, List.tail_cons]
  rintro (hb | hb)
  · exact hzero hb
  · rcases List.mem_cons.mp hb with hb | hb
    · exact hslash hb
    · exact hquery hb

theorem nrUrlExtractLoop_end {b : UInt8} (h : b ∈ slash :: nrUrlQueryChars) :
    nrUrlExtractLoop n i (b :: p) s = .ok (some (s, i)) := by
  rw [nrUrlExtractLoop]
  by_cases hn : n = 0
  · rw [if_pos hn]
  · have hcases : b ≠ atSign ∧ b ≠ colon := by
      refine ⟨?_, ?_⟩
      · rintro rfl
        exact absurd h (by decide)
      · rintro rfl
        exact absurd h (by decide)
    rw [if_neg hn, load_cons, ok_bind, if_neg hcases.1, if_neg hcases.2, if_pos (Or.inr h)]

end Byte

/-! ### Parts -/

theorem nrUrlExtractLoop_free {part : Bytes}
    (h : ∀ b ∈ part, b ∉ atSign :: colon :: slash :: urlEnds) (n i : ℕ) (p : Bytes)
    (s : DomainScan) :
    nrUrlExtractLoop (part.length + n) i (part ++ p) s =
      nrUrlExtractLoop n (i + part.length) p s := by
  induction part generalizing i with
  | nil => rw [List.length_nil, Nat.zero_add, List.nil_append, Nat.add_zero]
  | cons b part ih =>
      rw [List.length_cons, Nat.add_right_comm, List.cons_append,
        nrUrlExtractLoop_other (h b (by simp)), ih (fun c hc => h c (by simp [hc]))]
      congr 1
      omega

theorem nrUrlExtractLoop_user {part : Bytes}
    (h : ∀ b ∈ part, b ∉ atSign :: slash :: urlEnds) (n i : ℕ) {p : Bytes}
    (hp : startsWith [slash, slash] p = .ok false) (s : DomainScan) :
    ∃ stop, nrUrlExtractLoop (part.length + n) i (part ++ p) s =
      nrUrlExtractLoop n (i + part.length) p { s with stop := stop } := by
  induction part generalizing i s with
  | nil => exact ⟨s.stop, by rw [List.length_nil, Nat.zero_add, List.nil_append, Nat.add_zero]⟩
  | cons b part ih =>
      have hrest : ∀ c ∈ part, c ∉ atSign :: slash :: urlEnds := fun c hc => h c (by simp [hc])
      have hi : i + 1 + part.length = i + (part.length + 1) := by omega
      rw [List.length_cons, Nat.add_right_comm, List.cons_append]
      by_cases hcolon : b = colon
      · have hnot : startsWith [slash, slash] (part ++ p) = .ok false := by
          cases part with
          | nil => exact hp
          | cons c part =>
              have hc : c ≠ slash := by
                rintro rfl
                exact hrest slash (by simp) (by decide)
              rw [List.cons_append, startsWith, if_neg hc]
        obtain ⟨stop, hstop⟩ := ih hrest (i + 1) { s with stop := s.stop.or (some i) }
        refine ⟨stop, ?_⟩
        rw [hcolon, nrUrlExtractLoop_colon fun _ => hnot, hstop, hi]
      · have hb : b ∉ atSign :: colon :: slash :: urlEnds := by
          have hfree := h b (by simp)
          simp only [List.mem_cons, not_or] at hfree ⊢
          exact ⟨hfree.1, hcolon, hfree.2⟩
        obtain ⟨stop, hstop⟩ := ih hrest (i + 1) s
        refine ⟨stop, ?_⟩
        rw [nrUrlExtractLoop_other hb, hstop, hi]

namespace Url

/-- The URLs of which the domain can be told: a host without a colon, a user without an at
sign, and no colon without a port in front of two slashes, which would start a host anew. -/
structure HasDomain (url : Url) : Prop where
  host_ne : url.host ≠ []
  host_colon : colon ∉ url.host
  userinfo_atSign : ∀ user ∈ url.userinfo, atSign ∉ user
  port_path : url.port = some [] → ¬[slash, slash] <+: url.path

/-- Where the host starts. -/
def hostStart (url : Url) : ℕ := url.scheme.length + 3 + url.user.length

variable (url : Url)

theorem length_text : url.text.length = url.scheme.length + (url.user.length +
    (url.host.length + (url.portText.length + (url.path ++ url.query).length)) + 3) := by
  simp [text, shown]

/-- The state of the scan behind the scheme. -/
def behindScheme : DomainScan :=
  { start := url.scheme.length + 3
    stop := none
    afterAt := 0
    afterColonSlashSlash := url.scheme.length + 3 }

theorem loop_user (hat : ∀ user ∈ url.userinfo, atSign ∉ user) (n i : ℕ) (p : Bytes)
    {s : DomainScan} (hstart : s.start = i) (hstop : s.stop = none) (hafter : s.afterAt = 0) :
    ∃ s', nrUrlExtractLoop (url.user.length + n) i (url.user ++ p) s =
        nrUrlExtractLoop n (i + url.user.length) p s' ∧
      s'.start = i + url.user.length ∧ s'.stop = none ∧
      s'.afterColonSlashSlash = s.afterColonSlashSlash := by
  have hfree := url.userinfo_free
  rw [user]
  cases hinfo : url.userinfo with
  | none =>
      refine ⟨s, ?_, hstart, hstop, rfl⟩
      rw [Option.map_none, Option.getD_none, List.length_nil, Nat.zero_add, List.nil_append,
        Nat.add_zero]
  | some u =>
      have hu : ∀ b ∈ u, b ∉ atSign :: slash :: urlEnds := by
        intro b hb
        refine List.not_mem_cons_of_ne_of_not_mem ?_ (hfree u hinfo b hb)
        rintro rfl
        exact hat u hinfo hb
      obtain ⟨stop, hscan⟩ := nrUrlExtractLoop_user hu (1 + n) i
        (show startsWith [slash, slash] (atSign :: p) = .ok false from rfl) s
      refine ⟨{ s with
        afterAt := i + u.length + 1, start := i + u.length + 1, stop := none }, ?_, ?_, rfl, rfl⟩
      · simp only [Option.map_some, Option.getD_some, List.length_append, List.length_singleton,
          List.append_assoc, List.singleton_append, Nat.add_assoc]
        have hafter' : ({ s with stop := stop } : DomainScan).afterAt = 0 := hafter
        rw [hscan, Nat.add_comm 1 n, nrUrlExtractLoop_atSign hafter']
        simp only [Nat.add_assoc]
      · simp only [Option.map_some, Option.getD_some, List.length_append, List.length_singleton,
          Nat.add_assoc]

theorem loop_rest (i : ℕ) (behind : Bytes) (s : DomainScan) :
    nrUrlExtractLoop (url.path ++ url.query).length i ((url.path ++ url.query) ++ behind) s =
      .ok (some (s, i)) := by
  cases hrest : url.path ++ url.query with
  | nil => rw [List.length_nil, nrUrlExtractLoop_zero]
  | cons b rest =>
      rw [List.cons_append]
      refine nrUrlExtractLoop_end ?_
      cases hpath : url.path with
      | nil =>
          rw [hpath, List.nil_append] at hrest
          exact List.mem_cons_of_mem _ (url.query_start b (by rw [hrest]; rfl))
      | cons c path =>
          rw [hpath, List.cons_append] at hrest
          obtain ⟨rfl, -⟩ := List.cons.inj hrest
          rw [url.path_start c (by rw [hpath]; rfl)]
          exact List.mem_cons_self

theorem startsWith_port {number : Bytes} (hport : url.port = some number)
    (hpath : url.port = some [] → ¬[slash, slash] <+: url.path) (behind : Bytes)
    (hlength : 2 ≤ number.length + (url.path ++ url.query).length) :
    startsWith [slash, slash] (number ++ ((url.path ++ url.query) ++ behind)) = .ok false := by
  cases number with
  | cons c number =>
      have hc : c ≠ slash := by
        rintro rfl
        exact url.port_free _ hport slash (by simp) (by decide)
      rw [List.cons_append, startsWith, if_neg hc]
  | nil =>
      have hquery : ∀ c ∈ url.query.head?, c ≠ slash := by
        rintro c hc rfl
        exact absurd (url.query_start slash hc) (by decide)
      have hpath := hpath hport
      rw [List.nil_append]
      rcases hp : url.path with _ | ⟨c, _ | ⟨d, path⟩⟩
      · cases hq : url.query with
        | nil =>
            rw [hp, hq] at hlength
            simp at hlength
        | cons c query =>
            rw [List.nil_append, List.cons_append, startsWith,
              if_neg (hquery c (by rw [hq]; rfl))]
      · cases hq : url.query with
        | nil =>
            rw [hp, hq] at hlength
            simp at hlength
        | cons d query =>
            have hd := hquery d (by rw [hq]; rfl)
            simp only [List.cons_append, List.nil_append, startsWith, if_neg hd, ite_self]
      · have hne : ¬(c = slash ∧ d = slash) := by
          rintro ⟨rfl, rfl⟩
          refine hpath ?_
          rw [hp]
          exact ⟨path, rfl⟩
        simp only [List.cons_append, startsWith]
        split_ifs with hc hd
        · exact absurd ⟨hc, hd⟩ hne
        · rfl
        · rfl

/-- A port, a path and a query leave the end of the host where it is. -/
theorem loop_behindHost (hpath : url.port = some [] → ¬[slash, slash] <+: url.path) (i : ℕ)
    (behind : Bytes) {s : DomainScan} (hstop : s.stop = none) :
    ∃ s' j, nrUrlExtractLoop (url.portText.length + (url.path ++ url.query).length) i
        (url.portText ++ ((url.path ++ url.query) ++ behind)) s = .ok (some (s', j)) ∧
      s'.start = s.start ∧ s'.stop.getD j = i := by
  have hfree := url.port_free
  rw [portText]
  cases hport : url.port with
  | none =>
      refine ⟨s, i, ?_, rfl, by rw [hstop]; rfl⟩
      rw [Option.map_none, Option.getD_none, List.length_nil, Nat.zero_add, List.nil_append,
        url.loop_rest]
  | some number =>
      refine ⟨{ s with stop := some i }, i + 1 + number.length, ?_, rfl, rfl⟩
      have hcolon := url.startsWith_port hport hpath behind
      rw [Option.map_some, Option.getD_some, List.length_cons, Nat.add_right_comm,
        List.cons_append, nrUrlExtractLoop_colon hcolon, nrUrlExtractLoop_free (hfree number hport),
        url.loop_rest, hstop]
      rfl

theorem loop_host (hcolon : colon ∉ url.host)
    (hat : ∀ user ∈ url.userinfo, atSign ∉ user) (behind : Bytes) :
    ∃ s, nrUrlExtractLoop url.text.length 0 (url.text ++ behind)
        { start := 0, stop := none, afterAt := 0, afterColonSlashSlash := 0 } =
        nrUrlExtractLoop (url.portText.length + (url.path ++ url.query).length)
          (url.hostStart + url.host.length)
          (url.portText ++ ((url.path ++ url.query) ++ behind)) s ∧
      s.start = url.hostStart ∧ s.stop = none ∧ s.afterColonSlashSlash ≠ 0 := by
  have hhost : ∀ b ∈ url.host, b ∉ atSign :: colon :: slash :: urlEnds := by
    intro b hb
    have hfree := url.host_free b hb
    simp only [List.mem_cons, not_or] at hfree ⊢
    refine ⟨hfree.1, ?_, hfree.2⟩
    rintro rfl
    exact hcolon hb
  have htext : url.text ++ behind = url.scheme ++ (colon :: slash :: slash ::
      (url.user ++ (url.host ++ (url.portText ++ ((url.path ++ url.query) ++ behind))))) := by
    simp [text, shown]
  obtain ⟨s, hscan, hstart, hstop, hscheme⟩ := url.loop_user hat (url.host.length +
    (url.portText.length + (url.path ++ url.query).length)) (url.scheme.length + 3)
    (url.host ++ (url.portText ++ ((url.path ++ url.query) ++ behind)))
    (show url.behindScheme.start = url.scheme.length + 3 from rfl) rfl rfl
  refine ⟨s, ?_, hstart, hstop, hscheme.trans_ne (Nat.succ_ne_zero _)⟩
  rw [htext, url.length_text, nrUrlExtractLoop_free url.scheme_free, Nat.zero_add,
    nrUrlExtractLoop_scheme rfl rfl]
  change nrUrlExtractLoop _ _ _ url.behindScheme = _
  rw [hscan, nrUrlExtractLoop_free hhost]
  rfl

theorem take_drop_hostStart :
    (url.text.drop url.hostStart).take url.host.length = url.host := by
  have htext : url.text = (url.scheme ++ (colon :: slash :: slash :: url.user)) ++
      (url.host ++ (url.portText ++ url.path ++ url.query)) := by
    simp [text, shown]
  have hstart : url.hostStart = (url.scheme ++ (colon :: slash :: slash :: url.user)).length := by
    simp [hostStart]
    omega
  rw [htext, hstart, List.drop_left, List.take_left]

/-- `nr_url_extract_domain` finds the host. -/
theorem nrUrlExtractDomain_text (h : url.HasDomain) (behind : Bytes) :
    nrUrlExtractDomain (some (url.text ++ behind)) url.text.length =
      .ok (some (url.hostStart, url.host.length)) := by
  obtain ⟨s, hscan, hstart, hstop, -⟩ :=
    url.loop_host h.host_colon h.userinfo_atSign behind
  obtain ⟨s', j, hend, hstart', hstop'⟩ := url.loop_behindHost h.port_path
    (url.hostStart + url.host.length) behind hstop
  obtain ⟨b, rest, hcons, hb⟩ := url.exists_text_cons
  have hload : load (url.text ++ behind) = .ok b := by
    rw [hcons, List.cons_append, load_cons]
  have hpos := List.length_pos_iff.mpr h.host_ne
  have hs' : s'.start = url.hostStart := hstart'.trans hstart
  have hurllen : url.hostStart + url.host.length ≤ url.text.length := by
    rw [url.length_text, hostStart]
    omega
  rw [nrUrlExtractDomain]
  simp only [hload, ok_bind]
  rw [if_neg (not_or.mpr ⟨hb, by omega⟩)]
  simp only [Int.toNat_natCast, hscan, hend, ok_bind, hs', hstop']
  rw [if_neg (by omega), Nat.add_sub_cancel_left]

end Url

/-! ### What is reported -/

theorem lt_of_colonSlashSlash {n : ℕ} {p : Bytes} (h : colonSlashSlash n p = .ok true) :
    2 < n := by
  rw [colonSlashSlash] at h
  split_ifs at h with hn
  · exact hn
  · cases h

/-- The scan stays within the URL, and so does every end of a domain that it sets. -/
theorem nrUrlExtractLoop_le {n i j : ℕ} {p : Bytes} {s s' : DomainScan}
    (h : nrUrlExtractLoop n i p s = .ok (some (s', j))) (hs : ∀ stop ∈ s.stop, stop ≤ i) :
    j ≤ i + n ∧ ∀ stop ∈ s'.stop, stop ≤ j := by
  induction n using Nat.strong_induction_on generalizing i p s with
  | _ n ih =>
      rw [nrUrlExtractLoop] at h
      by_cases hn : n = 0
      · rw [if_pos hn] at h
        obtain ⟨rfl, rfl⟩ := Prod.mk.inj (Option.some.inj (Except.ok.inj h))
        exact ⟨by omega, hs⟩
      rw [if_neg hn] at h
      cases p with
      | nil => cases h
      | cons b p =>
          rw [load_cons, ok_bind, List.tail_cons] at h
          have hnone : ∀ stop ∈ (none : Option ℕ), stop ≤ i + 1 := by simp
          by_cases hat : b = atSign
          · rw [if_pos hat] at h
            split_ifs at h
            · cases h
            · obtain ⟨hj, hstop⟩ := ih (n - 1) (by omega) h (by simp)
              exact ⟨by omega, hstop⟩
          rw [if_neg hat] at h
          by_cases hcolon : b = colon
          · rw [if_pos hcolon] at h
            cases hslashes : colonSlashSlash n p with
            | error e =>
                rw [hslashes] at h
                cases h
            | ok slashes =>
                rw [hslashes, ok_bind] at h
                cases slashes with
                | true =>
                    have hlt := lt_of_colonSlashSlash hslashes
                    rw [if_pos rfl] at h
                    split_ifs at h
                    · cases h
                    · obtain ⟨hj, hstop⟩ := ih (n - 3) (by omega) h (by simp)
                      exact ⟨by omega, hstop⟩
                | false =>
                    have hle : ∀ stop ∈ s.stop.or (some i), stop ≤ i + 1 := by
                      intro stop hstop
                      cases hold : s.stop with
                      | none =>
                          rw [hold] at hstop
                          obtain rfl := Option.some.inj hstop
                          exact Nat.le_succ i
                      | some old =>
                          rw [hold] at hstop
                          exact (hs stop (hold.trans hstop)).trans (Nat.le_succ i)
                    rw [if_neg (by decide)] at h
                    obtain ⟨hj, hstop⟩ := ih (n - 1) (by omega) h hle
                    exact ⟨by omega, hstop⟩
          rw [if_neg hcolon] at h
          by_cases hend : b = 0 ∨ b ∈ slash :: nrUrlQueryChars
          · rw [if_pos hend] at h
            obtain ⟨rfl, rfl⟩ := Prod.mk.inj (Option.some.inj (Except.ok.inj h))
            exact ⟨by omega, hs⟩
          · rw [if_neg hend] at h
            have hle : ∀ stop ∈ s.stop, stop ≤ i + 1 := fun stop hstop =>
              (hs stop hstop).trans (Nat.le_succ i)
            obtain ⟨hj, hstop⟩ := ih (n - 1) (by omega) h hle
            exact ⟨by omega, hstop⟩

theorem nrUrlExtractDomain_le {url : Bytes} {urllen : ℤ} {start dnlen : ℕ}
    (h : nrUrlExtractDomain (some url) urllen = .ok (some (start, dnlen))) :
    0 < dnlen ∧ ((start + dnlen : ℕ) : ℤ) ≤ urllen := by
  simp only [nrUrlExtractDomain] at h
  cases url with
  | nil => cases h
  | cons b p =>
      rw [load_cons, ok_bind] at h
      by_cases hnone : b = 0 ∨ urllen ≤ 0
      · rw [if_pos hnone] at h
        cases h
      rw [if_neg hnone] at h
      obtain ⟨found, hfound, h⟩ := bind_eq_ok.mp h
      cases found with
      | none => cases h
      | some found =>
          obtain ⟨s, i⟩ := found
          obtain ⟨hi, hstop⟩ := nrUrlExtractLoop_le hfound (by simp)
          have hle : s.stop.getD i ≤ i := by
            cases hs : s.stop with
            | none => exact le_rfl
            | some stop => exact hstop stop hs
          simp only at h
          split_ifs at h with hempty
          · cases h
          · obtain ⟨rfl, rfl⟩ := Prod.mk.inj (Option.some.inj (Except.ok.inj h))
            omega

/-- Neither the user nor the query of a URL is in what is reported of it, nor do they change
it: not what `nr_url_clean` makes of it, which has no byte that could start one of them, nor
the host that `nr_url_extract_domain` finds in it. -/
theorem url_reported_without_private :
    (∀ url url' : Url, url'.scheme = url.scheme → url'.host = url.host → url'.port = url.port →
      url'.path = url.path → ∀ behind behind' : Bytes, behind ≠ [] → behind' ≠ [] →
        ∃ clean, nrUrlClean (some (url.text ++ behind)) url.text.length = .ok (some clean) ∧
          nrUrlClean (some (url'.text ++ behind')) url'.text.length = .ok (some clean)) ∧
    (∀ (url out : Bytes) (urllen : ℤ), nrUrlClean (some url) urllen = .ok (some out) →
      (∀ b ∈ out, b ∉ atSign :: nrUrlQueryChars) ∧ (out.length : ℤ) ≤ urllen) ∧
    (∀ url : Url, url.HasDomain → ∀ behind : Bytes,
      nrUrlExtractDomain (some (url.text ++ behind)) url.text.length =
          .ok (some (url.hostStart, url.host.length)) ∧
        (url.text.drop url.hostStart).take url.host.length = url.host) ∧
    (∀ (url : Bytes) (urllen : ℤ) (start dnlen : ℕ),
      nrUrlExtractDomain (some url) urllen = .ok (some (start, dnlen)) →
        0 < dnlen ∧ ((start + dnlen : ℕ) : ℤ) ≤ urllen) := by
  refine ⟨?_, ?_, ?_, ?_⟩
  · intro url url' hscheme hhost hport hpath behind behind' hbehind hbehind'
    have hreported : url'.reported = url.reported := by
      simp only [Url.reported, Url.shown, Url.portText, hscheme, hhost, hport, hpath]
    exact ⟨url.reported, url.nrUrlClean_text hbehind, hreported ▸ url'.nrUrlClean_text hbehind'⟩
  · intro url out urllen h
    exact nrUrlClean_clean h
  · intro url h behind
    exact ⟨url.nrUrlExtractDomain_text h behind, url.take_drop_hostStart⟩
  · intro url urllen start dnlen h
    exact nrUrlExtractDomain_le h

/-- `http://ab:cd@ef:80/gh?ij`. -/
def plainUrl : Url where
  scheme := ascii "http"
  userinfo := some (ascii "ab:cd")
  host := ascii "ef"
  port := some (ascii "80")
  path := ascii "/gh"
  query := ascii "?ij"
  scheme_free := List.all_iff_forall_prop.mp (by decide)
  userinfo_free := by
    rintro user ⟨⟩
    exact List.all_iff_forall_prop.mp (by decide)
  host_free := List.all_iff_forall_prop.mp (by decide)
  port_free := by
    rintro number ⟨⟩
    exact List.all_iff_forall_prop.mp (by decide)
  path_free := List.all_iff_forall_prop.mp (by decide)
  path_start := by
    rintro b ⟨⟩
    rfl
  query_start := by
    rintro b ⟨⟩
    decide

theorem plainUrl_domain :
    nrUrlExtractDomain (some (plainUrl.text ++ [0])) plainUrl.text.length = .ok (some (13, 2)) := by
  have hdomain : plainUrl.HasDomain := by
    constructor <;> decide
  exact (url_reported_without_private.2.2.1 plainUrl hdomain [0]).1

/-- `http://u@host://x`: an empty port, and a path of two slashes. -/
def portlessUrl : Url where
  scheme := ascii "http"
  userinfo := some (ascii "u")
  host := ascii "host"
  port := some []
  path := ascii "//x"
  query := []
  scheme_free := List.all_iff_forall_prop.mp (by decide)
  userinfo_free := by
    rintro user ⟨⟩
    exact List.all_iff_forall_prop.mp (by decide)
  host_free := List.all_iff_forall_prop.mp (by decide)
  port_free := by
    rintro number ⟨⟩ b ⟨⟩
  path_free := List.all_iff_forall_prop.mp (by decide)
  path_start := by
    rintro b ⟨⟩
    rfl
  query_start := by
    rintro b ⟨⟩

/-- The second `://` is one too many for the scan, which then finds no domain. -/
theorem portlessUrl_no_domain :
    ¬ ∀ url : Url, url.host ≠ [] → colon ∉ url.host → (∀ user ∈ url.userinfo, atSign ∉ user) →
      ∀ behind : Bytes, nrUrlExtractDomain (some (url.text ++ behind)) url.text.length =
        .ok (some (url.hostStart, url.host.length)) := by
  intro h
  have hfound := h portlessUrl (by decide) (by decide) (by decide) [0]
  have hnone : nrUrlExtractDomain (some (portlessUrl.text ++ [0])) portlessUrl.text.length =
      .ok none := by
    decide +kernel
  rw [hnone] at hfound
  cases hfound

end AxiomDaemon.Util

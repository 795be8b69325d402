import AxiomDaemon.Lib.CText
import AxiomDaemon.Lib.Json

/-!
URLs without what is private in them, `util_url.c`. A URL need not be terminated: its
pointer is what can be read from it on, and its length comes with it. What is written is
kept the last byte first, as it is backed up over from its end.
-/

namespace AxiomDaemon.Util

open AxiomDaemon.Lib AxiomDaemon.Lib.CText AxiomDaemon.Lib.Json

abbrev atSign : UInt8 := 0x40

/-! ### Finding the end -/

/-- The loop of `nr_strncspn`, with what is left of `s1len`: a byte is read before it is
asked whether it is still one of them. -/
def spanUntil (s2 : Bytes) : ℕ → Bytes → Checked ℕ
  | _, [] => .error .read
  | n, ch :: p => if n = 0 ∨ ch ∈ s2 then .ok 0 else (· + 1) <$> spanUntil s2 (n - 1) p

/-- `nr_strncspn`. -/
def nrStrncspn (s1 : Bytes) (s1len : ℤ) (s2 : Bytes) : Checked ℕ :=
  if s1len ≤ 0 ∨ s2 = [] then .ok 0 else spanUntil s2 s1len.toNat s1

theorem spanUntil_eq_ok {s2 p : Bytes} {n len : ℕ} (h : spanUntil s2 n p = .ok len) :
    p.take len = (p.take n).takeWhile (· ∉ s2) ∧ len ≤ n ∧ len < p.length := by
  induction p generalizing n len with
  | nil => cases h
  | cons ch p ih =>
      rw [spanUntil] at h
      split_ifs at h with hend
      · obtain rfl : 0 = len := Except.ok.inj h
        refine ⟨?_, Nat.zero_le n, by simp⟩
        rcases hend with rfl | hmem
        · rfl
        · cases n with
          | zero => rfl
          | succ n =>
              rw [List.take_succ_cons, List.takeWhile_cons_of_neg (by simpa using hmem)]
              rfl
      · obtain ⟨hn, hmem⟩ := not_or.mp hend
        cases hrest : spanUntil s2 (n - 1) p with
        | error e =>
            rw [hrest] at h
            cases h
        | ok m =>
            rw [hrest] at h
            obtain rfl : m + 1 = len := Except.ok.inj h
            obtain ⟨htake, hle, hlt⟩ := ih hrest
            obtain ⟨k, rfl⟩ : ∃ k, n = k + 1 := ⟨n - 1, by omega⟩
            refine ⟨?_, by omega, by simpa using hlt⟩
            rw [List.take_succ_cons, List.take_succ_cons,
              List.takeWhile_cons_of_pos (by simpa using hmem), htake, Nat.add_sub_cancel]

theorem exists_spanUntil (s2 : Bytes) {p : Bytes} {n : ℕ} (h : n < p.length) :
    ∃ len, spanUntil s2 n p = .ok len := by
  induction p generalizing n with
  | nil => simp at h
  | cons ch p ih =>
      rw [spanUntil]
      split_ifs with hend
      · exact ⟨0, rfl⟩
      · obtain ⟨len, hlen⟩ := @ih (n - 1) (by
          have hn := (not_or.mp hend).1
          rw [List.length_cons] at h
          omega)
        exact ⟨len + 1, by rw [hlen]; rfl⟩

/-! ### Cleaning -/

/-- `NR_URL_QUERY_CHARS`. -/
def nrUrlQueryChars : Bytes := ascii "#?;"

/-- `NR_PROXY_CREDS_MASK`. -/
def nrProxyCredsMask : Bytes := ascii "****"

/-- Back up over what was written to a slash or to the start, and tell whether there was a
colon on the way. -/
def backUp : Bytes → Bool × Bytes
  | [] => (false, [])
  | b :: clean =>
      if b = colon then (true, (backUp clean).2)
      else if b = slash then (false, b :: clean)
      else backUp clean

/-- Bytes are written behind those that are in the buffer. -/
def put (capacity : ℕ) (clean bytes : Bytes) : Checked Bytes :=
  if clean.length + bytes.length ≤ capacity then .ok (bytes.reverse ++ clean) else .error .write

/-- What the loop of `nr_url_clean_internal` does with a byte of the URL. -/
def nrUrlCleanByte (maskCreds : Bool) (capacity : ℕ) (clean : Bytes) (b : UInt8) :
    Checked Bytes :=
  if b = atSign then
    let (hasPassword, clean) := backUp clean
    if maskCreds then do
      let clean ← put capacity clean nrProxyCredsMask
      let clean ←
        if hasPassword then do
          let clean ← put capacity clean [colon]
          put capacity clean nrProxyCredsMask
        else .ok clean
      put capacity clean [atSign]
    else .ok clean
  else put capacity clean [b]

/-- `nr_url_clean_internal`. -/
def nrUrlCleanInternal (url : Option Bytes) (urllen : ℤ) (maskCreds : Bool) :
    Checked (Option Bytes) :=
  match url with
  | none => .ok none
  | some url =>
      if urllen ≤ 0 then .ok none
      else do
        let b ← load url
        if b = 0 then .ok none
        else do
          let len ← nrStrncspn url urllen (nrUrlQueryChars ++ [0])
          if len = 0 then .ok none
          else do
            let capacity := len + 2 * nrProxyCredsMask.length + 1
            -- the bytes before `len` have all been read
            let clean ← (url.take len).foldlM (nrUrlCleanByte maskCreds capacity) []
            let clean ← put capacity clean [0]
            .ok (some clean.tail.reverse)

/-- `nr_url_clean`. -/
def nrUrlClean (url : Option Bytes) (urllen : ℤ) : Checked (Option Bytes) :=
  nrUrlCleanInternal url urllen false

/-- What replaces the user and the password. -/
def credsMask (hasPassword : Bool) : Bytes :=
  nrProxyCredsMask ++ (if hasPassword then colon :: nrProxyCredsMask else []) ++ [atSign]

/-- What the buffer holds after a byte of the URL. -/
def cleaned (maskCreds : Bool) (clean : Bytes) (b : UInt8) : Bytes :=
  if b = atSign then
    (if maskCreds then (credsMask (backUp clean).1).reverse else []) ++ (backUp clean).2
  else b :: clean

theorem put_writesIf (capacity : ℕ) (clean bytes : Bytes) :
    WritesIf (clean.length + bytes.length ≤ capacity) (· = bytes.reverse ++ clean)
      (put capacity clean bytes) :=
  ⟨fun hfits => ⟨_, if_pos hfits, rfl⟩, fun hnot => if_neg hnot⟩

theorem put_put_writesIf {capacity : ℕ} {clean written : Bytes} {x : Checked Bytes}
    (hx : WritesIf (clean.length + written.length ≤ capacity) (· = written.reverse ++ clean) x)
    (bytes : Bytes) :
    WritesIf (clean.length + (written ++ bytes).length ≤ capacity)
      (· = (written ++ bytes).reverse ++ clean) (x >>= fun clean => put capacity clean bytes) := by
  refine hx.bind ?_ ?_
  · rw [List.length_append]
    omega
  · rintro - _ rfl
    refine (put_writesIf capacity _ bytes).congr ?_ ?_
    · rw [List.length_append, List.length_append, List.length_reverse]
      omega
    · rintro _ rfl
      rw [List.reverse_append, List.append_assoc]

theorem backUp_suffix (clean : Bytes) : (backUp clean).2 <:+ clean := by
  induction clean with
  | nil => exact List.suffix_rfl
  | cons b clean ih =>
      rw [backUp]
      split_ifs
      · exact ih.trans (List.suffix_cons b clean)
      · exact List.suffix_rfl
      · exact ih.trans (List.suffix_cons b clean)

theorem credsMask_writesIf (capacity : ℕ) (hasPassword : Bool) (clean : Bytes) :
    WritesIf (((credsMask hasPassword).reverse ++ clean).length ≤ capacity)
      (· = (credsMask hasPassword).reverse ++ clean)
      (do
        let clean ← put capacity clean nrProxyCredsMask
        let clean ←
          if hasPassword then do
            let clean ← put capacity clean [colon]
            put capacity clean nrProxyCredsMask
          else .ok clean
        put capacity clean [atSign]) := by
  have hmask := put_writesIf capacity clean nrProxyCredsMask
  cases hasPassword with
  | false =>
      refine (put_put_writesIf hmask [atSign]).congr ?_ ?_
      · rw [List.length_append, List.length_reverse, Nat.add_comm]
        rfl
      · rintro _ rfl
        rfl
  | true =>
      have hpassword := put_put_writesIf (put_put_writesIf hmask [colon]) nrProxyCredsMask
      have hall := put_put_writesIf hpassword [atSign]
      simp only [bind_assoc] at hall
      refine hall.congr ?_ ?_
      · rw [List.length_append, List.length_reverse, Nat.add_comm]
        rfl
      · rintro _ rfl
        rfl

/-- What a byte of the URL writes fits if the buffer holds what it has then. -/
theorem nrUrlCleanByte_writesIf (maskCreds : Bool) {capacity : ℕ} {clean : Bytes}
    (hclean : clean.length ≤ capacity) (b : UInt8) :
    WritesIf ((cleaned maskCreds clean b).length ≤ capacity) (· = cleaned maskCreds clean b)
      (nrUrlCleanByte maskCreds capacity clean b) := by
  rw [nrUrlCleanByte, cleaned]
  have hback := (backUp_suffix clean).length_le
  split_ifs with hat hmask
  · exact credsMask_writesIf capacity (backUp clean).1 (backUp clean).2
  · exact .pure (by simpa using hback.trans hclean) (by simp)
  · exact (put_writesIf capacity clean [b]).congr (by simp) (by simp)

/-- The loop writes outside of its buffer unless that holds what it has at every turn. -/
theorem nrUrlCleanLoop_writesIf (maskCreds : Bool) (capacity : ℕ) (url : Bytes) :
    WritesIf (∀ done, done <+: url → (done.foldl (cleaned maskCreds) []).length ≤ capacity)
      (· = url.foldl (cleaned maskCreds) [])
      (url.foldlM (nrUrlCleanByte maskCreds capacity) []) := by
  have hstep : ∀ (clean : Bytes) b, clean.length ≤ capacity →
      WritesIf ((cleaned maskCreds clean b).length ≤ capacity) (· = cleaned maskCreds clean b)
        (nrUrlCleanByte maskCreds capacity clean b) :=
    fun clean b hclean => nrUrlCleanByte_writesIf maskCreds hclean b
  have hnil : ([] : Bytes).length ≤ capacity := Nat.zero_le capacity
  exact WritesIf.foldlM hstep hnil url

/-- Where there is something to clean, up to `len`. -/
structure CleansUpTo (url : Bytes) (urllen : ℤ) (len : ℕ) : Prop where
  urllen_pos : 0 < urllen
  load_ne : ∃ b p, url = b :: p ∧ b ≠ 0
  span : spanUntil (nrUrlQueryChars ++ [0]) urllen.toNat url = .ok len
  len_pos : 0 < len

/-- The buffer has room for two masks more than there is to clean. -/
def cleanCapacity (len : ℕ) : ℕ := len + 2 * nrProxyCredsMask.length + 1

/-- What fits: what the loop has at every turn, and what it has in the end with a zero. -/
def CleanFits (maskCreds : Bool) (text : Bytes) : Prop :=
  (∀ done, done <+: text →
    (done.foldl (cleaned maskCreds) []).length ≤ cleanCapacity text.length) ∧
  (text.foldl (cleaned maskCreds) []).length < cleanCapacity text.length

theorem CleansUpTo.length_take {url : Bytes} {urllen : ℤ} {len : ℕ}
    (h : CleansUpTo url urllen len) : (url.take len).length = len := by
  obtain ⟨-, -, hlt⟩ := spanUntil_eq_ok h.span
  exact List.length_take_of_le hlt.le

theorem CleansUpTo.writesIf {url : Bytes} {urllen : ℤ} {len : ℕ} (h : CleansUpTo url urllen len)
    (maskCreds : Bool) :
    WritesIf (CleanFits maskCreds (url.take len))
      (· = some ((url.take len).foldl (cleaned maskCreds) []).reverse)
      (nrUrlCleanInternal (some url) urllen maskCreds) := by
  obtain ⟨b, p, rfl, hb⟩ := h.load_ne
  have hspan : nrStrncspn (b :: p) urllen (nrUrlQueryChars ++ [0]) = .ok len := by
    rw [nrStrncspn, if_neg, h.span]
    rintro (hle | hnil)
    · exact absurd h.urllen_pos (not_lt.mpr hle)
    · cases hnil
  simp only [nrUrlCleanInternal, if_neg (not_le.mpr h.urllen_pos), load_cons, ok_bind, if_neg hb,
    hspan, if_neg h.len_pos.ne']
  rw [CleanFits, h.length_take]
  refine (nrUrlCleanLoop_writesIf maskCreds _ _).bind (fun hfits => hfits.1) ?_
  rintro hloop _ rfl
  refine (put_writesIf _ _ [0]).bind (fun hfits => ?_) ?_
  · exact hfits.2
  · rintro hend _ rfl
    exact .pure ⟨hloop, hend⟩ rfl

theorem exists_cleansUpTo {url out : Bytes} {urllen : ℤ} {maskCreds : Bool}
    (h : nrUrlCleanInternal (some url) urllen maskCreds = .ok (some out)) :
    ∃ len, CleansUpTo url urllen len := by
  simp only [nrUrlCleanInternal] at h
  by_cases hpos : urllen ≤ 0
  · rw [if_pos hpos] at h
    cases h
  rw [if_neg hpos] at h
  cases url with
  | nil => cases h
  | cons b p =>
      rw [load_cons, ok_bind] at h
      by_cases hb : b = 0
      · rw [if_pos hb] at h
        cases h
      rw [if_neg hb] at h
      cases hspan : nrStrncspn (b :: p) urllen (nrUrlQueryChars ++ [0]) with
      | error e =>
          rw [hspan] at h
          cases h
      | ok len =>
          rw [hspan, ok_bind] at h
          by_cases hlen : len = 0
          · rw [if_pos hlen] at h
            cases h
          refine ⟨len, not_le.mp hpos, ⟨b, p, rfl, hb⟩, ?_, Nat.pos_of_ne_zero hlen⟩
          rw [nrStrncspn, if_neg] at hspan
          · exact hspan
          · rintro (hle | hnil)
            · exact hpos hle
            · cases hnil

/-! ### The domain -/

/-- `start`, `stop`, `after_at` and `after_colon_slash_slash`; a `stop` of -1 is none. -/
structure DomainScan where
  start : ℕ
  stop : Option ℕ
  afterAt : ℕ
  afterColonSlashSlash : ℕ
  deriving DecidableEq

/-- Whether two slashes follow, where `n` bytes are left with the colon before them. -/
def colonSlashSlash (n : ℕ) (p : Bytes) : Checked Bool :=
  if 2 < n then startsWith [slash, slash] p else .ok false

/-- The loop of `nr_url_extract_domain` over the `n` bytes that are left from `i` on: the
state at its end and where that is, or that there is no domain. -/
def nrUrlExtractLoop (n i : ℕ) (p : Bytes) (s : DomainScan) :
    Checked (Option (DomainScan × ℕ)) :=
  if n = 0 then .ok (some (s, i))
  else do
    let b ← load p
    if b = atSign then
      if s.afterAt ≠ 0 then .ok none
      else
        nrUrlExtractLoop (n - 1) (i + 1) p.tail
          { s with afterAt := i + 1, start := i + 1, stop := none }
    else if b = colon then do
      let slashes ← colonSlashSlash n p.tail
      if slashes then
        if s.afterAt ≠ 0 ∨ s.afterColonSlashSlash ≠ 0 then .ok none
        else
          nrUrlExtractLoop (n - 3) (i + 3) (p.drop 3)
            { s with afterColonSlashSlash := i + 3, start := i + 3, stop := none }
      else nrUrlExtractLoop (n - 1) (i + 1) p.tail { s with stop := s.stop.or (some i) }
    else if b = 0 ∨ b ∈ slash :: nrUrlQueryChars then .ok (some (s, i))
    else nrUrlExtractLoop (n - 1) (i + 1) p.tail s
  termination_by n
  decreasing_by all_goals omega

/-- `nr_url_extract_domain`: where the domain starts in the URL, and its length. -/
def nrUrlExtractDomain (url : Option Bytes) (urllen : ℤ) : Checked (Option (ℕ × ℕ)) :=
  match url with
  | none => .ok none
  | some url => do
      let b ← load url
      if b = 0 ∨ urllen ≤ 0 then .ok none
      else do
        let found ← nrUrlExtractLoop urllen.toNat 0 url
          { start := 0, stop := none, afterAt := 0, afterColonSlashSlash := 0 }
        match found with
        | none => .ok none
        | some (s, i) =>
            let stop := s.stop.getD i
            if urllen.toNat ≤ s.start ∨ stop ≤ s.start then .ok none
            else .ok (some (s.start, stop - s.start))

end AxiomDaemon.Util

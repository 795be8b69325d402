import AxiomDaemon.Axiom.HeaderRoundTrip

/-!
Which ids pass the check of `nr_header_validate_decoded_id`: an id starts with the
number of an account, a number that `strtoll` reads into 64 bits and of which the
search among the trusted accounts is given the lower 32.
-/

namespace AxiomDaemon.Axiom

open AxiomDaemon.Lib AxiomDaemon.Util AxiomDaemon.Util.ObjectJson

/-! ### The trusted accounts -/

/-- The accounts that the connect reply lists as trusted. -/
def trustedAccountIds (txn : CatTxn) : List ℤ :=
  match nroGetHashArray txn.appConnectReply (ascii "trusted_account_ids") with
  | some (.array elements) => elements.filterMap fun element => nroGetInt (some element)
  | _ => []

theorem nroFindArrayInt_pos_iff (elements : List NrObj) (x : ℤ) :
    0 < nroFindArrayInt (some (.array elements)) x ↔
      x ∈ elements.filterMap fun element => nroGetInt (some element) := by
  rw [List.mem_filterMap]
  simp only [nroFindArrayInt]
  split
  · next i hfind =>
      obtain ⟨hi, hint, -⟩ := List.findIdx?_eq_some_iff_getElem.mp hfind
      refine ⟨fun _ => ⟨elements[i], List.getElem_mem hi, of_decide_eq_true hint⟩, fun _ => ?_⟩
      omega
  · next hfind =>
      refine ⟨fun h => absurd h (by decide), ?_⟩
      rintro ⟨element, hmem, hint⟩
      have hnone := List.findIdx?_eq_none_iff.mp hfind element hmem
      exact absurd (decide_eq_true hint) (ne_true_of_eq_false hnone)

theorem nrTxnIsAccountTrusted_iff (txn : CatTxn) (accountId : Int32) :
    nrTxnIsAccountTrusted txn accountId = true ↔
      0 < accountId.toInt ∧ accountId.toInt ∈ trustedAccountIds txn := by
  have hpos : accountId ≤ 0 ↔ accountId.toInt ≤ 0 := Int32.le_iff_toInt_le
  simp only [nrTxnIsAccountTrusted, trustedAccountIds]
  split_ifs with hle
  · have hle := hpos.mp hle
    refine ⟨fun h => absurd h (by decide), ?_⟩
    rintro ⟨h, -⟩
    omega
  · have hlt : 0 < accountId.toInt := by
      rw [hpos] at hle
      omega
    rw [decide_eq_true_eq]
    cases nroGetHashArray txn.appConnectReply (ascii "trusted_account_ids") with
    | none => simp [nroFindArrayInt]
    | some array =>
        cases array
        case array elements => rw [nroFindArrayInt_pos_iff, and_iff_right hlt]
        all_goals simp [nroFindArrayInt]

/-! ### Reading an id -/

/-- `#`. -/
def numberSign : UInt8 := 0x23

theorem endsDigits_numberSign (rest : Bytes) : EndsDigits 10 (numberSign :: rest) :=
  (endsNumber_cons (by decide) rest).endsDigits 10

theorem takeWhile_numberSign {text : Bytes} (h : numberSign ∉ text) (rest : Bytes) :
    (text ++ numberSign :: rest).takeWhile (· ≠ numberSign) = text := by
  have hall : ∀ b ∈ text, decide (b ≠ numberSign) = true := by
    intro b hb
    exact decide_eq_true fun hsign => h (hsign ▸ hb)
  rw [List.takeWhile_append_of_pos hall]
  simp

theorem numberSign_notMem_of_denotes {text : Bytes} {n : ℤ} (h : Denotes text n) :
    numberSign ∉ text := by
  intro hmem
  exact absurd (h.mem _ hmem) (by decide)

/-- The first `#` parts an id. -/
theorem eq_takeWhile_numberSign {id : Bytes} (h : numberSign ∈ id) :
    ∃ rest, id = id.takeWhile (· ≠ numberSign) ++ numberSign :: rest := by
  obtain ⟨text, rest, rfl, htext⟩ := List.eq_append_cons_of_mem h
  exact ⟨rest, by rw [takeWhile_numberSign htext]⟩

/-- The number before the `#` is the one that is read. -/
theorem strtollDecimal_of_denotes {id : Bytes} {n : ℤ} (hsign : numberSign ∈ id)
    (h : Denotes (id.takeWhile (· ≠ numberSign)) n) :
    ∃ rest, strtollDecimal id = (clampLong n, numberSign :: rest) := by
  obtain ⟨rest, hid⟩ := eq_takeWhile_numberSign hsign
  have hread := h.strtollDecimal_eq (endsDigits_numberSign rest)
  rw [← hid] at hread
  exact ⟨rest, hread⟩

/-- Where reading stops at a `#`, nothing was read or all that stands before it. -/
theorem denotes_of_strtollDecimal {id : Bytes}
    (h : (strtollDecimal id).2.head? = some numberSign) :
    (strtollDecimal id).1 = 0 ∨
      numberSign ∈ id ∧ ∃ n, Denotes (id.takeWhile (· ≠ numberSign)) n ∧
        (strtollDecimal id).1 = clampLong n := by
  rcases strtollDecimal_eq id with hread | ⟨text, n, rest, rfl, hdenotes, hread⟩
  · exact Or.inl (by rw [hread])
  · right
    rw [hread] at h
    obtain ⟨tail, rfl⟩ := List.head?_eq_some_iff.mp h
    refine ⟨by simp, n, ?_, by rw [hread]⟩
    rwa [takeWhile_numberSign (numberSign_notMem_of_denotes hdenotes)]

theorem nrHeaderAccountId_cases (id : Bytes) :
    nrHeaderAccountIdFromCrossProcessId (some id) = -1 ∨
      (strtollDecimal id).2.head? = some numberSign ∧ (strtollDecimal id).1 < 2 ^ 31 - 1 ∧
        nrHeaderAccountIdFromCrossProcessId (some id) = (strtollDecimal id).1 := by
  simp only [nrHeaderAccountIdFromCrossProcessId]
  split_ifs with hhead hmax
  · exact Or.inl rfl
  · exact Or.inl rfl
  · exact Or.inr ⟨not_not.mp hhead, by omega, rfl⟩

/-! ### The check -/

/-- The text before the `#` denotes a trusted account. -/
def DenotesTrusted (txn : CatTxn) (id : Bytes) : Prop :=
  numberSign ∈ id ∧ ∃ n ∈ trustedAccountIds txn, Denotes (id.takeWhile (· ≠ numberSign)) n

/-- The text before the `#` denotes a number of 64 bits below zero that has the lower 32
bits of a trusted account. -/
def AliasesTrusted (txn : CatTxn) (id : Bytes) : Prop :=
  id.length < nrCrossProcessIdLengthMax ∧ numberSign ∈ id ∧
    ∃ n, Denotes (id.takeWhile (· ≠ numberSign)) n ∧ -2 ^ 63 ≤ n ∧ n < 0 ∧
      ∃ account ∈ trustedAccountIds txn, 0 < account ∧ account < 2 ^ 31 ∧ 2 ^ 32 ∣ account - n

/-- What passes: a number that is not too great and of which the lower 32 bits are trusted. -/
theorem nrHeaderValidateDecodedId_iff (txn : CatTxn) (id : Bytes) :
    nrHeaderValidateDecodedId txn (some id) = .success ↔
      id.length < nrCrossProcessIdLengthMax ∧ numberSign ∈ id ∧
        ∃ n, Denotes (id.takeWhile (· ≠ numberSign)) n ∧ clampLong n < 2 ^ 31 - 1 ∧
          0 < (clampLong n).bmod (2 ^ 32) ∧
          (clampLong n).bmod (2 ^ 32) ∈ trustedAccountIds txn := by
  have htrusted : ∀ i : ℤ, nrTxnIsAccountTrusted txn (Int32.ofInt i) = true ↔
      0 < i.bmod (2 ^ 32) ∧ i.bmod (2 ^ 32) ∈ trustedAccountIds txn := by
    intro i
    rw [nrTxnIsAccountTrusted_iff, Int32.toInt_ofInt]
    rfl
  simp only [nrHeaderValidateDecodedId]
  constructor
  · intro h
    split_ifs at h with hlength hminus htrust
    rw [htrusted] at htrust
    obtain ⟨hhead, hmax, hid⟩ := (nrHeaderAccountId_cases id).resolve_left hminus
    rw [hid] at htrust
    rcases denotes_of_strtollDecimal hhead with hzero | ⟨hsign, n, hdenotes, hread⟩
    · rw [hzero] at htrust
      exact absurd htrust.1 (by decide)
    · rw [hread] at hmax htrust
      exact ⟨by omega, hsign, n, hdenotes, hmax, htrust⟩
  · rintro ⟨hlength, hsign, n, hdenotes, hmax, htrust⟩
    obtain ⟨rest, hread⟩ := strtollDecimal_of_denotes hsign hdenotes
    have hid : nrHeaderAccountIdFromCrossProcessId (some id) = clampLong n := by
      simp only [nrHeaderAccountIdFromCrossProcessId, hread, List.head?_cons, numberSign]
      rw [if_neg (by simp), if_neg (by omega)]
    have hne : clampLong n ≠ -1 := by
      intro heq
      rw [heq] at htrust
      exact absurd htrust.1 (by decide)
    rw [if_neg (by omega), hid, if_neg hne, if_pos ((htrusted _).mpr htrust)]

/-- The 32 bits that the search is given, of a number that passes the check of its range. -/
theorem bmod_clampLong_of_nonneg {n : ℤ} (hn : 0 ≤ n) (h : clampLong n < 2 ^ 31 - 1) :
    (clampLong n).bmod (2 ^ 32) = n := by
  rw [clampLong] at h ⊢
  have heq : max (-2 ^ 63) (min n (2 ^ 63 - 1)) = n := by omega
  rw [heq, Int.bmod_eq_of_le (by omega) (by omega)]

/-- An id that passes is one of a trusted account if and only if it is none below zero that
has the lower 32 bits of one. -/
theorem validated_denotesTrusted_iff (txn : CatTxn) (id : Bytes)
    (hpositive : ∀ account ∈ trustedAccountIds txn, 0 < account) :
    (nrHeaderValidateDecodedId txn (some id) = .success → DenotesTrusted txn id) ↔
      ¬AliasesTrusted txn id := by
  rw [nrHeaderValidateDecodedId_iff]
  constructor
  · rintro h ⟨hlength, hsign, n, hdenotes, hlo, hneg, account, hmem, hpos, hhi, hdvd⟩
    have hclamp : clampLong n = n := clampLong_of_mem hlo (by omega)
    have hbmod : n.bmod (2 ^ 32) = account := by
      obtain ⟨k, hk⟩ := hdvd
      rw [show n = account + (2 ^ 32 : ℕ) * (-k) by push_cast; linarith, Int.add_mul_bmod_self_left]
      exact Int.bmod_eq_of_le (by omega) (by omega)
    obtain ⟨-, n', hmem', hdenotes'⟩ := h ⟨hlength, hsign, n, hdenotes, by omega,
      by rw [hclamp, hbmod]; exact hpos, by rw [hclamp, hbmod]; exact hmem⟩
    -- the text denotes no two numbers on either side of zero
    obtain ⟨rest, hread⟩ := strtollDecimal_of_denotes hsign hdenotes
    obtain ⟨rest', hread'⟩ := strtollDecimal_of_denotes hsign hdenotes'
    have heq : clampLong n = clampLong n' := by
      rw [hread] at hread'
      exact (Prod.mk.inj hread').1
    have hpos' := hpositive n' hmem'
    rw [hclamp, clampLong] at heq
    omega
  · rintro halias ⟨hlength, hsign, n, hdenotes, hmax, hpos, hmem⟩
    rcases lt_or_ge n 0 with hneg | hn
    · exfalso
      rcases lt_or_ge n (-2 ^ 63) with hlow | hlo
      · have hclamp : clampLong n = -2 ^ 63 := by
          rw [clampLong]
          omega
        rw [hclamp] at hpos
        exact absurd hpos (by decide)
      · have hclamp : clampLong n = n := clampLong_of_mem hlo (by omega)
        rw [hclamp] at hpos hmem
        have hlt : n.bmod (2 ^ 32) < 2 ^ 31 := by
          have := Int.bmod_lt (x := n) (m := 2 ^ 32) (by decide)
          omega
        refine halias ⟨hlength, hsign, n, hdenotes, hlo, hneg, _, hmem, hpos, hlt, ?_⟩
        exact Int.dvd_bmod_sub_self
    · rw [bmod_clampLong_of_nonneg hn hmax] at hmem
      exact ⟨hsign, n, hmem, hdenotes⟩

/-- A number far below zero passes for account 12. -/
theorem calledTxn_validates_alias :
    trustedAccountIds calledTxn = [12] ∧
      nrHeaderValidateDecodedId calledTxn (some (ascii "-4294967284#1")) = .success ∧
      ¬DenotesTrusted calledTxn (ascii "-4294967284#1") := by
  refine ⟨rfl, by decide, ?_⟩
  rintro ⟨hsign, n, hmem, hdenotes⟩
  obtain ⟨rest, hread⟩ := strtollDecimal_of_denotes hsign hdenotes
  obtain rfl : n = 12 := List.mem_singleton.mp hmem
  exact absurd (Prod.mk.inj hread).1 (by decide)

theorem calledTxn_validated_denotesTrusted :
    nrHeaderValidateDecodedId calledTxn (some (ascii "12#34")) = .success ∧
      DenotesTrusted calledTxn (ascii "12#34") := by
  have hsuccess : nrHeaderValidateDecodedId calledTxn (some (ascii "12#34")) = .success := by
    decide
  refine ⟨hsuccess, (validated_denotesTrusted_iff calledTxn (ascii "12#34") (by decide)).mpr ?_
    hsuccess⟩
  rintro ⟨-, hsign, n, hdenotes, -, hneg, -⟩
  obtain ⟨rest, hread⟩ := strtollDecimal_of_denotes hsign hdenotes
  have hclamp : (12 : ℤ) = clampLong n := (Prod.mk.inj hread).1
  rw [clampLong] at hclamp
  omega

end AxiomDaemon.Axiom

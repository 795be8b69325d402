import Mathlib.Data.Finset.Card
import Mathlib.Data.Set.Insert
import Mathlib.Order.Lattice
import Mathlib.Data.List.Perm.Basic
import Mathlib.Data.List.Perm.Lattice

/-!
Tables that keep the entries of greatest size, one for each key. Additions
under a key that is present are merged; in a full table a new key takes the
place of an entry of least size, unless its own size is less. Which of two
equal sizes wins is left open, so that implementations with different rules
are instances.

`TopOf` says what such a table is to all the additions it has seen, those it
forgot included. It holds of two tables in a row: a table that is filled from
others, each of them no smaller than itself, keeps the entries of greatest
size of everything that was added to any of them.
-/

namespace AxiomDaemon.Lib

variable {ε κ ν : Type*} [LinearOrder ν]

section

variable (key : ε → κ) (size : ε → ν)

/-- The table `T` keeps the greatest of the additions `H`, up to `k` of them. -/
structure TopOf (k : ℕ) (H : Set (κ × ν)) (T : List ε) : Prop where
  nodup : (T.map key).Nodup
  length_le : T.length ≤ k
  attained : ∀ e ∈ T, (key e, size e) ∈ H
  greatest : ∀ e ∈ T, ∀ v, (key e, v) ∈ H → v ≤ size e
  forgotten : ∀ i v, (i, v) ∈ H → i ∉ T.map key → T.length = k ∧ ∀ e ∈ T, v ≤ size e

/-- What an addition may do to a table. -/
inductive Adds (merge : ε → ε → ε) (k : ℕ) (T : List ε) (x : ε) (T' : List ε) : Prop
  | merged {e : ε} {rest : List ε} (hT : T.Perm (e :: rest)) (hkey : key e = key x)
      (hT' : T'.Perm (merge e x :: rest))
  | kept (hnew : key x ∉ T.map key) (hroom : T.length < k) (hT' : T'.Perm (x :: T))
  | replaced {e : ε} {rest : List ε} (hnew : key x ∉ T.map key) (hfull : T.length = k)
      (hT : T.Perm (e :: rest)) (hleast : ∀ e' ∈ T, size e ≤ size e') (hle : size e ≤ size x)
      (hT' : T'.Perm (x :: rest))
  | refused (hnew : key x ∉ T.map key) (hfull : T.length = k) (hle : ∀ e ∈ T, size x ≤ size e)
      (hT' : T' = T)

end

section

variable {key : ε → κ} {size : ε → ν} {merge : ε → ε → ε} {k : ℕ} {H : Set (κ × ν)}
  {T T' : List ε}

theorem TopOf.empty (k : ℕ) : TopOf key size k ∅ [] where
  nodup := List.nodup_nil
  length_le := Nat.zero_le k
  attained _ he := absurd he List.not_mem_nil
  greatest _ he := absurd he List.not_mem_nil
  forgotten _ _ h := absurd h (Set.notMem_empty _)

theorem TopOf.perm (h : TopOf key size k H T) (hT : T.Perm T') : TopOf key size k H T' where
  nodup := (hT.map key).nodup_iff.mp h.nodup
  length_le := hT.length_eq ▸ h.length_le
  attained e he := h.attained e (hT.mem_iff.mpr he)
  greatest e he := h.greatest e (hT.mem_iff.mpr he)
  forgotten i v hmem hnot := by
    obtain ⟨hlen, hle⟩ := h.forgotten i v hmem (mt (hT.map key).mem_iff.mp hnot)
    exact ⟨hT.length_eq ▸ hlen, fun e he => hle e (hT.mem_iff.mpr he)⟩

theorem Adds.mem {x : ε} (h : Adds key size merge k T x T') {e : ε} (he : e ∈ T') :
    e ∈ T ∨ e = x ∨ ∃ e₀ ∈ T, key e₀ = key x ∧ e = merge e₀ x := by
  cases h with
  | @merged e₀ rest hT hkey hT' =>
      rcases List.mem_cons.mp (hT'.mem_iff.mp he) with rfl | hrest
      · exact Or.inr (Or.inr ⟨e₀, hT.mem_iff.mpr List.mem_cons_self, hkey, rfl⟩)
      · exact Or.inl (hT.mem_iff.mpr (List.mem_cons_of_mem _ hrest))
  | kept _ _ hT' =>
      rcases List.mem_cons.mp (hT'.mem_iff.mp he) with rfl | hrest
      · exact Or.inr (Or.inl rfl)
      · exact Or.inl hrest
  | replaced _ _ hT _ _ hT' =>
      rcases List.mem_cons.mp (hT'.mem_iff.mp he) with rfl | hrest
      · exact Or.inr (Or.inl rfl)
      · exact Or.inl (hT.mem_iff.mpr (List.mem_cons_of_mem _ hrest))
  | refused _ _ _ hT' => exact Or.inl (hT' ▸ he)

theorem TopOf.merged (hkeys : ∀ e x, key (merge e x) = key e)
    (hsizes : ∀ e x, size (merge e x) = max (size e) (size x)) {e x : ε} {rest : List ε}
    (h : TopOf key size k H (e :: rest)) (hkey : key e = key x) :
    TopOf key size k (insert (key x, size x) H) (merge e x :: rest) := by
  have hmapped : (merge e x :: rest).map key = (e :: rest).map key := by simp [hkeys]
  obtain ⟨hhead, -⟩ := List.nodup_cons.mp h.nodup
  -- what is known of the other entries
  have hother : ∀ e' ∈ rest, key e' ≠ key x := fun e' he' heq =>
    hhead (by rw [hkey, ← heq]; exact List.mem_map_of_mem he')
  refine ⟨hmapped ▸ h.nodup, h.length_le, ?_, ?_, ?_⟩
  · rintro e' he'
    rcases List.mem_cons.mp he' with rfl | hrest
    · rw [hkeys, hsizes]
      rcases max_choice (size e) (size x) with hmax | hmax
      · rw [hmax]
        exact Or.inr (h.attained e List.mem_cons_self)
      · exact Or.inl (by rw [hmax, hkey])
    · exact Or.inr (h.attained e' (List.mem_cons_of_mem _ hrest))
  · rintro e' he' v hv
    rcases List.mem_cons.mp he' with rfl | hrest
    · rw [hkeys] at hv
      rw [hsizes]
      rcases hv with hnew | hold
      · rw [(Prod.mk.inj hnew).2]
        exact le_max_right _ _
      · exact (h.greatest e List.mem_cons_self v hold).trans (le_max_left _ _)
    · rcases hv with hnew | hold
      · exact absurd (Prod.mk.inj hnew).1 (hother e' hrest)
      · exact h.greatest e' (List.mem_cons_of_mem _ hrest) v hold
  · rintro i v hv hnot
    rw [hmapped] at hnot
    rcases hv with hnew | hold
    · refine absurd ?_ hnot
      rw [(Prod.mk.inj hnew).1, ← hkey]
      exact List.mem_map_of_mem List.mem_cons_self
    · obtain ⟨hlen, hle⟩ := h.forgotten i v hold hnot
      refine ⟨hlen, fun e' he' => ?_⟩
      rcases List.mem_cons.mp he' with rfl | hrest
      · rw [hsizes]
        exact (hle e List.mem_cons_self).trans (le_max_left _ _)
      · exact hle e' (List.mem_cons_of_mem _ hrest)

/-- A new key under which nothing greater than `x` was forgotten. -/
theorem TopOf.cons {x : ε} {rest : List ε} (hsub : (rest.map key).Nodup) (hlen : rest.length < k)
    (hnew : key x ∉ rest.map key)
    (hattained : ∀ e ∈ rest, (key e, size e) ∈ H)
    (hgreatest : ∀ e ∈ rest, ∀ v, (key e, v) ∈ H → v ≤ size e)
    (hsame : ∀ v, (key x, v) ∈ H → v ≤ size x)
    (hforgotten : ∀ i v, (i, v) ∈ H → i ∉ (x :: rest).map key →
      rest.length + 1 = k ∧ v ≤ size x ∧ ∀ e ∈ rest, v ≤ size e) :
    TopOf key size k (insert (key x, size x) H) (x :: rest) := by
  refine ⟨List.nodup_cons.mpr ⟨hnew, hsub⟩, hlen, ?_, ?_, ?_⟩
  · rintro e he
    rcases List.mem_cons.mp he with rfl | hrest
    · exact Or.inl rfl
    · exact Or.inr (hattained e hrest)
  · rintro e he v hv
    rcases List.mem_cons.mp he with rfl | hrest
    · rcases hv with hx | hold
      · exact ((Prod.mk.inj hx).2).le
      · exact hsame v hold
    · rcases hv with hx | hold
      · refine absurd ?_ hnew
        rw [← (Prod.mk.inj hx).1]
        exact List.mem_map_of_mem hrest
      · exact hgreatest e hrest v hold
  · rintro i v hv hnot
    rcases hv with hx | hold
    · refine absurd ?_ hnot
      rw [(Prod.mk.inj hx).1]
      exact List.mem_map_of_mem List.mem_cons_self
    · obtain ⟨hfull, hle, hrest⟩ := hforgotten i v hold hnot
      refine ⟨hfull, fun e he => ?_⟩
      rcases List.mem_cons.mp he with rfl | he'
      · exact hle
      · exact hrest e he'

/-- Every addition keeps the property, whichever way it is done. -/
theorem TopOf.adds (hkeys : ∀ e x, key (merge e x) = key e)
    (hsizes : ∀ e x, size (merge e x) = max (size e) (size x)) {x : ε}
    (h : TopOf key size k H T) (hadd : Adds key size merge k T x T') :
    TopOf key size k (insert (key x, size x) H) T' := by
  cases hadd with
  | merged hT hkey hT' => exact ((h.perm hT).merged hkeys hsizes hkey).perm hT'.symm
  | kept hnew hroom hT' =>
      -- with room in the table nothing has been forgotten
      have hall : ∀ i v, (i, v) ∈ H → i ∈ T.map key := by
        intro i v hv
        by_contra hnot
        exact absurd (h.forgotten i v hv hnot).1 (by omega)
      refine (TopOf.cons h.nodup hroom hnew h.attained h.greatest ?_ ?_).perm hT'.symm
      · exact fun v hv => absurd (hall _ v hv) hnew
      · exact fun i v hv hnot => absurd (List.mem_cons_of_mem _ (hall i v hv)) hnot
  | @replaced e rest hnew hfull hT hleast hle hT' =>
      have hT_mem : ∀ e' ∈ rest, e' ∈ T := fun e' he' =>
        hT.mem_iff.mpr (List.mem_cons_of_mem _ he')
      have heT : e ∈ T := hT.mem_iff.mpr List.mem_cons_self
      have hlen : rest.length + 1 = k := by
        rw [← hfull, hT.length_eq, List.length_cons]
      have hnodup := (h.perm hT).nodup
      have hnewRest : key x ∉ rest.map key := fun hmem =>
        hnew ((hT.map key).mem_iff.mpr (List.mem_cons_of_mem _ hmem))
      refine (TopOf.cons (List.nodup_cons.mp hnodup).2 (by omega) hnewRest
        (fun e' he' => h.attained e' (hT_mem e' he'))
        (fun e' he' => h.greatest e' (hT_mem e' he')) ?_ ?_).perm hT'.symm
      · exact fun v hv => ((h.forgotten _ v hv hnew).2 e heT).trans hle
      · intro i v hv hnot
        have hle_e : v ≤ size e := by
          by_cases hin : i ∈ T.map key
          · rcases List.mem_cons.mp ((hT.map key).mem_iff.mp hin) with hie | hrest
            · exact h.greatest e heT v (hie ▸ hv)
            · exact absurd (List.mem_cons_of_mem _ hrest) hnot
          · exact (h.forgotten i v hv hin).2 e heT
        exact ⟨hlen, hle_e.trans hle, fun e' he' => hle_e.trans (hleast e' (hT_mem e' he'))⟩
  | refused hnew hfull hle hT' =>
      subst hT'
      refine ⟨h.nodup, h.length_le, fun e he => Or.inr (h.attained e he), fun e he v hv => ?_,
        fun i v hv hnot => ?_⟩
      · rcases hv with hx | hold
        · refine absurd ?_ hnew
          rw [← (Prod.mk.inj hx).1]
          exact List.mem_map_of_mem he
        · exact h.greatest e he v hold
      · rcases hv with hx | hold
        · rw [(Prod.mk.inj hx).2]
          exact ⟨hfull, hle⟩
        · exact h.forgotten i v hold hnot

end

/-! ### Two tables in a row -/

section

variable {ε' : Type*} {key : ε → κ} {size : ε → ν} {key' : ε' → κ} {size' : ε' → ν} {k k' : ℕ}
  {H H' : Set (κ × ν)} {T : List ε} {T' : List ε'}

/-- What one table hands to the other. -/
def entriesOf (key' : ε' → κ) (size' : ε' → ν) (T' : List ε') : Set (κ × ν) :=
  {p | ∃ e ∈ T', (key' e, size' e) = p}

/-- An addition that the first table forgot would not have changed the second
one: either that lacks one of the many entries it was offered, or it has
nothing else. -/
theorem TopOf.forgotten_before (hT' : TopOf key' size' k' H' T') (hk : k ≤ k')
    (hT : TopOf key size k (H ∪ entriesOf key' size' T') T) {i : κ} {v : ν} (hv : (i, v) ∈ H')
    (hnot : i ∉ T'.map key') : T.length = k ∧ ∀ e ∈ T, v ≤ size e := by
  obtain ⟨hlen, hle⟩ := hT'.forgotten i v hv hnot
  by_cases hall : T'.map key' ⊆ T.map key
  · have hsub : (T'.map key').Subperm (T.map key) := List.subperm_of_subset hT'.nodup hall
    have hcount := hsub.length_le
    rw [List.length_map, List.length_map] at hcount
    have hfull := hT.length_le
    have hperm : (T'.map key').Perm (T.map key) := by
      refine hsub.perm_of_length_le ?_
      rw [List.length_map, List.length_map]
      omega
    refine ⟨by omega, fun e he => ?_⟩
    obtain ⟨e', he', hkey⟩ := List.mem_map.mp (hperm.mem_iff.mpr (List.mem_map_of_mem he))
    exact (hle e' he').trans (hT.greatest e he _ (Or.inr ⟨e', he', by rw [hkey]⟩))
  · obtain ⟨i', hi', hout⟩ : ∃ i' ∈ T'.map key', i' ∉ T.map key := by
      simpa [List.subset_def] using hall
    obtain ⟨e', he', rfl⟩ := List.mem_map.mp hi'
    obtain ⟨hfull, hle'⟩ := hT.forgotten _ (size' e') (Or.inr ⟨e', he', rfl⟩) hout
    exact ⟨hfull, fun e he => (hle e' he').trans (hle' e he)⟩

/-- A table that was handed all entries of another, no smaller one keeps the
greatest of what was added to that. -/
theorem TopOf.compose (hT' : TopOf key' size' k' H' T') (hk : k ≤ k')
    (hT : TopOf key size k (H ∪ entriesOf key' size' T') T) :
    TopOf key size k (H ∪ H') T := by
  refine ⟨hT.nodup, hT.length_le, fun e he => ?_, fun e he v hv => ?_, fun i v hv hnot => ?_⟩
  · rcases hT.attained e he with hold | ⟨e', he', heq⟩
    · exact Or.inl hold
    · exact Or.inr (heq ▸ hT'.attained e' he')
  · rcases hv with hold | hnew
    · exact hT.greatest e he v (Or.inl hold)
    · by_cases hin : key e ∈ T'.map key'
      · obtain ⟨e', he', hkey⟩ := List.mem_map.mp hin
        have hle := hT'.greatest e' he' v (hkey ▸ hnew)
        exact hle.trans (hT.greatest e he _ (Or.inr ⟨e', he', by rw [hkey]⟩))
      · exact (hT'.forgotten_before hk hT hnew hin).2 e he
  · rcases hv with hold | hnew
    · exact hT.forgotten i v (Or.inl hold) hnot
    · by_cases hin : i ∈ T'.map key'
      · obtain ⟨e', he', rfl⟩ := List.mem_map.mp hin
        obtain ⟨hfull, hle⟩ := hT.forgotten _ (size' e') (Or.inr ⟨e', he', rfl⟩) hnot
        exact ⟨hfull, fun e he => (hT'.greatest e' he' v hnew).trans (hle e he)⟩
      · exact hT'.forgotten_before hk hT hnew hin

end

/-! ### Loops over a table -/

/-- Merge into the first entry with the key, if there is one. -/
def mergeFirst (same : ε → Bool) (f : ε → ε) : List ε → Option (List ε)
  | [] => none
  | e :: rest => if same e then some (f e :: rest) else (mergeFirst same f rest).map (e :: ·)

theorem mergeFirst_eq_none {same : ε → Bool} {f : ε → ε} {T : List ε} :
    mergeFirst same f T = none ↔ ∀ e ∈ T, same e = false := by
  induction T with
  | nil => simp [mergeFirst]
  | cons e rest ih =>
      rw [mergeFirst]
      split_ifs with he
      · simp [he]
      · simp [he, ih]

theorem mergeFirst_eq_some {same : ε → Bool} {f : ε → ε} {T T' : List ε}
    (h : mergeFirst same f T = some T') :
    ∃ e rest, same e = true ∧ T.Perm (e :: rest) ∧ T'.Perm (f e :: rest) := by
  induction T generalizing T' with
  | nil => cases h
  | cons e rest ih =>
      rw [mergeFirst] at h
      split_ifs at h with he
      · cases h
        exact ⟨e, rest, he, List.Perm.refl _, List.Perm.refl _⟩
      · obtain ⟨T₁, hT₁, rfl⟩ := Option.map_eq_some_iff.mp h
        obtain ⟨e₁, rest₁, he₁, hperm, hperm'⟩ := ih hT₁
        exact ⟨e₁, e :: rest₁, he₁, (hperm.cons e).trans (List.Perm.swap _ _ _),
          (hperm'.cons e).trans (List.Perm.swap _ _ _)⟩

section

variable {σ : Type*} (size : ε → σ) (less : σ → σ → Bool)

/-- The position and the size of the first entry of least size. -/
def scanLeast : List ε → ℕ → ℕ → σ → ℕ × σ
  | [], _, leastIdx, least => (leastIdx, least)
  | e :: rest, idx, leastIdx, least =>
      if less (size e) least then scanLeast rest (idx + 1) idx (size e)
      else scanLeast rest (idx + 1) leastIdx least

variable {size less}

theorem scanLeast_spec {rank : σ → ν} (hless : ∀ a b, less a b = true ↔ rank a < rank b)
    {seen rest : List ε} {leastIdx : ℕ} {e : ε} (he : seen[leastIdx]? = some e)
    (hle : ∀ e' ∈ seen, rank (size e) ≤ rank (size e')) :
    ∃ e₁, (seen ++ rest)[(scanLeast size less rest seen.length leastIdx (size e)).1]? = some e₁ ∧
      (scanLeast size less rest seen.length leastIdx (size e)).2 = size e₁ ∧
      ∀ e' ∈ seen ++ rest, rank (size e₁) ≤ rank (size e') := by
  induction rest generalizing seen leastIdx e with
  | nil =>
      rw [List.append_nil]
      exact ⟨e, he, rfl, hle⟩
  | cons x rest ih =>
      have hlen : (seen ++ [x]).length = seen.length + 1 := by simp
      rw [scanLeast, ← List.singleton_append, ← List.append_assoc, ← hlen]
      split_ifs with hx
      · refine ih (by simp) fun e' he' => ?_
        have hxe := (hless _ _).mp hx
        rcases List.mem_append.mp he' with hseen | hself
        · exact hxe.le.trans (hle e' hseen)
        · rw [List.mem_singleton.mp hself]
      · refine ih ?_ fun e' he' => ?_
        · rw [List.getElem?_append_left (List.getElem?_eq_some_iff.mp he).1]
          exact he
        · rcases List.mem_append.mp he' with hseen | hself
          · exact hle e' hseen
          · rw [List.mem_singleton.mp hself]
            exact not_lt.mp (mt (hless _ _).mpr hx)

theorem scanLeast_cons (size : ε → σ) {rank : σ → ν}
    (hless : ∀ a b, less a b = true ↔ rank a < rank b) (e : ε)
    (rest : List ε) :
    ∃ e₁, (e :: rest)[(scanLeast size less rest 1 0 (size e)).1]? = some e₁ ∧
      (scanLeast size less rest 1 0 (size e)).2 = size e₁ ∧
      ∀ e' ∈ e :: rest, rank (size e₁) ≤ rank (size e') := by
  have hseen : ∀ e' ∈ [e], rank (size e) ≤ rank (size e') := fun e' he' => by
    rw [List.mem_singleton.mp he']
  exact scanLeast_spec hless (show [e][0]? = some e from rfl) hseen

end

theorem perm_set_of_getElem? {T : List ε} {i : ℕ} {e : ε} (he : T[i]? = some e) :
    ∃ rest, T.Perm (e :: rest) ∧ ∀ x, (T.set i x).Perm (x :: rest) := by
  obtain ⟨hi, hget⟩ := List.getElem?_eq_some_iff.mp he
  refine ⟨T.eraseIdx i, ?_, fun x => List.set_perm_cons_eraseIdx hi x⟩
  rw [← hget]
  exact (List.getElem_cons_eraseIdx_perm hi).symm

end AxiomDaemon.Lib

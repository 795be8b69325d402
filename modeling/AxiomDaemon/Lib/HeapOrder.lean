import Mathlib.Data.Multiset.AddSub
import Mathlib.Order.WithBot
import AxiomDaemon.Lib.BinaryHeap
import AxiomDaemon.Lib.MinmaxOrder

/-!
The order of the binary heap on a list. Positions count from 0 and the one
above `c` is `(c - 1) / 2`. In a heap no position has a key less than the one
above it, so that the first element is a least one.

Sifting repairs a heap in which one element may be out of order. Sifting down,
only the children of that element may come before it; sifting up, only the
element may come before the one above it. In both cases its children are in
order with the element above it, so that an exchange keeps the form of the
heap and moves the fault by one level.
-/

namespace AxiomDaemon.Lib

/-! ### Keys by position -/

/-- The position above another one. -/
def parentOf (c : ℕ) : ℕ := (c - 1) / 2

theorem parentOf_lt {c : ℕ} (h : 0 < c) : parentOf c < c := by
  rw [parentOf]
  omega

theorem parentOf_eq_iff {c i : ℕ} (h : 0 < c) : parentOf c = i ↔ c = 2 * i + 1 ∨ c = 2 * i + 2 := by
  rw [parentOf]
  omega

section Keys

variable {β : Type*} [LinearOrder β]

/-- Of the first `n` positions, those from `s` on do not come after their children. -/
def OrderedFrom (key : ℕ → β) (n s : ℕ) : Prop :=
  ∀ c, 0 < c → c < n → s ≤ parentOf c → key (parentOf c) ≤ key c

/-- Only the children of `i` may come before the element above them. -/
structure SinksAt (key : ℕ → β) (n s i : ℕ) : Prop where
  start : s ≤ i
  others : ∀ c, 0 < c → c < n → s ≤ parentOf c → parentOf c ≠ i → key (parentOf c) ≤ key c
  below : 0 < i → s ≤ parentOf i → ∀ c, 0 < c → c < n → parentOf c = i →
    key (parentOf i) ≤ key c

/-- Only the element at `j` may come before the one above it. -/
structure RisesAt (key : ℕ → β) (n j : ℕ) : Prop where
  others : ∀ c, 0 < c → c < n → c ≠ j → key (parentOf c) ≤ key c
  below : 0 < j → ∀ c, 0 < c → c < n → parentOf c = j → key (parentOf j) ≤ key c

variable {key : ℕ → β} {n s : ℕ}

theorem OrderedFrom.first_le (h : OrderedFrom key n 0) {c : ℕ} (hc : c < n) : key 0 ≤ key c := by
  induction c using Nat.strong_induction_on with
  | _ c ih =>
      rcases Nat.eq_zero_or_pos c with rfl | hpos
      · exact le_rfl
      · have hlt : parentOf c < c := parentOf_lt hpos
        have hparent : key 0 ≤ key (parentOf c) := ih (parentOf c) hlt (hlt.trans hc)
        exact hparent.trans (h c hpos hc (Nat.zero_le _))

/-- The position before `s` may be put in order by sifting it down. -/
theorem OrderedFrom.sinksAt (h : OrderedFrom key n (s + 1)) : SinksAt key n s s where
  start := le_rfl
  others := by
    intro c hpos hc hs hne
    exact h c hpos hc (by omega)
  below := by
    intro hpos hs
    have hlt := parentOf_lt hpos
    omega

theorem SinksAt.orderedFrom {i : ℕ} (h : SinksAt key n s i)
    (hdone : ∀ c, 0 < c → c < n → parentOf c = i → key i ≤ key c) : OrderedFrom key n s := by
  intro c hpos hc hs
  rcases eq_or_ne (parentOf c) i with hi | hi
  · rw [hi]
    exact hdone c hpos hc hi
  · exact h.others c hpos hc hs hi

/-- Exchanged with a least child, the element is one level further down. -/
theorem SinksAt.exchange {i j : ℕ} (h : SinksAt key n s i) (hj0 : 0 < j) (hjn : j < n)
    (hji : parentOf j = i) (hless : key j < key i)
    (hleast : ∀ c, 0 < c → c < n → parentOf c = i → key j ≤ key c) :
    SinksAt (exchange key i j) n s j where
  start := by
    have hlt := parentOf_lt hj0
    have hs := h.start
    omega
  others := by
    intro c hpos hc hs hne
    rcases eq_or_ne (parentOf c) i with hi | hi
    · rw [hi, exchange_left]
      rcases eq_or_ne c j with rfl | hcj
      · rw [exchange_right]
        exact hless.le
      · have hci : c ≠ i := by
          rw [← hi]
          exact (parentOf_lt hpos).ne'
        rw [exchange_other key hci hcj]
        exact hleast c hpos hc hi
    · rw [exchange_other key hi hne]
      have hcj : c ≠ j := by
        rintro rfl
        exact hi hji
      rcases eq_or_ne c i with rfl | hci
      · rw [exchange_left]
        exact h.below hpos hs j hj0 hjn hji
      · rw [exchange_other key hci hcj]
        exact h.others c hpos hc hs hi
  below := by
    intro _ _ c hpos hc hcj
    have hij : i < j := hji ▸ parentOf_lt hj0
    have hjc : j < c := hcj ▸ parentOf_lt hpos
    rw [hji, exchange_left, exchange_other key (by omega) (by omega), ← hcj]
    exact h.others c hpos hc (by have hs := h.start; omega) (by omega)

theorem RisesAt.orderedFrom {j : ℕ} (h : RisesAt key n j)
    (hdone : 0 < j → key (parentOf j) ≤ key j) : OrderedFrom key n 0 := by
  intro c hpos hc _
  rcases eq_or_ne c j with rfl | hcj
  · exact hdone hpos
  · exact h.others c hpos hc hcj

/-- Exchanged with the one above it, the element is one level further up. -/
theorem RisesAt.exchange {j : ℕ} (h : RisesAt key n j) (hj0 : 0 < j) (hjn : j < n)
    (hless : key j < key (parentOf j)) :
    RisesAt (exchange key (parentOf j) j) n (parentOf j) where
  others := by
    intro c hpos hc hne
    have hlt := parentOf_lt hj0
    rcases eq_or_ne c j with rfl | hcj
    · rw [exchange_left, exchange_right]
      exact hless.le
    · rw [exchange_other key hne hcj]
      rcases eq_or_ne (parentOf c) j with hj | hj
      · rw [hj, exchange_right]
        exact h.below hj0 c hpos hc hj
      · rcases eq_or_ne (parentOf c) (parentOf j) with hp | hp
        · rw [hp, exchange_left]
          have hcp := h.others c hpos hc hcj
          rw [hp] at hcp
          exact hless.le.trans hcp
        · rw [exchange_other key hp hj]
          exact h.others c hpos hc hcj
  below := by
    intro hp0 c hpos hc hcp
    have hlt := parentOf_lt hj0
    have hpp := parentOf_lt hp0
    have habove : key (parentOf (parentOf j)) ≤ key (parentOf j) :=
      h.others (parentOf j) hp0 (hlt.trans hjn) hlt.ne
    rw [exchange_other key hpp.ne (hpp.trans hlt).ne]
    rcases eq_or_ne c j with rfl | hcj
    · rw [exchange_right]
      exact habove
    · have hne : c ≠ parentOf j := by
        rw [← hcp]
        exact (parentOf_lt hpos).ne'
      rw [exchange_other key hne hcj]
      have hcle := h.others c hpos hc hcj
      rw [hcp] at hcle
      exact habove.trans hcle

end Keys

/-! ### Keys of a list -/

section Heap

variable {α β : Type*} {less : α → α → Bool} {rank : α → β} {l : List α}

/-- The key at a position, beyond the list one that is above all. -/
def keyAt (rank : α → β) (l : List α) (i : ℕ) : WithTop β :=
  l[i]?.elim ⊤ fun a => ↑(rank a)

theorem keyAt_of_lt {i : ℕ} (h : i < l.length) : keyAt rank l i = ↑(rank (l.get ⟨i, h⟩)) := by
  rw [keyAt, List.getElem?_eq_getElem h]
  rfl

theorem length_swapAt (l : List α) (i j : ℕ) : (swapAt l i j).length = l.length :=
  (swapAt_perm l i j).length_eq

theorem getElem?_swapAt {i j : ℕ} (hi : i < l.length) (hj : j < l.length) (k : ℕ) :
    (swapAt l i j)[k]? = exchange (fun k => l[k]?) i j k := by
  rw [swapAt, dif_pos ⟨hi, hj⟩, List.getElem?_set, List.getElem?_set, List.length_set]
  rcases eq_or_ne k j with rfl | hkj
  · rw [if_pos rfl, if_pos hj, exchange_right, List.getElem?_eq_getElem hi]
    rfl
  · rw [if_neg hkj.symm]
    rcases eq_or_ne k i with rfl | hki
    · rw [if_pos rfl, if_pos hi, exchange_left, List.getElem?_eq_getElem hj]
      rfl
    · rw [if_neg hki.symm, exchange_other _ hki hkj]

theorem keyAt_swapAt {i j : ℕ} (hi : i < l.length) (hj : j < l.length) :
    keyAt rank (swapAt l i j) = exchange (keyAt rank l) i j := by
  funext k
  rw [keyAt, getElem?_swapAt hi hj]
  rcases eq_or_ne k j with rfl | hkj
  · rw [exchange_right, exchange_right, keyAt]
  · rcases eq_or_ne k i with rfl | hki
    · rw [exchange_left, exchange_left, keyAt]
    · rw [exchange_other _ hki hkj, exchange_other _ hki hkj, keyAt]

theorem keyAt_append_of_lt {l' : List α} {i : ℕ} (h : i < l.length) :
    keyAt rank (l ++ l') i = keyAt rank l i := by
  rw [keyAt, List.getElem?_append_left h, keyAt]

theorem keyAt_dropLast {i : ℕ} (h : i < l.length - 1) :
    keyAt rank l.dropLast i = keyAt rank l i := by
  rw [keyAt, List.getElem?_dropLast, if_pos h, keyAt]

variable [LinearOrder β]

/-- The comparison is that of the keys, for the elements of a list. -/
def ComparesBy (less : α → α → Bool) (rank : α → β) (l : List α) : Prop :=
  ∀ a ∈ l, ∀ b ∈ l, less a b = true ↔ rank a < rank b

def HeapOrdered (rank : α → β) (l : List α) : Prop := OrderedFrom (keyAt rank l) l.length 0

theorem ComparesBy.subset {l' : List α} (h : ComparesBy less rank l) (hsub : l' ⊆ l) :
    ComparesBy less rank l' :=
  fun a ha b hb => h a (hsub ha) b (hsub hb)

theorem lessAt_iff (hless : ComparesBy less rank l) {i j : ℕ} (hi : i < l.length)
    (hj : j < l.length) : lessAt less l i j = true ↔ keyAt rank l i < keyAt rank l j := by
  rw [keyAt_of_lt hi, keyAt_of_lt hj, WithTop.coe_lt_coe, lessAt, List.getElem?_eq_getElem hi,
    List.getElem?_eq_getElem hj]
  exact hless _ (List.getElem_mem hi) _ (List.getElem_mem hj)

theorem lessAt_eq_false (hless : ComparesBy less rank l) {i j : ℕ} (hi : i < l.length)
    (hj : j < l.length) (h : ¬lessAt less l i j = true) : keyAt rank l j ≤ keyAt rank l i :=
  not_lt.mp fun hlt => h ((lessAt_iff hless hi hj).mpr hlt)

theorem lesserChild_spec (hless : ComparesBy less rank l) {n i : ℕ} (hn : n ≤ l.length)
    (hi : 2 * i + 1 < n) :
    0 < lesserChild less n l (2 * i + 1) ∧ lesserChild less n l (2 * i + 1) < n ∧
      parentOf (lesserChild less n l (2 * i + 1)) = i ∧
      ∀ c, 0 < c → c < n → parentOf c = i →
        keyAt rank l (lesserChild less n l (2 * i + 1)) ≤ keyAt rank l c := by
  rw [lesserChild]
  split
  · next hright =>
      rw [Bool.and_eq_true, decide_eq_true_iff] at hright
      obtain ⟨hbound, hlt⟩ := hright
      rw [lessAt_iff hless (by omega) (by omega)] at hlt
      refine ⟨by omega, hbound, by rw [parentOf]; omega, ?_⟩
      intro c hpos hc hparent
      rcases (parentOf_eq_iff hpos).mp hparent with rfl | rfl
      · exact hlt.le
      · exact le_rfl
  · next hleft =>
      rw [Bool.and_eq_true, decide_eq_true_iff, not_and] at hleft
      refine ⟨by omega, hi, by rw [parentOf]; omega, ?_⟩
      intro c hpos hc hparent
      rcases (parentOf_eq_iff hpos).mp hparent with rfl | rfl
      · exact le_rfl
      · exact lessAt_eq_false hless (by omega) (by omega) (hleft hc)

theorem heapDownLoop_ordered {n s : ℕ} (fuel : ℕ) {i : ℕ} (hless : ComparesBy less rank l)
    (hn : n ≤ l.length) (hfuel : n ≤ fuel + i) (h : SinksAt (keyAt rank l) n s i) :
    OrderedFrom (keyAt rank (heapDownLoop less n fuel l i)) n s := by
  induction fuel generalizing l i with
  | zero =>
      refine h.orderedFrom fun c hpos hc hparent => ?_
      have hlt := parentOf_lt hpos
      omega
  | succ fuel ih =>
      rw [heapDownLoop]
      split
      · next hleaf =>
          refine h.orderedFrom fun c hpos hc hparent => ?_
          rcases (parentOf_eq_iff hpos).mp hparent with rfl | rfl <;> omega
      · next hchild =>
          obtain ⟨hj0, hjn, hji, hleast⟩ := lesserChild_spec hless hn (not_le.mp hchild)
          generalize lesserChild less n l (2 * i + 1) = j at hj0 hjn hji hleast
          have hij : i < j := hji ▸ parentOf_lt hj0
          simp only [Bool.not_eq_true']
          split
          · next hstop =>
              have hle := lessAt_eq_false hless (by omega) (by omega) (Bool.eq_false_iff.mp hstop)
              exact h.orderedFrom fun c hpos hc hparent => hle.trans (hleast c hpos hc hparent)
          · next hgo =>
              have hlt := (lessAt_iff hless (by omega) (by omega)).mp (Bool.not_eq_false _ ▸ hgo)
              refine ih (hless.subset (swapAt_perm l i j).subset) ?_ (by omega) ?_
              · rw [length_swapAt]
                exact hn
              · rw [keyAt_swapAt (by omega) (by omega)]
                exact h.exchange hj0 hjn hji hlt hleast

theorem heapUpLoop_succ (fuel : ℕ) (l : List α) (j : ℕ) :
    heapUpLoop less (fuel + 1) l j =
      if parentOf j = j ∨ lessAt less l j (parentOf j) = false then l
      else heapUpLoop less fuel (swapAt l (parentOf j) j) (parentOf j) := by
  rw [heapUpLoop]
  refine if_congr ?_ rfl rfl
  rw [Bool.or_eq_true, decide_eq_true_iff, Bool.not_eq_true', parentOf]

theorem heapUpLoop_ordered (fuel : ℕ) {j : ℕ} (hless : ComparesBy less rank l)
    (hj : j < l.length) (hfuel : j < fuel) (h : RisesAt (keyAt rank l) l.length j) :
    HeapOrdered rank (heapUpLoop less fuel l j) := by
  induction fuel generalizing l j with
  | zero => omega
  | succ fuel ih =>
      rw [heapUpLoop_succ]
      split
      · next hstop =>
          refine h.orderedFrom fun hpos => ?_
          have hlt := parentOf_lt hpos
          rcases hstop with htop | hle
          · exact absurd htop hlt.ne
          · exact lessAt_eq_false hless hj (hlt.trans hj) (Bool.eq_false_iff.mp hle)
      · next hgo =>
          rw [not_or, Bool.not_eq_false] at hgo
          obtain ⟨hne, hlt⟩ := hgo
          have hpos : 0 < j := by
            rcases Nat.eq_zero_or_pos j with rfl | hpos
            · exact absurd rfl hne
            · exact hpos
          have hparent := parentOf_lt hpos
          have hp : parentOf j < l.length := hparent.trans hj
          have hkey := (lessAt_iff hless hj hp).mp hlt
          refine ih (hless.subset (swapAt_perm l _ j).subset) ?_ (lt_of_lt_of_le hparent ?_) ?_
          · rw [length_swapAt]
            exact hp
          · omega
          · rw [length_swapAt, keyAt_swapAt hp hj]
            exact h.exchange hpos hj hkey

/-! ### The operations -/

theorem heapDown_ordered {n s : ℕ} (hless : ComparesBy less rank l) (hn : n ≤ l.length)
    (h : OrderedFrom (keyAt rank l) n (s + 1)) :
    OrderedFrom (keyAt rank (heapDown less l s n)) n s :=
  heapDownLoop_ordered n hless hn (Nat.le_add_right n s) h.sinksAt

/-- `Init` goes over the positions that have children, from the last. -/
theorem heapInit_ordered (hless : ComparesBy less rank l) : HeapOrdered rank (heapInit less l) := by
  have hfold : ∀ (s : ℕ) (l' : List α), l'.Perm l → OrderedFrom (keyAt rank l') l.length s →
      OrderedFrom (keyAt rank ((List.range s).reverse.foldl
        (fun l' i => heapDown less l' i l.length) l')) l.length 0 := by
    intro s
    induction s with
    | zero => exact fun l' _ h => h
    | succ s ih =>
        intro l' hperm h
        rw [List.range_succ, List.reverse_append, List.reverse_singleton, List.singleton_append,
          List.foldl_cons]
        refine ih _ ((heapDownLoop_perm less _ _ l' s).trans hperm) ?_
        exact heapDown_ordered (hless.subset hperm.subset) hperm.length_eq.ge h
  rw [HeapOrdered, (heapInit_perm less l).length_eq]
  refine hfold (l.length / 2) l (List.Perm.refl l) fun c hpos hc hparent => ?_
  rw [parentOf] at hparent
  omega

theorem heapPush_ordered {x : α} (hless : ComparesBy less rank (x :: l)) (h : HeapOrdered rank l) :
    HeapOrdered rank (heapPush less l x) := by
  have hperm : (l ++ [x]).Perm (x :: l) := List.perm_append_singleton x l
  have hlen : (l ++ [x]).length = l.length + 1 := List.length_append
  refine heapUpLoop_ordered _ (hless.subset hperm.subset) (by omega) (Nat.lt_succ_self _) ?_
  refine ⟨?_, ?_⟩
  · intro c hpos hc hne
    have hcl : c < l.length := by omega
    rw [keyAt_append_of_lt hcl, keyAt_append_of_lt ((parentOf_lt hpos).trans hcl)]
    exact h c hpos hcl (Nat.zero_le _)
  · intro _ c hpos hc hparent
    have hlt := parentOf_lt hpos
    omega

/-- Sifting down within the first `n` positions leaves the others alone. -/
theorem getElem?_heapDownLoop {n : ℕ} (fuel : ℕ) {i k : ℕ} (hi : i < n) (hn : n ≤ l.length)
    (hk : n ≤ k) : (heapDownLoop less n fuel l i)[k]? = l[k]? := by
  induction fuel generalizing l i with
  | zero => rfl
  | succ fuel ih =>
      rw [heapDownLoop]
      split
      · rfl
      · next hchild =>
          simp only
          split
          · rfl
          · have hj : lesserChild less n l (2 * i + 1) < n := by
              rw [lesserChild]
              split
              · next hright =>
                  rw [Bool.and_eq_true, decide_eq_true_iff] at hright
                  exact hright.1
              · exact not_le.mp hchild
            rw [ih hj (by rw [length_swapAt]; exact hn),
              getElem?_swapAt (by omega) (by omega), exchange_other _ (by omega) (by omega)]

/-- `Pop` takes the first element away. -/
theorem heapPop_perm {root : α} (hroot : l.head? = some root) :
    (root :: heapPop less l).Perm l := by
  obtain ⟨rest, rfl⟩ : ∃ rest, l = root :: rest := List.head?_eq_some_iff.mp hroot
  have hlen : (root :: rest).length = rest.length + 1 := List.length_cons
  have hmoved : (heapDown less (swapAt (root :: rest) 0 rest.length) 0 rest.length).Perm
      (root :: rest) :=
    (heapDownLoop_perm less _ _ _ _).trans (swapAt_perm _ _ _)
  have hlast : (heapDown less (swapAt (root :: rest) 0 rest.length) 0
      rest.length)[rest.length]? = some root := by
    rcases Nat.eq_zero_or_pos rest.length with hnil | hpos
    · rw [List.length_eq_zero_iff.mp hnil]
      rfl
    · rw [heapDown, getElem?_heapDownLoop _ hpos (by rw [length_swapAt, hlen]; omega) le_rfl,
        getElem?_swapAt (by omega) (by omega), exchange_right]
      rfl
  have hsplit : heapPop less (root :: rest) ++ [root] =
      heapDown less (swapAt (root :: rest) 0 rest.length) 0 rest.length := by
    have hpop : heapPop less (root :: rest) =
        (heapDown less (swapAt (root :: rest) 0 rest.length) 0 rest.length).dropLast := rfl
    rw [hpop]
    refine List.dropLast_append_getLast? root ?_
    rw [Option.mem_def, List.getLast?_eq_getElem?, hmoved.length_eq]
    exact hlast
  exact (List.perm_append_singleton root _).symm.trans (hsplit ▸ hmoved)

theorem heapPop_ordered (hless : ComparesBy less rank l) (h : HeapOrdered rank l) :
    HeapOrdered rank (heapPop less l) := by
  rcases Nat.eq_zero_or_pos (l.length - 1) with hzero | hpos
  · intro c _ hc
    rw [length_heapPop] at hc
    omega
  · have hl : l.length - 1 < l.length := by omega
    have hswap : OrderedFrom (keyAt rank (swapAt l 0 (l.length - 1))) (l.length - 1) 1 := by
      intro c hcpos hc hparent
      have hlt := parentOf_lt hcpos
      rw [keyAt_swapAt (by omega) hl, exchange_other _ (by omega) (by omega),
        exchange_other _ (by omega) (by omega)]
      exact h c hcpos (by omega) (Nat.zero_le _)
    have hdown := heapDown_ordered (hless.subset (swapAt_perm l _ _).subset)
      (by rw [length_swapAt]; omega) hswap
    intro c hcpos hc _
    rw [length_heapPop] at hc
    have hkeep : ∀ k, k < l.length - 1 → keyAt rank (heapPop less l) k =
        keyAt rank (heapDown less (swapAt l 0 (l.length - 1)) 0 (l.length - 1)) k := by
      intro k hk
      refine keyAt_dropLast ?_
      rw [heapDown, (heapDownLoop_perm less _ _ _ _).length_eq, length_swapAt]
      exact hk
    rw [hkeep c hc, hkeep _ ((parentOf_lt hcpos).trans hc)]
    exact hdown c hcpos hc (Nat.zero_le _)

theorem HeapOrdered.root_le {root : α} (h : HeapOrdered rank l) (hroot : l.head? = some root)
    {a : α} (ha : a ∈ l) : rank root ≤ rank a := by
  obtain ⟨i, hi, rfl⟩ := List.getElem_of_mem ha
  have hle := h.first_le hi
  rw [List.head?_eq_getElem?] at hroot
  rw [keyAt, hroot, keyAt_of_lt hi] at hle
  exact WithTop.coe_le_coe.mp hle

end Heap

/-! ### The greatest of what was offered -/

section Greatest

variable {α β : Type*} [LinearOrder β] {rank : α → β} {k : ℕ} {offered kept : Multiset α}

/-- What is kept are `k` of the offered elements, or all if they are fewer, and no
element that was left out is greater than one that is kept. -/
structure Greatest (rank : α → β) (k : ℕ) (offered kept : Multiset α) : Prop where
  card : kept.card = min k offered.card
  sampled : ∃ left, offered = kept + left ∧ ∀ x ∈ left, ∀ y ∈ kept, rank x ≤ rank y

theorem Greatest.empty (rank : α → β) (k : ℕ) : Greatest rank k 0 0 where
  card := (Nat.min_zero k).symm
  sampled := ⟨0, (Multiset.add_zero 0).symm, fun x hx => absurd hx (Multiset.notMem_zero x)⟩

theorem Greatest.all (h : Greatest rank k offered kept) (hroom : kept.card < k) :
    offered = kept := by
  obtain ⟨left, hleft, _⟩ := h.sampled
  have hcard := h.card
  have hsum : offered.card = kept.card + left.card := by rw [hleft, Multiset.card_add]
  have hnone : left = 0 := Multiset.card_eq_zero.mp (by omega)
  rw [hleft, hnone, Multiset.add_zero]

theorem Greatest.room (h : Greatest rank k offered kept) (hroom : kept.card < k) (x : α) :
    Greatest rank k (x ::ₘ offered) (x ::ₘ kept) := by
  rw [h.all hroom]
  refine ⟨?_, 0, (Multiset.add_zero _).symm, fun y hy => absurd hy (Multiset.notMem_zero y)⟩
  rw [Multiset.card_cons]
  omega

theorem Greatest.full (h : Greatest rank k offered kept) (hfull : kept.card = k) :
    k ≤ offered.card := by
  have hcard := h.card
  omega

theorem Greatest.discard (h : Greatest rank k offered kept) (hfull : kept.card = k) {x : α}
    (hx : ∀ y ∈ kept, rank x ≤ rank y) : Greatest rank k (x ::ₘ offered) kept := by
  obtain ⟨left, hleft, hle⟩ := h.sampled
  refine ⟨?_, x ::ₘ left, ?_, ?_⟩
  · have hall := h.full hfull
    rw [Multiset.card_cons]
    omega
  · rw [Multiset.add_cons, ← hleft]
  · intro y hy z hz
    rcases Multiset.mem_cons.mp hy with rfl | hy
    · exact hx z hz
    · exact hle y hy z hz

theorem Greatest.replace {root x : α} {rest : Multiset α}
    (h : Greatest rank k offered (root ::ₘ rest)) (hfull : (root ::ₘ rest).card = k)
    (hroot : ∀ y ∈ rest, rank root ≤ rank y) (hx : rank root ≤ rank x) :
    Greatest rank k (x ::ₘ offered) (x ::ₘ rest) := by
  obtain ⟨left, hleft, hle⟩ := h.sampled
  refine ⟨?_, root ::ₘ left, ?_, ?_⟩
  · have hall := h.full hfull
    rw [Multiset.card_cons] at hfull ⊢
    rw [Multiset.card_cons]
    omega
  · rw [hleft, Multiset.cons_add, Multiset.cons_add, Multiset.add_cons]
  · have hroot' : ∀ z ∈ x ::ₘ rest, rank root ≤ rank z := by
      intro z hz
      rcases Multiset.mem_cons.mp hz with rfl | hz
      · exact hx
      · exact hroot z hz
    intro y hy z hz
    rcases Multiset.mem_cons.mp hy with rfl | hy
    · exact hroot' z hz
    · exact (hle y hy root (Multiset.mem_cons_self root rest)).trans (hroot' z hz)

end Greatest

end AxiomDaemon.Lib

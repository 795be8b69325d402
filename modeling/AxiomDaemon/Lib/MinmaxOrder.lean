import Mathlib.Data.Nat.Notation
import Mathlib.Algebra.Order.Group.Nat
import Mathlib.Tactic.Common

/-!
The order of a min-max heap: a binary tree of positions from 1 on, every one
of which is low or high, parents and children being of different kinds. A
low position holds a least element of its subtree and a high one a greatest.

An element that may be out of order is repaired in one of two ways. Moving up
it is compared with every second ancestor, those of its own kind; moving down
with its children and grandchildren. Each way has an invariant that one
exchange preserves. Everything is stated for a low element; a high one is low
once the order is turned around and the kinds are exchanged.
-/

namespace AxiomDaemon.Lib

variable {α : Type*}

/-- A preorder in which any two elements compare. -/
structure TotalPreorder (le : α → α → Prop) : Prop where
  trans : ∀ {a b c}, le a b → le b c → le a c
  total : ∀ a b, le a b ∨ le b a

theorem TotalPreorder.refl {le : α → α → Prop} (h : TotalPreorder le) (a : α) : le a a :=
  (h.total a a).elim id id

theorem TotalPreorder.flip {le : α → α → Prop} (h : TotalPreorder le) :
    TotalPreorder fun a b => le b a :=
  ⟨fun hab hbc => h.trans hbc hab, fun a b => h.total b a⟩

/-! ### Positions -/

/-- `a` lies on the way from `b` to the root, above `b`. -/
inductive Ancestor (a : ℕ) : ℕ → Prop
  | parent {b : ℕ} (h : b / 2 = a) : Ancestor a b
  | above {b : ℕ} (h : Ancestor a (b / 2)) : Ancestor a b

theorem Ancestor.lt {a b : ℕ} (h : Ancestor a b) (ha : 1 ≤ a) : a < b := by
  induction h with
  | parent h => omega
  | above h ih => omega

theorem Ancestor.trans {a b c : ℕ} (hab : Ancestor a b) (hbc : Ancestor b c) : Ancestor a c := by
  induction hbc with
  | parent h => exact .above (h ▸ hab)
  | above h ih => exact .above ih

theorem Ancestor.half {a b : ℕ} (h : Ancestor a b) : a = b / 2 ∨ Ancestor a (b / 2) := by
  cases h with
  | parent h => exact Or.inl h.symm
  | above h => exact Or.inr h

/-- What lies below a position: its children, its grandchildren and what is below
those. -/
theorem Ancestor.descends {a b : ℕ} (h : Ancestor a b) :
    b / 2 = a ∨ b / 2 / 2 = a ∨ ∃ c, c / 2 / 2 = a ∧ Ancestor c b := by
  induction h with
  | parent h => exact Or.inl h
  | @above b h ih =>
      rcases ih with hchild | hgrand | ⟨c, hc, hcb⟩
      · exact Or.inr (Or.inl hchild)
      · exact Or.inr (Or.inr ⟨b / 2, hgrand, .parent rfl⟩)
      · exact Or.inr (Or.inr ⟨c, hc, .above hcb⟩)

/-- The kinds of a parent and a child differ. -/
def Alternates (lo : ℕ → Bool) : Prop := ∀ i, 2 ≤ i → lo i = !lo (i / 2)

theorem Alternates.flip {lo : ℕ → Bool} (h : Alternates lo) : Alternates fun i => !lo i := by
  intro i hi
  simp only [h i hi]

theorem Alternates.grandparent {lo : ℕ → Bool} (h : Alternates lo) {i : ℕ} (hi : 4 ≤ i) :
    lo (i / 2 / 2) = lo i := by
  rw [h i (by omega), h (i / 2) (by omega), Bool.not_not]

/-! ### The order -/

section

variable (le : α → α → Prop) (lo : ℕ → Bool)

/-- The elements of a position and of one below it are in order. -/
def InOrder (h : ℕ → α) (a b : ℕ) : Prop := if lo a then le (h a) (h b) else le (h b) (h a)

/-- The pairs of a position and one below it, within the first `n` positions and
of a certain sort, are in order. -/
def OrderedWhere (h : ℕ → α) (n : ℕ) (sort : ℕ → ℕ → Prop) : Prop :=
  ∀ a b, 1 ≤ a → b ≤ n → Ancestor a b → sort a b → InOrder le lo h a b

def MinmaxOrdered (h : ℕ → α) (n : ℕ) : Prop := OrderedWhere le lo h n fun _ _ => True

/-- Only ancestors of its own kind may be out of order with the element at `i`. -/
def RisingAt (h : ℕ → α) (n i : ℕ) : Prop :=
  OrderedWhere le lo h n fun a b => b ≠ i ∨ lo a ≠ lo i

/-- Only positions below it may be out of order with the element at `i`. -/
def SinkingAt (h : ℕ → α) (n i : ℕ) : Prop := OrderedWhere le lo h n fun a _ => a ≠ i

end

/-- Two elements change places. -/
def exchange (h : ℕ → α) (i j : ℕ) : ℕ → α := fun k => if k = i then h j else if k = j then h i else h k

@[simp] theorem exchange_left (h : ℕ → α) (i j : ℕ) : exchange h i j i = h j := if_pos rfl

@[simp] theorem exchange_right (h : ℕ → α) (i j : ℕ) : exchange h i j j = h i := by
  by_cases hji : j = i
  · rw [hji, exchange_left]
  · rw [exchange, if_neg hji, if_pos rfl]

theorem exchange_other (h : ℕ → α) {i j k : ℕ} (hi : k ≠ i) (hj : k ≠ j) :
    exchange h i j k = h k := by
  rw [exchange, if_neg hi, if_neg hj]

section

variable {le : α → α → Prop} {lo : ℕ → Bool} {h : ℕ → α} {n : ℕ}

theorem inOrder_of_lo {a b : ℕ} (ha : lo a = true) : InOrder le lo h a b ↔ le (h a) (h b) := by
  rw [InOrder, if_pos ha]

theorem inOrder_of_hi {a b : ℕ} (ha : lo a = false) : InOrder le lo h a b ↔ le (h b) (h a) := by
  rw [InOrder, ha]
  exact Iff.rfl

theorem InOrder.congr {h' : ℕ → α} {a b c : ℕ} (hord : InOrder le lo h a c) (ha : h' a = h a)
    (hb : h' b = h c) : InOrder le lo h' a b := by
  rw [InOrder, ha, hb]
  exact hord

theorem inOrder_flip {a b : ℕ} :
    InOrder (fun x y => le y x) (fun i => !lo i) h a b ↔ InOrder le lo h a b := by
  cases hlo : lo a <;> simp [InOrder, hlo]

theorem minmaxOrdered_flip :
    MinmaxOrdered (fun x y => le y x) (fun i => !lo i) h n ↔ MinmaxOrdered le lo h n := by
  simp only [MinmaxOrdered, OrderedWhere, inOrder_flip]

theorem risingAt_flip {i : ℕ} :
    RisingAt (fun x y => le y x) (fun i => !lo i) h n i ↔ RisingAt le lo h n i := by
  simp only [RisingAt, OrderedWhere, inOrder_flip, ne_eq, Bool.not_inj_iff]

theorem sinkingAt_flip {i : ℕ} :
    SinkingAt (fun x y => le y x) (fun i => !lo i) h n i ↔ SinkingAt le lo h n i := by
  simp only [SinkingAt, OrderedWhere, inOrder_flip]

/-- The order is about the elements at the first `n` positions. -/
theorem OrderedWhere.congr {sort : ℕ → ℕ → Prop} {h' : ℕ → α} (ho : OrderedWhere le lo h n sort)
    (heq : ∀ k, 1 ≤ k → k ≤ n → h' k = h k) : OrderedWhere le lo h' n sort := by
  intro a b ha hb hanc hsort
  have hlt := hanc.lt ha
  exact (ho a b ha hb hanc hsort).congr (heq a ha (by omega)) (heq b (by omega) hb)

/-- Another element takes the place of the one at `i`, and the last position goes:
the order is kept except for what is below `i`, if it is kept above. -/
theorem MinmaxOrdered.replace {h' : ℕ → α} {i : ℕ} (ho : MinmaxOrdered le lo h (n + 1))
    (heq : ∀ k, 1 ≤ k → k ≤ n → k ≠ i → h' k = h k)
    (habove : ∀ a, 1 ≤ a → i ≤ n → Ancestor a i → InOrder le lo h' a i) : SinkingAt le lo h' n i := by
  intro a b ha hb hanc hai
  have hlt := hanc.lt ha
  by_cases hbi : b = i
  · subst hbi
    exact habove a ha hb hanc
  · have hold := ho a b ha (by omega) hanc trivial
    exact hold.congr (heq a ha (by omega) hai) (heq b (by omega) hb hbi)

/-! ### Moving up -/

/-- A pair whose upper element is not out of place is in order already. -/
theorem RisingAt.inOrder {i a b : ℕ} (hr : RisingAt le lo h n i) (ha : 1 ≤ a) (hb : b ≤ n)
    (hanc : Ancestor a b) (hsort : b ≠ i ∨ lo a ≠ lo i) : InOrder le lo h a b :=
  hr a b ha hb hanc hsort

theorem RisingAt.exchange (hle : TotalPreorder le) (halt : Alternates lo) {i : ℕ}
    (hr : RisingAt le lo h n i) (hn : i ≤ n) (hq : 1 ≤ i / 2 / 2) (hlo : lo i = true)
    (hlt : le (h i) (h (i / 2 / 2))) :
    RisingAt le lo (exchange h i (i / 2 / 2)) n (i / 2 / 2) := by
  have hloq : lo (i / 2 / 2) = true := (halt.grandparent (by omega)).trans hlo
  have hlop : lo (i / 2) = false := by
    have hparent := halt i (by omega)
    rw [hlo] at hparent
    simpa using hparent.symm
  have hanc_q : Ancestor (i / 2 / 2) i := .above (.parent rfl)
  generalize hq' : i / 2 / 2 = q at *
  intro a b ha hb hanc hsort
  have hlt_ab := hanc.lt ha
  by_cases hbi : b = i
  · subst hbi
    rcases hanc.half with rfl | hanc'
    · -- the parent is high and was not less than the grandparent
      have hold := (inOrder_of_lo hloq).mp (hr.inOrder hq (by omega) (.parent hq') (by omega))
      rw [inOrder_of_hi hlop, exchange_left, exchange_other h (by omega) (by omega)]
      exact hold
    · rcases hanc'.half with haq | hanc''
      · obtain rfl : a = q := haq.trans hq'
        rw [inOrder_of_lo hloq, exchange_left, exchange_right]
        exact hlt
      · rw [hq'] at hanc''
        have hlt_aq := hanc''.lt ha
        have hold := hr.inOrder ha (by omega) hanc'' (by omega)
        exact hold.congr (exchange_other h (by omega) (by omega)) (exchange_left h _ _)
  by_cases hbq : b = q
  · subst hbq
    have hkind : lo a ≠ lo i := by
      rw [hlo, ← hloq]
      exact hsort.resolve_left fun hne => hne rfl
    have hold := hr.inOrder ha hn (hanc.trans hanc_q) (Or.inr hkind)
    exact hold.congr (exchange_other h (by omega) (by omega)) (exchange_right h _ _)
  by_cases hai : a = i
  · subst hai
    have hold := (inOrder_of_lo hloq).mp (hr.inOrder hq hb (hanc_q.trans hanc) (Or.inl hbi))
    rw [inOrder_of_lo hlo, exchange_left, exchange_other h hbi hbq]
    exact hold
  by_cases haq : a = q
  · subst haq
    have hold := (inOrder_of_lo hloq).mp (hr.inOrder ha hb hanc (Or.inl hbi))
    rw [inOrder_of_lo hloq, exchange_right, exchange_other h hbi hbq]
    exact hle.trans hlt hold
  · have hold := hr.inOrder ha hb hanc (Or.inl hbi)
    exact hold.congr (exchange_other h hai haq) (exchange_other h hbi hbq)

/-- An element that is not less than its grandparent has arrived. -/
theorem RisingAt.minmaxOrdered (hle : TotalPreorder le) (halt : Alternates lo) {i : ℕ}
    (hr : RisingAt le lo h n i) (hlo : lo i = true)
    (hstop : 1 ≤ i / 2 / 2 → le (h (i / 2 / 2)) (h i)) : MinmaxOrdered le lo h n := by
  intro a b ha hb hanc _
  by_cases hkind : b ≠ i ∨ lo a ≠ lo i
  · exact hr a b ha hb hanc hkind
  obtain ⟨rfl, hloa⟩ : b = i ∧ lo a = lo i := by simpa [not_or] using hkind
  have hlt := hanc.lt ha
  rw [inOrder_of_lo (hloa.trans hlo)]
  rcases hanc.half with rfl | hanc'
  · -- the parent is of the other kind
    rw [halt b (by omega)] at hloa
    exact absurd hloa (by simp)
  rcases hanc'.half with rfl | hanc''
  · exact hstop ha
  · have hlt' := hanc''.lt ha
    have hold := hr.inOrder ha (by omega) hanc'' (by omega)
    exact hle.trans ((inOrder_of_lo (hloa.trans hlo)).mp hold) (hstop (by omega))

/-- Everything but the last element is in order. -/
def NewAt (le : α → α → Prop) (lo : ℕ → Bool) (h : ℕ → α) (n : ℕ) : Prop :=
  OrderedWhere le lo h n fun _ b => b ≠ n

theorem newAt_flip : NewAt (fun x y => le y x) (fun i => !lo i) h n ↔ NewAt le lo h n := by
  simp only [NewAt, OrderedWhere, inOrder_flip]

theorem NewAt.risingAt (hle : TotalPreorder le) (hnew : NewAt le lo h n)
    (hn : 2 ≤ n) (hlo : lo n = true) (hpar : le (h n) (h (n / 2))) : RisingAt le lo h n n := by
  intro a b ha hb hanc hsort
  by_cases hbn : b = n
  · subst hbn
    have hloa : lo a = false := by
      rcases hsort with hne | hkind
      · exact absurd rfl hne
      · rw [hlo] at hkind
        simpa using hkind
    rw [inOrder_of_hi hloa]
    rcases hanc.half with rfl | hanc'
    · exact hpar
    · have hold := hnew a (b / 2) ha (by omega) hanc' (show b / 2 ≠ b by omega)
      exact hle.trans hpar ((inOrder_of_hi hloa).mp hold)
  · exact hnew a b ha hb hanc hbn

/-- A new low element that is not less than its parent changes places with it,
and goes on as a high one. -/
theorem NewAt.exchange_parent (hle : TotalPreorder le) (halt : Alternates lo)
    (hnew : NewAt le lo h n) (hn : 2 ≤ n) (hlo : lo n = true) (hpar : le (h (n / 2)) (h n)) :
    RisingAt le lo (AxiomDaemon.Lib.exchange h n (n / 2)) n (n / 2) := by
  have hlop : lo (n / 2) = false := by
    have hparent := halt n hn
    rw [hlo] at hparent
    simpa using hparent.symm
  generalize hp : n / 2 = p at *
  intro a b ha hb hanc hsort
  have hlt := hanc.lt ha
  by_cases hbn : b = n
  · subst hbn
    rcases hanc.half with hap | hanc'
    · obtain rfl : a = p := hap.trans hp
      rw [inOrder_of_hi hlop, exchange_left, exchange_right]
      exact hpar
    · rw [hp] at hanc'
      have hlt' := hanc'.lt ha
      have hold := hnew a p ha (by omega) hanc' (show p ≠ b by omega)
      exact hold.congr (exchange_other h (by omega) (by omega)) (exchange_left h _ _)
  by_cases hbp : b = p
  · subst hbp
    have hloa : lo a = true := by
      have hkind := hsort.resolve_left fun hne => hne rfl
      rw [hlop] at hkind
      simpa using hkind
    have hold := (inOrder_of_lo hloa).mp (hnew a b ha hb hanc hbn)
    rw [inOrder_of_lo hloa, exchange_right, exchange_other h (by omega) (by omega)]
    exact hle.trans hold hpar
  have hold := hnew a b ha hb hanc hbn
  by_cases hap : a = p
  · subst hap
    rw [inOrder_of_hi hlop, exchange_right, exchange_other h hbn hbp]
    exact hle.trans ((inOrder_of_hi hlop).mp hold) hpar
  · exact hold.congr (exchange_other h (by omega) hap) (exchange_other h hbn hbp)

/-! ### Moving down -/

/-- `m` holds a least element of the children and grandchildren of `i`. -/
structure LeastBelow (le : α → α → Prop) (h : ℕ → α) (n i m : ℕ) : Prop where
  below : m / 2 = i ∨ m / 2 / 2 = i
  le_n : m ≤ n
  least : ∀ c, c ≤ n → c / 2 = i ∨ c / 2 / 2 = i → le (h m) (h c)

theorem SinkingAt.inOrder {i a b : ℕ} (hs : SinkingAt le lo h n i) (ha : 1 ≤ a) (hb : b ≤ n)
    (hanc : Ancestor a b) (hai : a ≠ i) : InOrder le lo h a b :=
  hs a b ha hb hanc hai

theorem LeastBelow.ancestor {i m : ℕ} (hm : LeastBelow le h n i m) : Ancestor i m := by
  rcases hm.below with hchild | hgrand
  · exact .parent hchild
  · exact .above (.parent hgrand)

theorem LeastBelow.le_descendant {i m b : ℕ} (hm : LeastBelow le h n i m)
    (hle : TotalPreorder le) (halt : Alternates lo) (hs : SinkingAt le lo h n i) (hi : 1 ≤ i)
    (hlo : lo i = true) (hb : b ≤ n) (hanc : Ancestor i b) : le (h m) (h b) := by
  rcases hanc.descends with hchild | hgrand | ⟨c, hc, hcb⟩
  · exact hm.least b hb (Or.inl hchild)
  · exact hm.least b hb (Or.inr hgrand)
  · have hlt := hcb.lt (by omega)
    have hloc : lo c = true := by
      rw [← halt.grandparent (show 4 ≤ c by omega), hc, hlo]
    have hold := hs.inOrder (by omega) hb hcb (by omega)
    exact hle.trans (hm.least c (by omega) (Or.inr hc)) ((inOrder_of_lo hloc).mp hold)

theorem SinkingAt.minmaxOrdered_of_leaf {i : ℕ} (hs : SinkingAt le lo h n i) (hleaf : n < 2 * i) :
    MinmaxOrdered le lo h n := by
  intro a b ha hb hanc _
  refine hs.inOrder ha hb hanc ?_
  rintro rfl
  have hdouble : 2 * a ≤ b := by
    rcases hanc.half with hab | hab
    · omega
    · have := hab.lt ha
      omega
  omega

/-- An element that is not greater than the least one below has arrived. -/
theorem SinkingAt.minmaxOrdered (hle : TotalPreorder le) (halt : Alternates lo) {i m : ℕ}
    (hs : SinkingAt le lo h n i) (hi : 1 ≤ i) (hlo : lo i = true) (hm : LeastBelow le h n i m)
    (hstop : le (h i) (h m)) : MinmaxOrdered le lo h n := by
  intro a b ha hb hanc _
  by_cases hai : a = i
  · subst hai
    rw [inOrder_of_lo hlo]
    exact hle.trans hstop (hm.le_descendant hle halt hs hi hlo hb hanc)
  · exact hs.inOrder ha hb hanc hai

/-- After the exchange with the least element below, the pairs above its old
place are in order, but for one with a position between the two. -/
theorem SinkingAt.exchange_apart (hle : TotalPreorder le) (halt : Alternates lo) {i m : ℕ}
    (hs : SinkingAt le lo h n i) (hi : 1 ≤ i) (hlo : lo i = true) (hm : LeastBelow le h n i m)
    (hlt : le (h m) (h i)) {a b : ℕ} (ha : 1 ≤ a) (hb : b ≤ n) (hanc : Ancestor a b) (ham : a ≠ m)
    (hbm : b = m → a = i ∨ Ancestor a i) : InOrder le lo (AxiomDaemon.Lib.exchange h i m) a b := by
  have hanc_m : Ancestor i m := hm.ancestor
  have him := hanc_m.lt hi
  have hab := hanc.lt ha
  by_cases hai : a = i
  · subst hai
    rw [inOrder_of_lo hlo, exchange_left]
    by_cases hbm : b = m
    · rw [hbm, exchange_right]
      exact hlt
    · rw [exchange_other h (by omega) hbm]
      exact hm.le_descendant hle halt hs hi hlo hb hanc
  by_cases hbi : b = i
  · subst hbi
    have hold := hs.inOrder ha hm.le_n (hanc.trans hanc_m) hai
    exact hold.congr (exchange_other h hai (by omega)) (exchange_left h _ _)
  by_cases hbm' : b = m
  · subst hbm'
    have hold := hs.inOrder ha (by omega) ((hbm rfl).resolve_left hai) hai
    exact hold.congr (exchange_other h hai ham) (exchange_right h _ _)
  · have hold := hs.inOrder ha hb hanc hai
    exact hold.congr (exchange_other h hai ham) (exchange_other h hbi hbm')

/-- The least element below is a child: after one exchange everything is in
order. -/
theorem SinkingAt.exchange_child (hle : TotalPreorder le) (halt : Alternates lo) {i m : ℕ}
    (hs : SinkingAt le lo h n i) (hi : 1 ≤ i) (hlo : lo i = true) (hm : LeastBelow le h n i m)
    (hchild : m / 2 = i) (hlt : le (h m) (h i)) :
    MinmaxOrdered le lo (AxiomDaemon.Lib.exchange h i m) n := by
  have him := hm.ancestor.lt hi
  have hlom : lo m = false := by
    rw [halt m (by omega), hchild, hlo]
    rfl
  intro a b ha hb hanc _
  by_cases ham : a = m
  · subst ham
    have hab := hanc.lt ha
    have hold := (inOrder_of_hi hlom).mp (hs.inOrder ha hb hanc (by omega))
    rw [inOrder_of_hi hlom, exchange_right, exchange_other h (by omega) (by omega)]
    exact hle.trans hold hlt
  · refine hs.exchange_apart hle halt hi hlo hm hlt ha hb hanc ham ?_
    rintro rfl
    exact hchild ▸ hanc.half

theorem Ancestor.above_grandchild {a i m : ℕ} (hanc : Ancestor a m) (hgrand : m / 2 / 2 = i) :
    a = m / 2 ∨ a = i ∨ Ancestor a i := by
  rcases hanc.half with hab | hab
  · exact Or.inl hab
  · exact Or.inr (hgrand ▸ hab.half)

/-- The least element below is a grandchild: after the exchange the element is
there, and goes on sinking if it is in order with its new parent. -/
theorem SinkingAt.exchange_grandchild (hle : TotalPreorder le) (halt : Alternates lo) {i m : ℕ}
    (hs : SinkingAt le lo h n i) (hi : 1 ≤ i) (hlo : lo i = true) (hm : LeastBelow le h n i m)
    (hgrand : m / 2 / 2 = i) (hlt : le (h m) (h i)) (hpar : le (h i) (h (m / 2))) :
    SinkingAt le lo (AxiomDaemon.Lib.exchange h i m) n m := by
  have hlop : lo (m / 2) = false := by
    rw [halt (m / 2) (by omega), hgrand, hlo]
    rfl
  intro a b ha hb hanc ham
  by_cases hparent : b = m ∧ a = m / 2
  · obtain ⟨rfl, rfl⟩ := hparent
    rw [inOrder_of_hi hlop, exchange_right, exchange_other h (by omega) ham]
    exact hpar
  · refine hs.exchange_apart hle halt hi hlo hm hlt ha hb hanc ham ?_
    rintro rfl
    exact (hanc.above_grandchild hgrand).resolve_left fun hap => hparent ⟨rfl, hap⟩

/-- If it is not, it changes places with that parent, whose element goes on. -/
theorem SinkingAt.exchange_grandchild_parent (hle : TotalPreorder le) (halt : Alternates lo)
    {i m : ℕ} (hs : SinkingAt le lo h n i) (hi : 1 ≤ i) (hlo : lo i = true)
    (hm : LeastBelow le h n i m) (hgrand : m / 2 / 2 = i) (hlt : le (h m) (h i))
    (hpar : le (h (m / 2)) (h i)) :
    SinkingAt le lo
      (AxiomDaemon.Lib.exchange (AxiomDaemon.Lib.exchange h i m) m (m / 2)) n m := by
  have hmn := hm.le_n
  have hlop : lo (m / 2) = false := by
    rw [halt (m / 2) (by omega), hgrand, hlo]
    rfl
  have hanc_p : Ancestor i (m / 2) := .parent hgrand
  have hip := hanc_p.lt hi
  intro a b ha hb hanc ham
  have hab := hanc.lt ha
  by_cases hap : a = m / 2
  · subst hap
    rw [inOrder_of_hi hlop, exchange_right, exchange_right]
    by_cases hbm : b = m
    · rw [hbm, exchange_left, exchange_other h (by omega) (by omega)]
      exact hpar
    · rw [exchange_other _ hbm (by omega), exchange_other h (by omega) hbm]
      exact hle.trans ((inOrder_of_hi hlop).mp (hs.inOrder ha hb hanc (by omega))) hpar
  have hhigh := exchange_other (AxiomDaemon.Lib.exchange h i m) ham hap
  by_cases hbm : b = m
  · -- the parent's element is there now, which is in order with what is above both
    subst hbm
    have habove := (hanc.above_grandchild hgrand).resolve_left hap
    have hanc' : Ancestor a (b / 2) := by
      rcases habove with rfl | habove
      · exact hanc_p
      · exact habove.trans hanc_p
    exact (hs.exchange_apart hle halt hi hlo hm hlt ha (by omega) hanc' ham
      fun _ => habove).congr hhigh (exchange_left _ _ _)
  by_cases hbp : b = m / 2
  · subst hbp
    exact (hs.exchange_apart hle halt hi hlo hm hlt ha hmn (hanc.trans (.parent rfl)) ham
      fun _ => hgrand ▸ hanc.half).congr hhigh (exchange_right _ _ _)
  · exact (hs.exchange_apart hle halt hi hlo hm hlt ha hb hanc ham
      fun h => absurd h hbm).congr hhigh (exchange_other _ hbm hbp)

/-! ### Greatest and least -/

theorem one_ancestor {b : ℕ} (hb : 2 ≤ b) : Ancestor 1 b := by
  induction b using Nat.strong_induction_on with
  | _ b ih =>
      by_cases hsmall : b / 2 = 1
      · exact .parent hsmall
      · exact .above (ih (b / 2) (by omega) (by omega))

/-- Every other element is below one of the two children of the root, or one of
them. -/
theorem below_children {b : ℕ} (hb : 2 ≤ b) :
    (b = 2 ∨ Ancestor 2 b) ∨ b = 3 ∨ Ancestor 3 b := by
  induction b using Nat.strong_induction_on with
  | _ b ih =>
      by_cases hsmall : b < 4
      · omega
      · rcases ih (b / 2) (by omega) (by omega) with (htwo | htwo) | hthree | hthree
        · exact Or.inl (Or.inr (.parent htwo))
        · exact Or.inl (Or.inr (.above htwo))
        · exact Or.inr (Or.inr (.parent hthree))
        · exact Or.inr (Or.inr (.above hthree))

end

end AxiomDaemon.Lib

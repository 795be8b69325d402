import AxiomDaemon.Lib.HeapOrder
import AxiomDaemon.Lib.Transition
import Mathlib.Data.Prod.Lex

/-!
A heap with a bounded number of places to which elements are offered one after the other,
and which of several equal elements it lets go.

The first element of a heap is a least one, and nothing more is known of it: where equal
elements lie depends on all exchanges before. The heap keeps the elements that come first,
by their rank and among equals by their arrival, exactly as long as the element that it
lets go is the last one that arrived of those of its rank, and no equal of the one that
takes its place.
-/

namespace AxiomDaemon.Lib

variable {α ι β : Type*} [LinearOrder β]

/-- Exchanging an element for another one keeps the greatest exactly if it was a least one
and is not greater than the other. -/
theorem Greatest.replace_iff {rank : α → β} {k : ℕ} {root x : α} {offered rest : Multiset α}
    (h : Greatest rank k offered (root ::ₘ rest)) (hfull : (root ::ₘ rest).card = k) :
    Greatest rank k (x ::ₘ offered) (x ::ₘ rest) ↔
      (∀ y ∈ root ::ₘ rest, rank root ≤ rank y) ∧ rank root ≤ rank x := by
  constructor
  · intro hnext
    obtain ⟨left, hleft, _⟩ := h.sampled
    obtain ⟨left', hleft', hle⟩ := hnext.sampled
    -- what was exchanged is among what is left out now
    have hroot : root ∈ left' := by
      rw [hleft, Multiset.cons_add, Multiset.cons_add, Multiset.cons_inj_right,
        ← Multiset.add_cons] at hleft'
      rw [← Multiset.add_right_inj.mp hleft']
      exact Multiset.mem_cons_self root left
    refine ⟨fun y hy => ?_, hle root hroot x (Multiset.mem_cons_self x rest)⟩
    rcases Multiset.mem_cons.mp hy with rfl | hy
    · exact le_rfl
    · exact hle root hroot y (Multiset.mem_cons_of_mem hy)
  · rintro ⟨hroot, hx⟩
    exact h.replace hfull (fun y hy => hroot y (Multiset.mem_cons_of_mem hy)) hx

/-- What a heap holds, and what it was offered, the last one first. -/
structure Queue (α : Type*) where
  held : List α
  offered : List α

/-- How elements get into a heap: how they are compared, when the first element of a full
heap stays where it is, and how an offer becomes an element that knows its arrival. -/
structure Admission (α ι β : Type*) [LinearOrder β] where
  rank : α → β
  arrival : α → ℕ
  less : α → α → Bool
  refuses : α → α → Bool
  stamp : ℕ → ι → α
  less_iff : ∀ a b, less a b = true ↔ rank a < rank b
  rank_le_of_refuses : ∀ root a, refuses root a = true → rank a ≤ rank root
  rank_le_of_admits : ∀ root a, refuses root a = false → rank root ≤ rank a
  arrival_stamp : ∀ n i, arrival (stamp n i) = n

namespace Admission

variable (adm : Admission α ι β) {k : ℕ} {q : Queue α}

/-- The greater the rank the better the place, and among equals the earlier. -/
def place (a : α) : β ×ₗ ℕᵒᵈ := toLex (adm.rank a, OrderDual.toDual (adm.arrival a))

theorem place_le_place {a b : α} :
    adm.place a ≤ adm.place b ↔
      adm.rank a < adm.rank b ∨ adm.rank a = adm.rank b ∧ adm.arrival b ≤ adm.arrival a :=
  Prod.Lex.toLex_le_toLex

/-- What the heap holds after an element was offered. -/
def takeIn (k : ℕ) (held : List α) (a : α) : List α :=
  if held.length = k then
    match held.head? with
    | none => held
    | some root =>
        if adm.refuses root a then held else heapPush adm.less (heapPop adm.less held) a
  else heapPush adm.less held a

def offer (k : ℕ) (q : Queue α) (i : ι) : Queue α where
  held := adm.takeIn k q.held (adm.stamp q.offered.length i)
  offered := adm.stamp q.offered.length i :: q.offered

/-- The elements that come first are held. -/
def KeepsFirst (k : ℕ) (q : Queue α) : Prop := Greatest adm.place k ↑q.offered ↑q.held

/-- If an element makes room for the one that is offered, it is the last one that arrived
of its equals, and the other one is none of them. -/
def LetsGoLast (k : ℕ) (q : Queue α) (i : ι) : Prop :=
  q.held.length = k → ∀ root ∈ q.held.head?,
    adm.refuses root (adm.stamp q.offered.length i) = false →
      adm.rank root ≠ adm.rank (adm.stamp q.offered.length i) ∧
        ∀ a ∈ q.held, adm.rank a = adm.rank root → adm.arrival a ≤ adm.arrival root

/-- What holds of the heap whatever it was offered. -/
structure Sound (k : ℕ) (q : Queue α) : Prop where
  ordered : HeapOrdered adm.rank q.held
  length_le : q.held.length ≤ k
  arrival_lt : ∀ a ∈ q.held, adm.arrival a < q.offered.length

theorem comparesBy (l : List α) : ComparesBy adm.less adm.rank l :=
  fun a _ b _ => adm.less_iff a b

variable {adm}

theorem Sound.offer (h : adm.Sound k q) (hk : 0 < k) (i : ι) : adm.Sound k (adm.offer k q i) := by
  have hstep : adm.Sound k
      { held := adm.takeIn k q.held (adm.stamp q.offered.length i)
        offered := adm.stamp q.offered.length i :: q.offered } := by
    generalize ha : adm.stamp q.offered.length i = a
    have harrival : adm.arrival a = q.offered.length := ha ▸ adm.arrival_stamp _ i
    have hkept : ∀ b ∈ a :: q.held, adm.arrival b < (a :: q.offered).length := by
      intro b hb
      rw [List.length_cons]
      rcases List.mem_cons.mp hb with rfl | hb
      · omega
      · exact Nat.lt_succ_of_lt (h.arrival_lt b hb)
    have hself : adm.Sound k { held := q.held, offered := a :: q.offered } :=
      ⟨h.ordered, h.length_le, fun b hb => hkept b (List.mem_cons_of_mem a hb)⟩
    unfold takeIn
    split
    · next hfull =>
        split
        · exact hself
        · next root hroot =>
            split
            · exact hself
            · have hpop : (root :: heapPop adm.less q.held).Perm q.held := heapPop_perm hroot
              refine ⟨heapPush_ordered (adm.comparesBy _)
                (heapPop_ordered (adm.comparesBy _) h.ordered), ?_, ?_⟩
              · rw [length_heapPush, length_heapPop]
                omega
              · intro b hb
                have hmem := (heapPush_perm adm.less _ a).subset hb
                apply hkept
                rcases List.mem_cons.mp hmem with rfl | hb
                · exact List.mem_cons_self
                · exact List.mem_cons_of_mem a (hpop.subset (List.mem_cons_of_mem root hb))
    · next hroom =>
        refine ⟨heapPush_ordered (adm.comparesBy _) h.ordered, ?_, ?_⟩
        · have hle := h.length_le
          rw [length_heapPush]
          omega
        · exact fun b hb => hkept b ((heapPush_perm adm.less q.held a).subset hb)
  exact hstep

/-- An element that is refused comes after all that are held: it arrived last. -/
theorem place_le_of_refuses (h : adm.Sound k q) {root : α} (hroot : q.held.head? = some root)
    {i : ι} (hrefuses : adm.refuses root (adm.stamp q.offered.length i) = true) :
    ∀ a ∈ q.held, adm.place (adm.stamp q.offered.length i) ≤ adm.place a := by
  intro a ha
  have hle := adm.rank_le_of_refuses _ _ hrefuses
  have hleast := h.ordered.root_le hroot ha
  have harrival := h.arrival_lt a ha
  rw [place_le_place, adm.arrival_stamp]
  rcases (hle.trans hleast).lt_or_eq with hlt | heq
  · exact .inl hlt
  · exact .inr ⟨heq, harrival.le⟩

/-- The first element comes after all others exactly if it is the last one of its equals. -/
theorem place_root_le_iff (h : adm.Sound k q) {root : α} (hroot : q.held.head? = some root) :
    (∀ a ∈ q.held, adm.place root ≤ adm.place a) ↔
      ∀ a ∈ q.held, adm.rank a = adm.rank root → adm.arrival a ≤ adm.arrival root := by
  refine forall₂_congr fun a ha => ?_
  have hleast := h.ordered.root_le hroot ha
  rw [place_le_place]
  constructor
  · rintro (hlt | ⟨-, harrival⟩) heq
    · exact absurd heq hlt.ne'
    · exact harrival
  · intro harrival
    rcases hleast.lt_or_eq with hlt | heq
    · exact .inl hlt
    · exact .inr ⟨heq, harrival heq.symm⟩

/-- What makes room for an element comes after it exactly if they are no equals. -/
theorem place_root_le_stamp_iff (h : adm.Sound k q) {root : α} (hroot : q.held.head? = some root)
    {i : ι} (hadmits : adm.refuses root (adm.stamp q.offered.length i) = false) :
    adm.place root ≤ adm.place (adm.stamp q.offered.length i) ↔
      adm.rank root ≠ adm.rank (adm.stamp q.offered.length i) := by
  have hle := adm.rank_le_of_admits _ _ hadmits
  have harrival := h.arrival_lt root (List.mem_of_head? hroot)
  rw [place_le_place, adm.arrival_stamp]
  constructor
  · rintro (hlt | ⟨-, hearlier⟩)
    · exact hlt.ne
    · exact absurd harrival (Nat.not_lt.mpr hearlier)
  · exact fun hne => .inl (lt_of_le_of_ne hle hne)

/-- The one step: a heap that holds what comes first does so after an offer exactly if
what it lets go is the last one. -/
theorem keepsFirst_offer_iff (hk : 0 < k) (h : adm.Sound k q) (hkeeps : adm.KeepsFirst k q)
    (i : ι) : adm.KeepsFirst k (adm.offer k q i) ↔ adm.LetsGoLast k q i := by
  unfold KeepsFirst at hkeeps ⊢
  unfold LetsGoLast
  change Greatest adm.place k ↑(adm.stamp q.offered.length i :: q.offered)
    ↑(adm.takeIn k q.held (adm.stamp q.offered.length i)) ↔ _
  rw [← Multiset.cons_coe]
  unfold takeIn
  split
  · next hfull =>
      have hcard : (q.held : Multiset α).card = k := hfull
      have hne : q.held ≠ [] := List.ne_nil_of_length_pos (hfull ▸ hk)
      obtain ⟨root, hroot⟩ := Option.ne_none_iff_exists'.mp (mt List.head?_eq_none_iff.mp hne)
      rw [hroot]
      dsimp only
      cases hrefuses : adm.refuses root (adm.stamp q.offered.length i) with
      | true =>
          rw [if_pos rfl]
          refine iff_of_true (hkeeps.discard hcard (place_le_of_refuses h hroot hrefuses)) ?_
          intro _ root' hroot' hadmits
          rw [← Option.some.inj hroot', hrefuses] at hadmits
          cases hadmits
      | false =>
          rw [if_neg Bool.false_ne_true,
            Multiset.coe_eq_coe.mpr (heapPush_perm adm.less (heapPop adm.less q.held) _),
            ← Multiset.cons_coe]
          have hperm : (root :: heapPop adm.less q.held).Perm q.held := heapPop_perm hroot
          have hpop : (q.held : Multiset α) = root ::ₘ ↑(heapPop adm.less q.held) :=
            (Multiset.coe_eq_coe.mpr hperm).symm
          have hmem : (∀ a ∈ root ::ₘ ↑(heapPop adm.less q.held), adm.place root ≤ adm.place a) ↔
              ∀ a ∈ q.held, adm.place root ≤ adm.place a := by
            rw [← hpop]
            exact Iff.rfl
          rw [hpop] at hkeeps hcard
          rw [hkeeps.replace_iff hcard, hmem, place_root_le_iff h hroot,
            place_root_le_stamp_iff h hroot hrefuses, and_comm]
          constructor
          · intro hlast _ root' hroot' _
            rw [← Option.some.inj hroot']
            exact hlast
          · exact fun hlast => hlast hfull root rfl hrefuses
  · next hroom =>
      have hlt : (q.held : Multiset α).card < k := lt_of_le_of_ne h.length_le hroom
      refine iff_of_true ?_ fun hfull => absurd hfull hroom
      rw [Multiset.coe_eq_coe.mpr (heapPush_perm adm.less q.held _), ← Multiset.cons_coe]
      exact hkeeps.room hlt _

theorem sound_nil (adm : Admission α ι β) (k : ℕ) : adm.Sound k { held := [], offered := [] } where
  ordered := fun _ _ hc => absurd hc (Nat.not_lt_zero _)
  length_le := Nat.zero_le k
  arrival_lt := List.forall_mem_nil _

/-- A heap that is offered elements one after the other holds those that come first all the
time exactly if it always lets the last one go. -/
theorem throughout_keepsFirst_iff (adm : Admission α ι β) (hk : 0 < k) (is : List ι) :
    Throughout (adm.offer k) (adm.KeepsFirst k) { held := [], offered := [] } is ↔
      Along (adm.offer k) (adm.LetsGoLast k) { held := [], offered := [] } is := by
  have hsound : Throughout (adm.offer k) (adm.Sound k) { held := [], offered := [] } is :=
    throughout_of_along (fun _ i h _ => h.offer hk i) (adm.sound_nil k) (along_true _ is)
  have hstep : ∀ q i, adm.Sound k q ∧ adm.KeepsFirst k q →
      (adm.Sound k (adm.offer k q i) ∧ adm.KeepsFirst k (adm.offer k q i) ↔
        adm.LetsGoLast k q i) := by
    intro q i h
    rw [and_iff_right (h.1.offer hk i), keepsFirst_offer_iff hk h.1 h.2]
  have hstart : adm.Sound k { held := [], offered := [] } ∧
      adm.KeepsFirst k { held := [], offered := [] } :=
    ⟨adm.sound_nil k, Greatest.empty adm.place k⟩
  rw [← throughout_iff_along hstep hstart, throughout_and_iff, and_iff_right hsound]

end Admission

end AxiomDaemon.Lib

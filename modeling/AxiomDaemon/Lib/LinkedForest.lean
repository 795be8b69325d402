import Mathlib.Data.List.Nodup
import Mathlib.Logic.Function.Basic
import Mathlib.Logic.Relation
import Mathlib.Order.RelClasses
import Mathlib.Order.WellFounded

/-!
Forests of nodes that hold a link to their parent and the list of their
children. Nodes are added, moved, taken out with their subtree, or taken out
alone, in which case the children move up to the parent. The two kinds of
links agree in all of this, and no way up comes back.
-/

namespace AxiomDaemon.Lib

variable {α : Type*}

/-- The links of all nodes. -/
@[ext] structure Links (α : Type*) where
  parent : α → Option α
  children : α → List α

namespace Links

/-- The nodes that are found from the root, going down. -/
inductive Reachable (l : Links α) (root : α) : α → Prop
  | root : Reachable l root root
  | child {p c : α} (hp : Reachable l root p) (hc : c ∈ l.children p) : Reachable l root c

/-- A node is in the list of its parent only, and only once. -/
structure Consistent (l : Links α) : Prop where
  parent_of_mem : ∀ {p c : α}, c ∈ l.children p → l.parent c = some p
  nodup : ∀ p, (l.children p).Nodup

/-- The node is in the list of its parent, which is an earlier one. -/
def AttachedTo [LT α] (l : Links α) (live : α → Prop) (c : α) : Prop :=
  ∃ p, live p ∧ l.parent c = some p ∧ c ∈ l.children p ∧ p < c

theorem Reachable.cases_root {l : Links α} {root a : α} (h : l.Reachable root a) :
    a = root ∨ ∃ p, a ∈ l.children p := by
  cases h with
  | root => exact Or.inl rfl
  | child _ hc => exact Or.inr ⟨_, hc⟩

/-- When every living node but the root hangs below a living one, all of them
are found from the root. -/
theorem reachable_of_attached [LT α] [WellFoundedLT α] {l : Links α} {root : α} {live : α → Prop}
    (h : ∀ c, live c → c ≠ root → l.AttachedTo live c) {a : α} (ha : live a) :
    l.Reachable root a := by
  induction a using WellFoundedLT.induction with
  | ind a ih =>
      by_cases hroot : a = root
      · exact hroot ▸ .root
      · obtain ⟨p, hlive, -, hmem, hlt⟩ := h a ha hroot
        exact .child (ih p hlt hlive) hmem

theorem Consistent.of_sublist {l l' : Links α} (h : l.Consistent)
    (hparent : l'.parent = l.parent)
    (hsub : ∀ p, (l'.children p).Sublist (l.children p)) : l'.Consistent where
  parent_of_mem := by
    intro p c hc
    rw [hparent]
    exact h.parent_of_mem ((hsub p).subset hc)
  nodup := fun p => (h.nodup p).sublist (hsub p)

variable [DecidableEq α]

/-- A node becomes the last child of `p`. -/
def attach (l : Links α) (p c : α) : Links α :=
  { parent := Function.update l.parent c (some p)
    children := Function.update l.children p (l.children p ++ [c]) }

/-- A node is put below another one, if there is one. -/
def attachUnder (l : Links α) (p : Option α) (c : α) : Links α :=
  match p with
  | some p => l.attach p c
  | none => l

/-- A node is taken out of the list of `p`; its own links stay. -/
def detach (l : Links α) (p c : α) : Links α :=
  { l with children := Function.update l.children p ((l.children p).erase c) }

/-- The children of `a` move to `p`, behind the ones that it has. -/
def splice (l : Links α) (p a : α) : Links α :=
  { parent := fun c => if c ∈ l.children a then some p else l.parent c
    children := Function.update (Function.update l.children p (l.children p ++ l.children a)) a [] }

theorem attachUnder_parent {l : Links α} {c : α} (htop : l.parent c = none) (parent : Option α)
    (x : α) : (l.attachUnder parent c).parent x = if x = c then parent else l.parent x := by
  by_cases hx : x = c
  · subst hx
    cases parent <;> simp [attachUnder, attach, htop]
  · cases parent <;> simp [attachUnder, attach, hx]

theorem mem_children_attach {l : Links α} {p c q x : α} :
    x ∈ (l.attach p c).children q ↔ x ∈ l.children q ∨ (q = p ∧ x = c) := by
  by_cases hq : q = p
  · subst hq
    simp [attach]
  · simp [attach, hq]

theorem mem_children_detach {l : Links α} (h : l.Consistent) {p c q x : α} :
    x ∈ (l.detach p c).children q ↔ x ∈ l.children q ∧ ¬(q = p ∧ x = c) := by
  by_cases hq : q = p
  · subst hq
    simp only [detach, Function.update_self, (h.nodup q).mem_erase_iff, true_and]
    exact and_comm
  · simp [detach, hq]

theorem mem_children_splice {l : Links α} {p a q x : α} (hpa : p ≠ a) :
    x ∈ (l.splice p a).children q ↔
      (q ≠ a ∧ x ∈ l.children q) ∨ (q = p ∧ x ∈ l.children a) := by
  by_cases hqa : q = a
  · subst hqa
    simp [splice, hpa.symm]
  · by_cases hqp : q = p
    · subst hqp
      simp [splice, hqa]
    · simp [splice, hqa, hqp]

/-- When a node is taken out and its children move up, they are behind those that its parent
still has. -/
theorem children_detach_splice (l : Links α) {p a : α} (hpa : p ≠ a) (q : α) :
    ((l.detach p a).splice p a).children q =
      if q = a then [] else if q = p then (l.children p).erase a ++ l.children a
      else l.children q := by
  by_cases hqa : q = a
  · subst hqa
    simp [splice]
  · by_cases hqp : q = p
    · subst hqp
      simp [splice, detach, hqa, hpa.symm]
    · simp [splice, detach, hqa, hqp]

theorem parent_detach_splice (l : Links α) {p a : α} (hpa : p ≠ a) (c : α) :
    ((l.detach p a).splice p a).parent c = if c ∈ l.children a then some p else l.parent c := by
  simp only [splice, detach, Function.update_of_ne hpa.symm]

/-! ### Consistency -/

section Consistent

variable {l : Links α} (h : l.Consistent)

include h

theorem Consistent.attach {p c : α} (hc : ∀ q, c ∉ l.children q) : (l.attach p c).Consistent where
  parent_of_mem := by
    intro q x hx
    rcases mem_children_attach.mp hx with hmem | ⟨rfl, rfl⟩
    · have hne : x ≠ c := fun heq => hc q (heq ▸ hmem)
      simp [Links.attach, hne, h.parent_of_mem hmem]
    · simp [Links.attach]
  nodup := by
    intro q
    by_cases hq : q = p
    · subst hq
      simp only [Links.attach, Function.update_self]
      exact List.nodup_append.mpr ⟨h.nodup q, List.nodup_singleton c, by
        intro x hx y hy heq
        exact hc q (List.mem_singleton.mp hy ▸ heq ▸ hx)⟩
    · simp [Links.attach, hq, h.nodup q]

theorem Consistent.detach (p c : α) : (l.detach p c).Consistent where
  parent_of_mem := fun hx => h.parent_of_mem ((mem_children_detach h).mp hx).1
  nodup := by
    intro q
    by_cases hq : q = p
    · subst hq
      simp [Links.detach, (h.nodup q).erase c]
    · simp [Links.detach, hq, h.nodup q]

theorem Consistent.splice {p a : α} (hpa : p ≠ a) : (l.splice p a).Consistent where
  parent_of_mem := by
    intro q x hx
    rcases (mem_children_splice hpa).mp hx with ⟨hqa, hmem⟩ | ⟨rfl, hmem⟩
    · have hnot : x ∉ l.children a := by
        intro hxa
        have := (h.parent_of_mem hmem).symm.trans (h.parent_of_mem hxa)
        exact hqa (Option.some.inj this)
      simp [Links.splice, hnot, h.parent_of_mem hmem]
    · simp [Links.splice, hmem]
  nodup := by
    intro q
    by_cases hqa : q = a
    · subst hqa
      simp [Links.splice]
    by_cases hqp : q = p
    · subst hqp
      simp only [Links.splice, Function.update_of_ne hqa, Function.update_self]
      refine List.nodup_append.mpr ⟨h.nodup q, h.nodup a, ?_⟩
      intro x hx y hy heq
      have := (h.parent_of_mem hx).symm.trans (h.parent_of_mem (heq ▸ hy))
      exact hpa (Option.some.inj this)
    · simp [Links.splice, hqa, hqp, h.nodup q]

theorem Consistent.not_mem_detach {p c : α} (hp : l.parent c = some p) (q : α) :
    c ∉ (l.detach p c).children q := by
  intro hc
  obtain ⟨hmem, hnot⟩ := (mem_children_detach h).mp hc
  have hq : p = q := Option.some.inj (hp.symm.trans (h.parent_of_mem hmem))
  exact hnot ⟨hq.symm, rfl⟩

omit [DecidableEq α] in
/-- What is found from the root hangs below another node, or is the root. -/
theorem Consistent.parent_ne_self {root a : α} (hroot : l.parent root = none)
    (ha : l.Reachable root a) : l.parent a ≠ some a := by
  induction ha with
  | root =>
      rw [hroot]
      exact nofun
  | @child p c _ hc ih =>
      intro hself
      obtain rfl : p = c := Option.some.inj ((h.parent_of_mem hc).symm.trans hself)
      exact ih hself

omit [DecidableEq α] in
/-- The parent of what is found from the root is found as well, and has it in its list. -/
theorem Consistent.parent_reachable {root a p : α} (hroot : l.parent root = none)
    (ha : l.Reachable root a) (hp : l.parent a = some p) : l.Reachable root p ∧ a ∈ l.children p := by
  cases ha with
  | root =>
      rw [hroot] at hp
      cases hp
  | child hq hc =>
      obtain rfl := Option.some.inj ((h.parent_of_mem hc).symm.trans hp)
      exact ⟨hq, hc⟩

/-- A node without children is taken out: the others are found as before. -/
theorem Consistent.reachable_detach_leaf {root p a : α} (hp : l.parent a = some p)
    (hroot : root ≠ a) (hnil : l.children a = []) (b : α) :
    (l.detach p a).Reachable root b ↔ l.Reachable root b ∧ b ≠ a := by
  constructor
  · intro hb
    induction hb with
    | root => exact ⟨.root, hroot⟩
    | @child q c _ hc ih =>
        refine ⟨.child ih.1 ((mem_children_detach h).mp hc).1, ?_⟩
        rintro rfl
        exact h.not_mem_detach hp q hc
  · rintro ⟨hb, hne⟩
    induction hb with
    | root => exact .root
    | @child q c _ hc ih =>
        have hq : q ≠ a := by
          rintro rfl
          rw [hnil] at hc
          cases hc
        exact .child (ih hq) ((mem_children_detach h).mpr ⟨hc, fun hx => hne hx.2⟩)

theorem Consistent.not_reachable_of_detach {m : Links α} {root p a c : α}
    (hp : l.parent a = some p) (hroot : l.parent root = none)
    (hsub : ∀ q, (m.children q).Sublist ((l.detach p a).children q)) (hc : c ∈ l.children a) :
    ¬ m.Reachable root c := by
  have hpred : ∀ {x}, m.Reachable root x → x ≠ root →
      ∃ q, m.Reachable root q ∧ x ∈ (l.detach p a).children q := by
    intro x hx hne
    cases hx with
    | root => exact absurd rfl hne
    | child hq hmem => exact ⟨_, hq, (hsub _).subset hmem⟩
  intro hreach
  have hcroot : c ≠ root := by
    rintro rfl
    rw [h.parent_of_mem hc] at hroot
    cases hroot
  obtain ⟨q, hq, hmem⟩ := hpred hreach hcroot
  have hqa : q = a := Option.some.inj
    ((h.parent_of_mem ((mem_children_detach h).mp hmem).1).symm.trans (h.parent_of_mem hc))
  subst hqa
  have hqroot : q ≠ root := by
    rintro rfl
    rw [hp] at hroot
    cases hroot
  obtain ⟨r, -, hmem'⟩ := hpred hq hqroot
  exact h.not_mem_detach hp r hmem'

end Consistent

/-! ### Nodes that hang below a living one -/

section Attached

variable [Preorder α] {l : Links α} {live : α → Prop} {p a c : α}

omit [DecidableEq α] in
theorem AttachedTo.imp {live' : α → Prop} (h : l.AttachedTo live c)
    (himp : ∀ q, live q → live' q) : l.AttachedTo live' c := by
  obtain ⟨q, hlive, hparent, hmem, hlt⟩ := h
  exact ⟨q, himp q hlive, hparent, hmem, hlt⟩

theorem attachedTo_attach_self (hp : live p) (hlt : p < c) : (l.attach p c).AttachedTo live c := by
  refine ⟨p, hp, ?_, mem_children_attach.mpr (Or.inr ⟨rfl, rfl⟩), hlt⟩
  simp [attach]

theorem AttachedTo.attach (h : l.AttachedTo live c) (hne : c ≠ a) :
    (l.attach p a).AttachedTo live c := by
  obtain ⟨q, hlive, hparent, hmem, hlt⟩ := h
  refine ⟨q, hlive, ?_, mem_children_attach.mpr (Or.inl hmem), hlt⟩
  simp [Links.attach, hne, hparent]

theorem AttachedTo.detach (hl : l.Consistent) (h : l.AttachedTo live c) (hne : c ≠ a)
    (ha : l.children a = []) : (l.detach p a).AttachedTo (fun q => live q ∧ q ≠ a) c := by
  obtain ⟨q, hlive, hparent, hmem, hlt⟩ := h
  have hqa : q ≠ a := by
    rintro rfl
    rw [ha] at hmem
    cases hmem
  exact ⟨q, ⟨hlive, hqa⟩, hparent, (mem_children_detach hl).mpr ⟨hmem, fun hx => hne hx.2⟩, hlt⟩

theorem AttachedTo.splice (hl : l.Consistent) (h : l.AttachedTo live c) (hne : c ≠ a)
    (ha : l.AttachedTo live a) (hp : l.parent a = some p) :
    ((l.detach p a).splice p a).AttachedTo (fun q => live q ∧ q ≠ a) c := by
  obtain ⟨p', hlivep, hparenta, -, hpa⟩ := ha
  obtain rfl : p' = p := Option.some.inj (hparenta.symm.trans hp)
  obtain ⟨q, hlive, hparent, hmem, hlt⟩ := h
  have hmem' : c ∈ (l.detach p' a).children q :=
    (mem_children_detach hl).mpr ⟨hmem, fun hx => hne hx.2⟩
  by_cases hqa : q = a
  · subst hqa
    refine ⟨p', ⟨hlivep, hpa.ne⟩, ?_, (mem_children_splice hpa.ne).mpr (Or.inr ⟨rfl, hmem'⟩),
      hpa.trans hlt⟩
    simp [Links.splice, hmem']
  · have hnot : c ∉ (l.detach p' a).children a := by
      intro hca
      have hparenta := hl.parent_of_mem ((mem_children_detach hl).mp hca).1
      exact hqa (Option.some.inj (hparent.symm.trans hparenta))
    refine ⟨q, ⟨hlive, hqa⟩, ?_, (mem_children_splice hpa.ne).mpr (Or.inl ⟨hqa, hmem'⟩), hlt⟩
    simp only [Links.splice, if_neg hnot]
    exact hparent

end Attached

/-! ### Going up -/

section Up

variable {l l' : Links α} {a c p root : α}

omit [DecidableEq α]

/-- `p` is found from `c`, going up. -/
def Up (l : Links α) : α → α → Prop := Relation.ReflTransGen fun c p => l.parent c = some p

/-- No node is above itself. -/
def Acyclic (l : Links α) : Prop := ∀ a, ¬ Relation.TransGen (fun c p => l.parent c = some p) a a

/-- There is a depth for every node, which grows on the way down. -/
def Graded (l : Links α) : Prop :=
  ∃ depth : α → ℕ, ∀ c p, l.parent c = some p → depth p < depth c

theorem Graded.acyclic (h : l.Graded) : l.Acyclic := by
  obtain ⟨depth, hdepth⟩ := h
  intro a ha
  have hlt : ∀ b, Relation.TransGen (fun c p => l.parent c = some p) a b → depth b < depth a := by
    intro b hb
    induction hb with
    | single hp => exact hdepth _ _ hp
    | tail _ hp ih => exact (hdepth _ _ hp).trans ih
  exact Nat.lt_irrefl _ (hlt a ha)

theorem up_iff_of_parent (hp : l.parent c = some p) : l.Up c a ↔ c = a ∨ l.Up p a := by
  constructor
  · intro h
    rcases Relation.ReflTransGen.cases_head h with rfl | ⟨q, hq, hup⟩
    · exact Or.inl rfl
    · obtain rfl : p = q := Option.some.inj (hp.symm.trans hq)
      exact Or.inr hup
  · rintro (rfl | h)
    · exact .refl
    · exact .head hp h

theorem up_iff_of_top (hp : l.parent c = none) : l.Up c a ↔ c = a := by
  constructor
  · intro h
    rcases Relation.ReflTransGen.cases_head h with rfl | ⟨q, hq, -⟩
    · rfl
    · rw [hp] at hq
      cases hq
  · rintro rfl
    exact .refl

theorem not_up_of_leaf (hleaf : ∀ x, l.parent x ≠ some c) (hne : p ≠ c) : ¬ l.Up p c := by
  intro h
  rcases Relation.ReflTransGen.cases_tail h with heq | ⟨x, -, hx⟩
  · exact hne heq.symm
  · exact hleaf x hx

/-- A node gets a parent that is not below it. The nodes below it sink with it. -/
theorem Graded.update [DecidableEq α] (h : l.Graded) (hnot : ¬ l.Up p c)
    (hl' : l'.parent = Function.update l.parent c (some p)) : l'.Graded := by
  classical
  obtain ⟨depth, hdepth⟩ := h
  refine ⟨fun x => if l.Up x c then depth x + depth p + 1 else depth x, ?_⟩
  intro x q hx
  rw [hl'] at hx
  by_cases hxc : x = c
  · subst hxc
    rw [Function.update_self] at hx
    obtain rfl := Option.some.inj hx
    have hself : l.Up x x := .refl
    simp only [if_neg hnot, if_pos hself]
    omega
  · rw [Function.update_of_ne hxc] at hx
    have hlt := hdepth x q hx
    have hup : l.Up x c ↔ l.Up q c := by
      rw [up_iff_of_parent hx]
      exact or_iff_right hxc
    by_cases hq : l.Up q c
    · simp only [hup, hq, if_true]
      omega
    · simp only [hup, hq, if_false]
      exact hlt

end Up

/-! ### Forests of living nodes -/

/-- A node is taken out of the list of its parent, if it has one. -/
def release (l : Links α) (c : α) : Links α :=
  match l.parent c with
  | some p => l.detach p c
  | none => l

/-- A node is moved below `p`, behind the children that are there. -/
def move (l : Links α) (p c : α) : Links α := (l.release c).attach p c

theorem release_parent (l : Links α) (c : α) : (l.release c).parent = l.parent := by
  unfold release
  split <;> rfl

theorem move_parent (l : Links α) (p c : α) :
    (l.move p c).parent = Function.update l.parent c (some p) := by
  rw [move, attach, release_parent]

theorem mem_children_release {l : Links α} (h : l.Consistent) {c q x : α} :
    x ∈ (l.release c).children q ↔ x ∈ l.children q ∧ x ≠ c := by
  unfold release
  split
  · next p hp =>
      rw [mem_children_detach h]
      constructor
      · rintro ⟨hx, hnot⟩
        refine ⟨hx, ?_⟩
        rintro rfl
        exact hnot ⟨Option.some.inj ((h.parent_of_mem hx).symm.trans hp), rfl⟩
      · rintro ⟨hx, hne⟩
        exact ⟨hx, fun hqx => hne hqx.2⟩
  · next hp =>
      refine ⟨fun hx => ⟨hx, ?_⟩, fun hx => hx.1⟩
      rintro rfl
      rw [h.parent_of_mem hx] at hp
      cases hp

theorem Consistent.release {l : Links α} (h : l.Consistent) (c : α) : (l.release c).Consistent := by
  unfold Links.release
  split
  · exact h.detach _ c
  · exact h

omit [DecidableEq α] in
/-- A living node is in the list of its parent, in no other, and there once; what is in a
list lives, and so does whose list it is; no way up comes back. -/
structure WellFormed (l : Links α) (live : α → Prop) : Prop where
  consistent : l.Consistent
  graded : l.Graded
  live_of_mem : ∀ {p c}, c ∈ l.children p → live p ∧ live c
  mem_of_parent : ∀ {p c}, live c → l.parent c = some p → c ∈ l.children p

section WellFormed

variable {l : Links α} {live : α → Prop} {a c p root : α} (h : l.WellFormed live)

include h

theorem WellFormed.count (hc : live c) (p : α) :
    (l.children p).count c = if l.parent c = some p then 1 else 0 := by
  rw [(h.consistent.nodup p).count]
  by_cases hp : l.parent c = some p
  · rw [if_pos hp, if_pos (h.mem_of_parent hc hp)]
  · rw [if_neg hp, if_neg fun hmem => hp (h.consistent.parent_of_mem hmem)]

omit [DecidableEq α] in
theorem WellFormed.live_parent (hc : live c) (hp : l.parent c = some p) : live p :=
  (h.live_of_mem (h.mem_of_parent hc hp)).1

omit [DecidableEq α] in
theorem WellFormed.live_of_up (hc : live c) (hup : l.Up c a) : live a := by
  induction hup with
  | refl => exact hc
  | tail _ hp ih => exact h.live_parent ih hp

omit [DecidableEq α] in
/-- The way up from a living node ends at a living one without parent. -/
theorem WellFormed.exists_top (ha : live a) :
    ∃ top, live top ∧ l.parent top = none ∧ l.Up a top := by
  obtain ⟨depth, hdepth⟩ := h.graded
  induction hn : depth a using Nat.strong_induction_on generalizing a with
  | _ n ih =>
      cases hp : l.parent a with
      | none => exact ⟨a, ha, hp, .refl⟩
      | some p =>
          have hlt : depth p < n := hn ▸ hdepth a p hp
          obtain ⟨top, hlive, htop, hup⟩ := ih (depth p) hlt (h.live_parent ha hp) rfl
          exact ⟨top, hlive, htop, (up_iff_of_parent hp).mpr (Or.inr hup)⟩

omit [DecidableEq α] in
/-- All living nodes are below one node if and only if that is the only one without parent. -/
theorem WellFormed.up_iff_only_top (root : α) :
    (∀ a, live a → l.Up a root) ↔ ∀ a, live a → l.parent a = none → a = root := by
  constructor
  · intro hup a ha htop
    exact (up_iff_of_top htop).mp (hup a ha)
  · intro honly a ha
    obtain ⟨top, hlive, htop, hup⟩ := h.exists_top ha
    exact honly top hlive htop ▸ hup

omit [DecidableEq α] in
theorem WellFormed.congr {live' : α → Prop} (hlive : ∀ x, live' x ↔ live x) :
    l.WellFormed live' := by
  obtain rfl : live' = live := funext fun x => propext (hlive x)
  exact h

omit [DecidableEq α] in
theorem WellFormed.add (hp : l.parent c = none) : l.WellFormed fun x => live x ∨ x = c where
  consistent := h.consistent
  graded := h.graded
  live_of_mem := fun hmem => ⟨Or.inl (h.live_of_mem hmem).1, Or.inl (h.live_of_mem hmem).2⟩
  mem_of_parent := by
    rintro q x (hx | rfl) hq
    · exact h.mem_of_parent hx hq
    · rw [hp] at hq
      cases hq

theorem WellFormed.attach (hc : ¬ live c) (hleaf : ∀ x, l.parent x ≠ some c) (hp : live p) :
    (l.attach p c).WellFormed fun x => live x ∨ x = c where
  consistent := h.consistent.attach fun q hmem => hc (h.live_of_mem hmem).2
  graded := h.graded.update (not_up_of_leaf hleaf fun heq => hc (heq ▸ hp)) rfl
  live_of_mem := by
    intro q x hx
    rcases mem_children_attach.mp hx with hmem | ⟨rfl, rfl⟩
    · exact ⟨Or.inl (h.live_of_mem hmem).1, Or.inl (h.live_of_mem hmem).2⟩
    · exact ⟨Or.inl hp, Or.inr rfl⟩
  mem_of_parent := by
    intro q x hx hq
    by_cases hxc : x = c
    · subst hxc
      simp only [Links.attach, Function.update_self] at hq
      exact mem_children_attach.mpr (Or.inr ⟨(Option.some.inj hq).symm, rfl⟩)
    · simp only [Links.attach, Function.update_of_ne hxc] at hq
      exact mem_children_attach.mpr (Or.inl (h.mem_of_parent (hx.resolve_right hxc) hq))

theorem WellFormed.attachUnder (hc : ¬ live c) (hleaf : ∀ x, l.parent x ≠ some c)
    (htop : l.parent c = none) {parent : Option α} (hparent : ∀ p, parent = some p → live p) :
    (l.attachUnder parent c).WellFormed fun x => live x ∨ x = c := by
  cases parent with
  | none => exact h.add htop
  | some p => exact h.attach hc hleaf (hparent p rfl)

theorem WellFormed.move (hc : live c) (hp : live p) (hnot : ¬ l.Up p c) :
    (l.move p c).WellFormed live where
  consistent := by
    apply (h.consistent.release c).attach
    intro q hmem
    exact ((mem_children_release h.consistent).mp hmem).2 rfl
  graded := h.graded.update hnot (l.move_parent p c)
  live_of_mem := by
    intro q x hx
    rcases mem_children_attach.mp hx with hmem | ⟨rfl, rfl⟩
    · exact h.live_of_mem ((mem_children_release h.consistent).mp hmem).1
    · exact ⟨hp, hc⟩
  mem_of_parent := by
    intro q x hx hq
    by_cases hxc : x = c
    · subst hxc
      rw [move_parent, Function.update_self] at hq
      exact mem_children_attach.mpr (Or.inr ⟨(Option.some.inj hq).symm, rfl⟩)
    · rw [move_parent, Function.update_of_ne hxc] at hq
      have hmem := (mem_children_release h.consistent).mpr ⟨h.mem_of_parent hx hq, hxc⟩
      exact mem_children_attach.mpr (Or.inl hmem)

omit [DecidableEq α] in
theorem WellFormed.ne_parent (hp : l.parent a = some p) : p ≠ a := by
  rintro rfl
  exact h.graded.acyclic p (.single hp)

theorem WellFormed.discard (ha : live a) (hp : l.parent a = some p) :
    ((l.detach p a).splice p a).WellFormed fun x => live x ∧ x ≠ a := by
  have hpa := h.ne_parent hp
  have hdetach := h.consistent.detach p a
  have hmem : ∀ {q x}, x ∈ (l.detach p a).children q ↔ x ∈ l.children q ∧ x ≠ a := by
    intro q x
    rw [mem_children_detach h.consistent]
    refine and_congr_right fun hx => not_congr ⟨fun hqx => hqx.2, ?_⟩
    rintro rfl
    exact ⟨Option.some.inj ((h.consistent.parent_of_mem hx).symm.trans hp), rfl⟩
  have hlive : ∀ {q x}, x ∈ l.children q → x ≠ a → live x ∧ x ≠ a :=
    fun hx hne => ⟨(h.live_of_mem hx).2, hne⟩
  have hlivep : live p ∧ p ≠ a := ⟨h.live_parent ha hp, hpa⟩
  refine ⟨hdetach.splice hpa, ?_, ?_, ?_⟩
  · -- the depths stay as they are
    obtain ⟨depth, hdepth⟩ := h.graded
    refine ⟨depth, fun x q hx => ?_⟩
    have hx' : (if x ∈ (l.detach p a).children a then some p else l.parent x) = some q := hx
    split at hx'
    · next hxa =>
        obtain rfl := Option.some.inj hx'
        have hxa' := h.consistent.parent_of_mem (hmem.mp hxa).1
        exact (hdepth a p hp).trans (hdepth x a hxa')
    · exact hdepth x q hx'
  · intro q x hx
    rcases (mem_children_splice hpa).mp hx with ⟨hqa, hx⟩ | ⟨rfl, hx⟩
    · obtain ⟨hx, hne⟩ := hmem.mp hx
      exact ⟨⟨(h.live_of_mem hx).1, hqa⟩, hlive hx hne⟩
    · obtain ⟨hx, hne⟩ := hmem.mp hx
      exact ⟨hlivep, hlive hx hne⟩
  · rintro q x ⟨hx, hne⟩ hq
    have hq' : (if x ∈ (l.detach p a).children a then some p else l.parent x) = some q := hq
    split at hq'
    · next hxa =>
        obtain rfl := Option.some.inj hq'
        exact (mem_children_splice hpa).mpr (Or.inr ⟨rfl, hxa⟩)
    · next hxa =>
        have hxq := hmem.mpr ⟨h.mem_of_parent hx hq', hne⟩
        refine (mem_children_splice hpa).mpr (Or.inl ⟨?_, hxq⟩)
        rintro rfl
        exact hxa hxq

end WellFormed

end Links

end AxiomDaemon.Lib

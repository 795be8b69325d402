import Mathlib.Data.List.Nodup
import Mathlib.Data.List.Perm.Subperm
import Mathlib.Logic.Function.Basic

/-!
Doubly linked lists in a memory of cells.

A cell has an address, and its links are the addresses of its neighbours. The
list that begins at a pointer is described by the addresses and values of its
cells in order; what an operation does to the cells of the memory is compared
with what it does to that description.
-/

namespace AxiomDaemon.Lib.LinkedList

structure Cell (α : Type*) where
  prev : Option ℕ
  next : Option ℕ
  value : α

abbrev Memory (α : Type*) := ℕ → Option (Cell α)

section Operations

variable {α : Type*}

def setPrev (memory : Memory α) (p prev : Option ℕ) : Memory α :=
  match p with
  | none => memory
  | some a => Function.update memory a ((memory a).map fun cell => { cell with prev })

def setNext (memory : Memory α) (p next : Option ℕ) : Memory α :=
  match p with
  | none => memory
  | some a => Function.update memory a ((memory a).map fun cell => { cell with next })

def modifyValue (memory : Memory α) (a : ℕ) (f : α → α) : Memory α :=
  Function.update memory a ((memory a).map fun cell => { cell with value := f cell.value })

/-- A new cell at `a` in front of the list that begins at `head`. -/
def pushFront (memory : Memory α) (a : ℕ) (value : α) (head : Option ℕ) : Memory α :=
  setPrev (Function.update memory a (some { prev := none, next := head, value })) head (some a)

/-- The neighbours of the cell at `a` are linked with each other, and the cell is freed. -/
def unlink (memory : Memory α) (a : ℕ) : Memory α :=
  match memory a with
  | none => memory
  | some cell =>
      Function.update (setNext (setPrev memory cell.next cell.prev) cell.prev cell.next) a none

/-- The address of the first cell whose value passes the test. -/
def findCell (memory : Memory α) (test : α → Bool) : (fuel : ℕ) → Option ℕ → Option ℕ
  | 0, _ => none
  | _, none => none
  | fuel + 1, some a =>
      match memory a with
      | none => none
      | some cell => if test cell.value then some a else findCell memory test fuel cell.next

/-- The values of the cells from a pointer on. -/
def values (memory : Memory α) : (fuel : ℕ) → Option ℕ → List α
  | 0, _ => []
  | _, none => []
  | fuel + 1, some a =>
      match memory a with
      | none => []
      | some cell => cell.value :: values memory fuel cell.next

/-- From `p` on the memory has the cells `l`, the first of which points back to
`prev`. -/
def Linked (memory : Memory α) : (prev p : Option ℕ) → List (ℕ × α) → Prop
  | _, p, [] => p = none
  | prev, p, (a, value) :: l =>
      p = some a ∧ ∃ next, memory a = some { prev, next, value } ∧ Linked memory (some a) next l

/-- The address of the first cell. -/
def headOf (l : List (ℕ × α)) : Option ℕ := (l.map Prod.fst).head?

end Operations

section Lists

variable {α : Type*} {memory memory' : Memory α} {prev p : Option ℕ} {l l₁ l₂ : List (ℕ × α)}
  {a : ℕ} {value : α}

@[simp] theorem headOf_nil : headOf ([] : List (ℕ × α)) = none := rfl

@[simp] theorem headOf_cons : headOf ((a, value) :: l) = some a := rfl

theorem Linked.head (h : Linked memory prev p l) : p = headOf l := by
  cases l with
  | nil => exact h
  | cons e l => exact h.1

theorem linked_cons : Linked memory prev p ((a, value) :: l) ↔
    p = some a ∧ memory a = some { prev, next := headOf l, value } ∧
      Linked memory (some a) (headOf l) l := by
  constructor
  · rintro ⟨hp, next, hcell, hl⟩
    obtain rfl := hl.head
    exact ⟨hp, hcell, hl⟩
  · rintro ⟨hp, hcell, hl⟩
    exact ⟨hp, _, hcell, hl⟩

theorem Linked.congr (h : Linked memory prev p l)
    (hsame : ∀ a ∈ l.map Prod.fst, memory' a = memory a) : Linked memory' prev p l := by
  induction l generalizing prev p with
  | nil => exact h
  | cons e l ih =>
      obtain ⟨a, value⟩ := e
      obtain ⟨hp, hcell, hl⟩ := linked_cons.mp h
      refine linked_cons.mpr ⟨hp, ?_, ih hl fun b hb => hsame b (List.mem_cons_of_mem _ hb)⟩
      rw [hsame a List.mem_cons_self, hcell]

theorem Linked.cell (h : Linked memory prev p l) (hmem : (a, value) ∈ l) :
    ∃ cell, memory a = some cell ∧ cell.value = value := by
  induction l generalizing prev p with
  | nil => cases hmem
  | cons e l ih =>
      obtain ⟨b, value'⟩ := e
      obtain ⟨-, hcell, hl⟩ := linked_cons.mp h
      rcases List.mem_cons.mp hmem with heq | hmem
      · obtain ⟨rfl, rfl⟩ := Prod.mk.inj heq
        exact ⟨_, hcell, rfl⟩
      · exact ih hl hmem

/-! ### Walking -/

theorem Linked.values_eq (h : Linked memory prev p l) {fuel : ℕ} (hfuel : l.length ≤ fuel) :
    values memory fuel p = l.map Prod.snd := by
  induction l generalizing prev p fuel with
  | nil =>
      obtain rfl : p = none := h
      cases fuel <;> rfl
  | cons e l ih =>
      obtain ⟨a, value⟩ := e
      obtain ⟨rfl, hcell, hl⟩ := linked_cons.mp h
      cases fuel with
      | zero => cases hfuel
      | succ fuel =>
          rw [values]
          simp only [hcell]
          rw [ih hl (Nat.le_of_succ_le_succ hfuel), List.map_cons]

theorem Linked.findCell_eq (h : Linked memory prev p l) (test : α → Bool) {fuel : ℕ}
    (hfuel : l.length ≤ fuel) :
    findCell memory test fuel p = (l.find? fun e => test e.2).map Prod.fst := by
  induction l generalizing prev p fuel with
  | nil =>
      obtain rfl : p = none := h
      cases fuel <;> rfl
  | cons e l ih =>
      obtain ⟨a, value⟩ := e
      obtain ⟨rfl, hcell, hl⟩ := linked_cons.mp h
      cases fuel with
      | zero => cases hfuel
      | succ fuel =>
          rw [findCell]
          simp only [hcell, List.find?_cons]
          cases htest : test value with
          | true => rfl
          | false =>
              simp only [Bool.false_eq_true, if_false]
              exact ih hl (Nat.le_of_succ_le_succ hfuel)

/-! ### Changing a value -/

@[simp] theorem modifyValue_of_ne {b : ℕ} (h : b ≠ a) (f : α → α) :
    modifyValue memory a f b = memory b :=
  Function.update_of_ne h _ _

theorem modifyValue_self (memory : Memory α) (a : ℕ) (f : α → α) :
    modifyValue memory a f a = (memory a).map fun cell => { cell with value := f cell.value } :=
  Function.update_self ..

/-- The description of a list after the value at `a` was changed. -/
def withValue (l : List (ℕ × α)) (a : ℕ) (f : α → α) : List (ℕ × α) :=
  l.map fun e => (e.1, if e.1 = a then f e.2 else e.2)

@[simp] theorem map_fst_withValue (l : List (ℕ × α)) (a : ℕ) (f : α → α) :
    (withValue l a f).map Prod.fst = l.map Prod.fst := by
  rw [withValue, List.map_map]
  rfl

theorem Linked.modifyValue (h : Linked memory prev p l) (a : ℕ) (f : α → α) :
    Linked (modifyValue memory a f) prev p (withValue l a f) := by
  induction l generalizing prev p with
  | nil => exact h
  | cons e l ih =>
      obtain ⟨b, old⟩ := e
      obtain ⟨hp, hcell, hl⟩ := linked_cons.mp h
      have hhead : headOf (withValue l a f) = headOf l := by
        rw [headOf, map_fst_withValue, headOf]
      refine linked_cons.mpr ⟨hp, ?_, hhead.symm ▸ ih hl⟩
      rcases eq_or_ne b a with rfl | hne
      · rw [modifyValue_self, hcell, if_pos rfl]
        exact congrArg some (by rw [← hhead]; rfl)
      · rw [modifyValue_of_ne hne, hcell, if_neg hne]
        exact congrArg some (by rw [← hhead]; rfl)

/-! ### A new cell in front -/

theorem pushFront_of_ne {b : ℕ} (hb : b ≠ a) (hp : p ≠ some b) :
    pushFront memory a value p b = memory b := by
  cases p with
  | none => exact Function.update_of_ne hb _ _
  | some c =>
      have hc : b ≠ c := fun h => hp (congrArg some h.symm)
      rw [pushFront, setPrev, Function.update_of_ne hc, Function.update_of_ne hb]

theorem Linked.pushFront (h : Linked memory none p l) (hnodup : (l.map Prod.fst).Nodup)
    (ha : a ∉ l.map Prod.fst) (value : α) :
    Linked (pushFront memory a value p) none (some a) ((a, value) :: l) := by
  obtain rfl := h.head
  cases l with
  | nil => exact ⟨rfl, none, Function.update_self .., rfl⟩
  | cons e l =>
      obtain ⟨b, old⟩ := e
      obtain ⟨-, hcell, hl⟩ := linked_cons.mp h
      obtain ⟨hab, hal⟩ := not_or.mp (List.mem_cons.not.mp ha)
      obtain ⟨hbl, hl'⟩ := List.nodup_cons.mp hnodup
      refine linked_cons.mpr ⟨rfl, ?_, linked_cons.mpr ⟨rfl, ?_, hl.congr fun c hc => ?_⟩⟩
      · rw [LinkedList.pushFront, headOf_cons, setPrev, Function.update_of_ne hab,
          Function.update_self]
      · rw [LinkedList.pushFront, headOf_cons, setPrev, Function.update_self,
          Function.update_of_ne (Ne.symm hab), hcell]
        rfl
      · have hca : c ≠ a := fun h => hal (h ▸ hc)
        have hcb : c ≠ b := fun h => hbl (h ▸ hc)
        exact pushFront_of_ne hca fun h => hcb (Option.some.inj h).symm

/-! ### Removing a cell -/

theorem unlink_of_ne {cell : Cell α} (hcell : memory a = some cell) {b : ℕ} (hb : b ≠ a)
    (hnext : cell.next ≠ some b) (hprev : cell.prev ≠ some b) : unlink memory a b = memory b := by
  rw [unlink, hcell]
  simp only
  rw [Function.update_of_ne hb]
  have hfirst : setPrev memory cell.next cell.prev b = memory b := by
    cases hn : cell.next with
    | none => rfl
    | some c => exact Function.update_of_ne (fun h => hnext (hn.trans (congrArg some h.symm))) _ _
  cases hp : cell.prev with
  | none =>
      rw [setNext, ← hp]
      exact hfirst
  | some c =>
      rw [setNext, Function.update_of_ne fun h => hprev (hp.trans (congrArg some h.symm)), ← hp]
      exact hfirst

theorem unlink_next {cell : Cell α} (hcell : memory a = some cell) {b : ℕ} (hb : b ≠ a)
    (hnext : cell.next = some b) (hprev : cell.prev ≠ some b) :
    unlink memory a b = (memory b).map fun c => { c with prev := cell.prev } := by
  rw [unlink, hcell]
  simp only
  rw [Function.update_of_ne hb, hnext]
  cases hp : cell.prev with
  | none => exact Function.update_self ..
  | some c =>
      rw [setNext, Function.update_of_ne fun h => hprev (hp.trans (congrArg some h.symm))]
      exact Function.update_self ..

theorem unlink_prev {cell : Cell α} (hcell : memory a = some cell) {b : ℕ} (hb : b ≠ a)
    (hnext : cell.next ≠ some b) (hprev : cell.prev = some b) :
    unlink memory a b = (memory b).map fun c => { c with next := cell.next } := by
  rw [unlink, hcell]
  simp only
  rw [Function.update_of_ne hb, hprev, setNext, Function.update_self]
  cases hn : cell.next with
  | none => rfl
  | some c =>
      rw [setPrev, Function.update_of_ne fun h => hnext (hn.trans (congrArg some h.symm))]

theorem unlink_self {cell : Cell α} (hcell : memory a = some cell) : unlink memory a a = none := by
  rw [unlink, hcell]
  exact Function.update_self ..

/-- The neighbours of a cell of a list are cells of the list, or `prev`. -/
theorem Linked.neighbours (h : Linked memory prev p l) {cell : Cell α}
    (ha : a ∈ l.map Prod.fst) (hcell : memory a = some cell) :
    (∀ b, cell.next = some b → b ∈ l.map Prod.fst) ∧
      (∀ b, cell.prev = some b → prev = some b ∨ b ∈ l.map Prod.fst) := by
  induction l generalizing prev p with
  | nil => cases ha
  | cons e l ih =>
      obtain ⟨c, old⟩ := e
      obtain ⟨-, hc, hl⟩ := linked_cons.mp h
      rcases List.mem_cons.mp ha with rfl | hmem
      · obtain rfl := Option.some.inj (hcell.symm.trans hc)
        refine ⟨fun b hb => ?_, fun b hb => Or.inl hb⟩
        exact List.mem_cons_of_mem _ (List.mem_of_mem_head? hb)
      · obtain ⟨hnext, hprev⟩ := ih hl hmem
        refine ⟨fun b hb => List.mem_cons_of_mem _ (hnext b hb), fun b hb => Or.inr ?_⟩
        rcases hprev b hb with hcb | hbl
        · exact Option.some.inj hcb ▸ List.mem_cons_self
        · exact List.mem_cons_of_mem _ hbl

/-- The description of a list without the cell at `a`. -/
def without (l : List (ℕ × α)) (a : ℕ) : List (ℕ × α) := l.filter fun e => e.1 ≠ a

theorem without_eq_self (h : a ∉ l.map Prod.fst) : without l a = l := by
  refine List.filter_eq_self.mpr fun e he => decide_eq_true fun heq => h ?_
  exact heq ▸ List.mem_map_of_mem he

theorem Linked.unlink (h : Linked memory prev p l) (hnodup : (l.map Prod.fst).Nodup)
    (hprev : ∀ b, prev = some b → b ∉ l.map Prod.fst) (ha : a ∈ l.map Prod.fst) :
    Linked (unlink memory a) prev (headOf (without l a)) (without l a) := by
  induction l generalizing prev p with
  | nil => cases ha
  | cons e l ih =>
      obtain ⟨b, value⟩ := e
      obtain ⟨-, hb, hl⟩ := linked_cons.mp h
      obtain ⟨hbl, hl'⟩ := List.nodup_cons.mp hnodup
      rcases eq_or_ne b a with rfl | hne
      · have hwithout : without ((b, value) :: l) b = l := by
          rw [without, List.filter_cons_of_neg (by simp)]
          exact without_eq_self hbl
        rw [hwithout]
        cases l with
        | nil => rfl
        | cons e l =>
            obtain ⟨c, old⟩ := e
            obtain ⟨-, hc, hrest⟩ := linked_cons.mp hl
            obtain ⟨hbc, hbl⟩ := not_or.mp (List.mem_cons.not.mp hbl)
            obtain ⟨hcl, -⟩ := List.nodup_cons.mp hl'
            refine linked_cons.mpr ⟨rfl, ?_, hrest.congr fun d hd => ?_⟩
            · have hprevc : prev ≠ some c := fun h => hprev c h (by simp)
              rw [unlink_next hb (Ne.symm hbc) rfl hprevc, hc]
              rfl
            · have hdb : d ≠ b := fun h => hbl (h ▸ hd)
              have hdc : c ≠ d := fun h => hcl (h ▸ hd)
              refine unlink_of_ne hb hdb (fun h => hdc (Option.some.inj h)) fun h => ?_
              exact hprev d h (List.mem_cons_of_mem _ (List.mem_cons_of_mem _ hd))
      · have hal : a ∈ l.map Prod.fst := (List.mem_cons.mp ha).resolve_left (Ne.symm hne)
        have hwithout : without ((b, value) :: l) a = (b, value) :: without l a :=
          List.filter_cons_of_pos (by simpa using hne)
        have hl'' := ih hl hl' (fun c hc => Option.some.inj hc ▸ hbl) hal
        rw [hwithout]
        refine linked_cons.mpr ⟨rfl, ?_, hl''⟩
        cases l with
        | nil => cases hal
        | cons e l =>
            obtain ⟨c, old⟩ := e
            obtain ⟨-, hc, hrest⟩ := linked_cons.mp hl
            obtain ⟨hbc, hbl⟩ := not_or.mp (List.mem_cons.not.mp hbl)
            obtain ⟨hcl, -⟩ := List.nodup_cons.mp hl'
            rcases eq_or_ne c a with rfl | hca
            · have hrest' : without ((c, old) :: l) c = l := by
                rw [without, List.filter_cons_of_neg (by simp)]
                exact without_eq_self hcl
              have hnext : headOf l ≠ some b := fun h => hbl (List.mem_of_mem_head? h)
              rw [hrest', unlink_prev hc hne hnext rfl, hb]
              rfl
            · have hal : a ∈ l.map Prod.fst := (List.mem_cons.mp hal).resolve_left (Ne.symm hca)
              obtain ⟨⟨a', old'⟩, hmem, rfl⟩ := List.mem_map.mp hal
              obtain ⟨cell, hcell, -⟩ := hrest.cell hmem
              obtain ⟨hnext, hback⟩ := hrest.neighbours hal hcell
              have hhead : headOf (without ((c, old) :: l) a') = some c := by
                rw [without, List.filter_cons_of_pos (by simpa using hca), headOf_cons]
              rw [hhead, unlink_of_ne hcell hne (fun h => hbl (hnext b h)) fun h => ?_, hb]
              · rfl
              · rcases hback b h with hcb | hbl'
                · exact hbc (Option.some.inj hcb).symm
                · exact hbl hbl'

/-- Where the list begins after the cell at `a` was removed. -/
theorem Linked.headOf_without (h : Linked memory prev p l) (hnodup : (l.map Prod.fst).Nodup)
    {cell : Cell α} (hcell : memory a = some cell) :
    headOf (without l a) = if headOf l = some a then cell.next else headOf l := by
  cases l with
  | nil => rfl
  | cons e l =>
      obtain ⟨b, old⟩ := e
      obtain ⟨-, hb, -⟩ := linked_cons.mp h
      rw [headOf_cons]
      split
      · next heq =>
          obtain rfl := Option.some.inj heq
          rw [without, List.filter_cons_of_neg (by simp), ← without,
            without_eq_self (List.nodup_cons.mp hnodup).1]
          obtain rfl := Option.some.inj (hb.symm.trans hcell)
          rfl
      · next hne =>
          rw [without, List.filter_cons_of_pos (by simpa using hne), headOf_cons]

end Lists

/-! ### Several lists in one memory -/

/-- Lists that share no cell, and to which all cells belong. No address from `used`
on has ever been handed out. -/
structure Table {α : Type*} (memory : Memory α) (heads : ℕ → Option ℕ)
    (chain : ℕ → List (ℕ × α)) (used : ℕ) : Prop where
  linked : ∀ i, Linked memory none (heads i) (chain i)
  nodup : ∀ i, ((chain i).map Prod.fst).Nodup
  disjoint : ∀ i j a, a ∈ (chain i).map Prod.fst → a ∈ (chain j).map Prod.fst → i = j
  bounded : ∀ i, ∀ a ∈ (chain i).map Prod.fst, a < used
  owned : ∀ a cell, memory a = some cell → ∃ i, a ∈ (chain i).map Prod.fst

namespace Table

variable {α : Type*} {memory : Memory α} {heads : ℕ → Option ℕ} {chain : ℕ → List (ℕ × α)}
  {used : ℕ}

theorem empty : Table (fun _ => none : Memory α) (fun _ => none) (fun _ => []) 0 where
  linked _ := rfl
  nodup _ := List.nodup_nil
  disjoint _ _ _ h := by cases h
  bounded _ _ h := by cases h
  owned _ _ h := by cases h

theorem length_le (h : Table memory heads chain used) (i : ℕ) : (chain i).length ≤ used := by
  have hsub : (chain i).map Prod.fst ⊆ List.range used := fun a ha =>
    List.mem_range.mpr (h.bounded i a ha)
  have hle := (List.subperm_of_subset (h.nodup i) hsub).length_le
  rwa [List.length_map, List.length_range] at hle

theorem head_eq (h : Table memory heads chain used) (i : ℕ) : heads i = headOf (chain i) :=
  (h.linked i).head

theorem update (h : Table memory heads chain used) {memory' : Memory α} {i : ℕ} {head : Option ℕ}
    {l : List (ℕ × α)} {used' : ℕ} (hused : used ≤ used') (hlinked : Linked memory' none head l)
    (hnodup : (l.map Prod.fst).Nodup)
    (hnew : ∀ a ∈ l.map Prod.fst, a ∈ (chain i).map Prod.fst ∨ used ≤ a ∧ a < used')
    (hframe : ∀ j, j ≠ i → ∀ a ∈ (chain j).map Prod.fst, memory' a = memory a)
    (howned : ∀ a cell, memory' a = some cell →
      (∃ j, j ≠ i ∧ a ∈ (chain j).map Prod.fst) ∨ a ∈ l.map Prod.fst) :
    Table memory' (Function.update heads i head) (Function.update chain i l) used' where
  linked j := by
    rcases eq_or_ne j i with rfl | hj
    · rw [Function.update_self, Function.update_self]
      exact hlinked
    · rw [Function.update_of_ne hj, Function.update_of_ne hj]
      exact (h.linked j).congr (hframe j hj)
  nodup j := by
    rcases eq_or_ne j i with rfl | hj
    · rwa [Function.update_self]
    · rw [Function.update_of_ne hj]
      exact h.nodup j
  disjoint := by
    have hother : ∀ j, j ≠ i → ∀ a ∈ l.map Prod.fst, a ∉ (chain j).map Prod.fst := by
      intro j hj a ha haj
      rcases hnew a ha with hold | ⟨hle, -⟩
      · exact hj (h.disjoint j i a haj hold)
      · exact absurd (h.bounded j a haj) (Nat.not_lt.mpr hle)
    intro j k a hj hk
    rcases eq_or_ne j i with rfl | hji
    · rcases eq_or_ne k j with rfl | hkj
      · rfl
      · rw [Function.update_self] at hj
        rw [Function.update_of_ne hkj] at hk
        exact absurd hk (hother k hkj a hj)
    · rw [Function.update_of_ne hji] at hj
      rcases eq_or_ne k i with rfl | hki
      · rw [Function.update_self] at hk
        exact absurd hj (hother j hji a hk)
      · rw [Function.update_of_ne hki] at hk
        exact h.disjoint j k a hj hk
  bounded j a ha := by
    rcases eq_or_ne j i with rfl | hj
    · rw [Function.update_self] at ha
      rcases hnew a ha with hold | ⟨-, hlt⟩
      · exact Nat.lt_of_lt_of_le (h.bounded j a hold) hused
      · exact hlt
    · rw [Function.update_of_ne hj] at ha
      exact Nat.lt_of_lt_of_le (h.bounded j a ha) hused
  owned a cell ha := by
    rcases howned a cell ha with ⟨j, hj, hmem⟩ | hmem
    · exact ⟨j, by rwa [Function.update_of_ne hj]⟩
    · exact ⟨i, by rwa [Function.update_self]⟩

theorem notMem_used (h : Table memory heads chain used) (i : ℕ) :
    used ∉ (chain i).map Prod.fst := fun hmem => Nat.lt_irrefl _ (h.bounded i used hmem)

theorem pushFront (h : Table memory heads chain used) (i : ℕ) (value : α) :
    Table (LinkedList.pushFront memory used value (heads i))
      (Function.update heads i (some used)) (Function.update chain i ((used, value) :: chain i))
      (used + 1) := by
  have hframe : ∀ a, a ≠ used → a ∉ (chain i).map Prod.fst →
      LinkedList.pushFront memory used value (heads i) a = memory a := by
    intro a ha hmem
    refine pushFront_of_ne ha fun hhead => hmem ?_
    exact List.mem_of_mem_head? ((h.head_eq i).symm.trans hhead)
  refine h.update (Nat.le_succ used)
    ((h.linked i).pushFront (h.nodup i) (h.notMem_used i) value)
    (List.nodup_cons.mpr ⟨h.notMem_used i, h.nodup i⟩) (fun a ha => ?_) (fun j hj a ha => ?_)
    fun a cell ha => ?_
  · rcases List.mem_cons.mp ha with rfl | hmem
    · exact Or.inr ⟨Nat.le_refl _, Nat.lt_succ_self _⟩
    · exact Or.inl hmem
  · have hne : a ≠ used := fun heq => h.notMem_used j (heq ▸ ha)
    exact hframe a hne fun hmem => hj (h.disjoint j i a ha hmem)
  · by_cases hmem : a ∈ ((used, value) :: chain i).map Prod.fst
    · exact Or.inr hmem
    · obtain ⟨hne, hold⟩ := not_or.mp (List.mem_cons.not.mp hmem)
      rw [hframe a hne hold] at ha
      obtain ⟨j, hj⟩ := h.owned a cell ha
      exact Or.inl ⟨j, fun heq => hold (heq ▸ hj), hj⟩

theorem modifyValue (h : Table memory heads chain used) {i a : ℕ} (ha : a ∈ (chain i).map Prod.fst)
    (f : α → α) :
    Table (LinkedList.modifyValue memory a f) (Function.update heads i (heads i))
      (Function.update chain i (withValue (chain i) a f)) used := by
  have hframe : ∀ b, b ∉ (chain i).map Prod.fst → LinkedList.modifyValue memory a f b = memory b :=
    fun b hb => modifyValue_of_ne (fun heq : b = a => hb (heq ▸ ha)) f
  refine h.update (Nat.le_refl used) ((h.linked i).modifyValue a f) ?_ (fun b hb => Or.inl ?_)
    (fun j hj b hb => hframe b fun hmem => hj (h.disjoint j i b hb hmem)) fun b cell hb => ?_
  · rw [map_fst_withValue]
    exact h.nodup i
  · rwa [map_fst_withValue] at hb
  · rw [map_fst_withValue]
    by_cases hmem : b ∈ (chain i).map Prod.fst
    · exact Or.inr hmem
    · rw [hframe b hmem] at hb
      obtain ⟨j, hj⟩ := h.owned b cell hb
      exact Or.inl ⟨j, fun heq => hmem (heq ▸ hj), hj⟩

theorem unlink (h : Table memory heads chain used) {i a : ℕ} (ha : a ∈ (chain i).map Prod.fst)
    {cell : Cell α} (hcell : memory a = some cell) :
    Table (LinkedList.unlink memory a)
      (Function.update heads i (if heads i = some a then cell.next else heads i))
      (Function.update chain i (without (chain i) a)) used := by
  have hframe : ∀ b, b ∉ (chain i).map Prod.fst → LinkedList.unlink memory a b = memory b := by
    intro b hb
    obtain ⟨hnext, hprev⟩ := (h.linked i).neighbours ha hcell
    refine unlink_of_ne hcell (fun heq => hb (heq ▸ ha)) (fun heq => hb (hnext b heq)) fun heq => ?_
    rcases hprev b heq with hnone | hmem
    · cases hnone
    · exact hb hmem
  have hsub : ((without (chain i) a).map Prod.fst).Sublist ((chain i).map Prod.fst) :=
    List.filter_sublist.map Prod.fst
  rw [h.head_eq i, ← (h.linked i).headOf_without (h.nodup i) hcell]
  refine h.update (Nat.le_refl used) ((h.linked i).unlink (h.nodup i) (fun b hb => by cases hb) ha)
    (hsub.nodup (h.nodup i)) (fun b hb => Or.inl (hsub.subset hb))
    (fun j hj b hb => hframe b fun hmem => hj (h.disjoint j i b hb hmem)) fun b c hb => ?_
  by_cases hmem : b ∈ (chain i).map Prod.fst
  · refine Or.inr ?_
    obtain ⟨⟨b', value⟩, he, rfl⟩ := List.mem_map.mp hmem
    refine List.mem_map.mpr ⟨(b', value), List.mem_filter.mpr ⟨he, ?_⟩, rfl⟩
    refine decide_eq_true fun heq => ?_
    rw [show b' = a from heq, unlink_self hcell] at hb
    cases hb
  · rw [hframe b hmem] at hb
    obtain ⟨j, hj⟩ := h.owned b c hb
    exact Or.inl ⟨j, fun heq => hmem (heq ▸ hj), hj⟩

end Table

end AxiomDaemon.Lib.LinkedList

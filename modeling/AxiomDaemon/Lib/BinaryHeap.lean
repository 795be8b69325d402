import Mathlib.Data.List.Perm.Subperm

/-!
The binary heap of Go's `container/heap` on a list: `Init`, `Push` and `Pop`
by sifting up and down, in terms of a comparison that may be any relation.

What is needed of it here is that the operations move elements and do not
make them: each leaves a permutation of what it was given, one more or one
less. No order is needed for that, so the facts hold for comparisons that are
no order, such as those of floating point numbers.
-/

namespace AxiomDaemon.Lib

variable {α : Type*}

/-- Exchange two elements; out of bounds nothing happens. -/
def swapAt (l : List α) (i j : Nat) : List α :=
  if h : i < l.length ∧ j < l.length then
    (l.set i (l.get ⟨j, h.2⟩)).set j (l.get ⟨i, h.1⟩)
  else l

theorem swapAt_perm (l : List α) (i j : Nat) : (swapAt l i j).Perm l := by
  rw [swapAt]
  split
  · next h => exact List.set_set_perm h.1 h.2
  · exact List.Perm.refl l

/-- `h.Less(i, j)` for two positions. -/
def lessAt (less : α → α → Bool) (l : List α) (i j : Nat) : Bool :=
  match l[i]?, l[j]? with
  | some a, some b => less a b
  | _, _ => false

section Heap

variable (less : α → α → Bool)

/-- The lesser of the two children at `j1` and after it. -/
def lesserChild (n : Nat) (l : List α) (j1 : Nat) : Nat :=
  if decide (j1 + 1 < n) && lessAt less l (j1 + 1) j1 then j1 + 1 else j1

/-- `down`: sift the element at `i` down within the first `n`. The position
grows in every round, so `n` rounds are enough. -/
def heapDownLoop (n : Nat) : Nat → List α → Nat → List α
  | 0, l, _ => l
  | fuel + 1, l, i =>
      let j1 := 2 * i + 1
      if j1 ≥ n then l
      else
        let j := lesserChild less n l j1
        if !lessAt less l j i then l else heapDownLoop n fuel (swapAt l i j) j

def heapDown (l : List α) (i n : Nat) : List α := heapDownLoop less n n l i

/-- `up`: sift the element at `j` up. -/
def heapUpLoop : Nat → List α → Nat → List α
  | 0, l, _ => l
  | fuel + 1, l, j =>
      let i := (j - 1) / 2
      if i = j || !lessAt less l j i then l else heapUpLoop fuel (swapAt l i j) i

def heapUp (l : List α) (j : Nat) : List α := heapUpLoop less (j + 1) l j

def heapInit (l : List α) : List α :=
  (List.range (l.length / 2)).reverse.foldl (fun l' i => heapDown less l' i l.length) l

def heapPush (l : List α) (x : α) : List α := heapUp less (l ++ [x]) l.length

/-- `Pop`, without the element it returns. -/
def heapPop (l : List α) : List α :=
  (heapDown less (swapAt l 0 (l.length - 1)) 0 (l.length - 1)).dropLast

theorem heapDownLoop_perm (n fuel : Nat) (l : List α) (i : Nat) :
    (heapDownLoop less n fuel l i).Perm l := by
  induction fuel generalizing l i with
  | zero => exact List.Perm.refl l
  | succ fuel ih =>
      simp only [heapDownLoop]
      split
      · exact List.Perm.refl l
      · split
        · exact List.Perm.refl l
        · exact (ih _ _).trans (swapAt_perm l i _)

theorem heapUpLoop_perm (fuel : Nat) (l : List α) (j : Nat) :
    (heapUpLoop less fuel l j).Perm l := by
  induction fuel generalizing l j with
  | zero => exact List.Perm.refl l
  | succ fuel ih =>
      simp only [heapUpLoop]
      split
      · exact List.Perm.refl l
      · exact (ih _ _).trans (swapAt_perm l _ j)

theorem heapInit_perm (l : List α) : (heapInit less l).Perm l := by
  have hfold : ∀ (is : List Nat) (l' : List α),
      (is.foldl (fun l' i => heapDown less l' i l.length) l').Perm l' := by
    intro is
    induction is with
    | nil => exact fun l' => List.Perm.refl l'
    | cons i is ih => exact fun l' => (ih _).trans (heapDownLoop_perm less _ _ l' i)
  exact hfold _ l

theorem heapPush_perm (l : List α) (x : α) : (heapPush less l x).Perm (x :: l) :=
  (heapUpLoop_perm less _ _ _).trans (List.perm_append_singleton x l)

theorem heapPop_subperm (l : List α) : (heapPop less l).Subperm l := by
  have hdrop := (List.dropLast_sublist
    (heapDown less (swapAt l 0 (l.length - 1)) 0 (l.length - 1))).subperm
  exact hdrop.trans ((heapDownLoop_perm less _ _ _ _).trans (swapAt_perm l _ _)).subperm

theorem length_heapPush (l : List α) (x : α) : (heapPush less l x).length = l.length + 1 :=
  (heapPush_perm less l x).length_eq

theorem length_heapPop (l : List α) : (heapPop less l).length = l.length - 1 := by
  rw [heapPop, List.length_dropLast]
  congr 1
  exact ((heapDownLoop_perm less _ _ _ _).trans (swapAt_perm l _ _)).length_eq

end Heap

end AxiomDaemon.Lib

import AxiomDaemon.Lib.BinaryHeap
import Mathlib.Data.Nat.Log

/-!
The min-max heap, `util_minmax_heap.c`. Elements are numbered from 1: the
children of element `n` are `2n` and `2n + 1`, and the layers of the tree are
min and max layers in turn, starting with a min layer at the root. A heap
with a bound keeps no more elements than the bound and evicts its minimum
for a new element that is not smaller.

The list holds elements `1..used`, so `used` is its length. Growing the
memory block of an unbounded heap is left out.
-/

namespace AxiomDaemon.Util

open AxiomDaemon.Lib

variable {α : Type*}

structure NrMinmaxHeap (α : Type*) where
  bound : ℕ
  elements : List α
  deriving DecidableEq

/-- `compare_t`. -/
inductive CompareOp
  | lessThan
  | greaterThan
  deriving DecidableEq

namespace NrMinmaxHeap

def used (heap : NrMinmaxHeap α) : ℕ := heap.elements.length

def isMin (n : ℕ) : Bool := Nat.log2 n % 2 = 0

def parent (n : ℕ) : ℕ := n / 2

def firstChild (n : ℕ) : ℕ := n * 2

def secondChild (n : ℕ) : ℕ := n * 2 + 1

def swap (heap : NrMinmaxHeap α) (i j : ℕ) : NrMinmaxHeap α :=
  { heap with elements := swapAt heap.elements (i - 1) (j - 1) }

section Comparator

variable (comparator : α → α → ℤ)

/-- `compare`; the positions compared are always in use. -/
def compare (heap : NrMinmaxHeap α) (i j : ℕ) : ℤ :=
  match heap.elements[i - 1]?, heap.elements[j - 1]? with
  | some a, some b => comparator a b
  | _, _ => 0

def compareExpect (heap : NrMinmaxHeap α) (i j : ℕ) : CompareOp → Bool
  | .lessThan => compare comparator heap i j < 0
  | .greaterThan => compare comparator heap i j > 0

/-- `bubbleup_minmax`. The position is divided by four in every round, so the
position itself is enough fuel. -/
def bubbleupMinmax : (fuel : ℕ) → NrMinmaxHeap α → ℕ → CompareOp → NrMinmaxHeap α
  | 0, heap, _, _ => heap
  | fuel + 1, heap, i, op =>
      let grandparent := parent (parent i)
      if grandparent = 0 then heap
      else if compareExpect comparator heap i grandparent op then
        bubbleupMinmax fuel (heap.swap i grandparent) grandparent op
      else heap

def bubbleupMin (heap : NrMinmaxHeap α) (i : ℕ) : NrMinmaxHeap α :=
  bubbleupMinmax comparator i heap i .lessThan

def bubbleupMax (heap : NrMinmaxHeap α) (i : ℕ) : NrMinmaxHeap α :=
  bubbleupMinmax comparator i heap i .greaterThan

def bubbleup (heap : NrMinmaxHeap α) (i : ℕ) : NrMinmaxHeap α :=
  let p := parent i
  if p = 0 then heap
  else if isMin i then
    if compare comparator heap i p > 0 then bubbleupMax comparator (heap.swap i p) p
    else bubbleupMin comparator heap i
  else
    if compare comparator heap i p < 0 then bubbleupMin comparator (heap.swap i p) p
    else bubbleupMax comparator heap i

/-- One of the five tests of `index_minmax_child_grandchild` that may replace
the best position so far. -/
def betterIndex (heap : NrMinmaxHeap α) (op : CompareOp) (idx : Option ℕ) (c : ℕ) : Option ℕ :=
  match idx with
  | none => none
  | some i =>
      if c ≤ heap.used && compareExpect comparator heap c i op then some c else some i

/-- The least or greatest child or grandchild; `none` is the index `-1`, and
then no later position is in use either. -/
def indexMinmaxChildGrandchild (heap : NrMinmaxHeap α) (i : ℕ) (op : CompareOp) : Option ℕ :=
  let a := firstChild i
  let b := secondChild i
  let idx := if a ≤ heap.used then some a else none
  [b, firstChild a, secondChild a, firstChild b, secondChild b].foldl
    (betterIndex comparator heap op) idx

/-- `trickledown_minmax`. The position at least doubles in every round, so the
number of elements is enough fuel. -/
def trickledownMinmax : (fuel : ℕ) → NrMinmaxHeap α → ℕ → CompareOp → NrMinmaxHeap α
  | 0, heap, _, _ => heap
  | fuel + 1, heap, i, op =>
      match indexMinmaxChildGrandchild comparator heap i op with
      | none => heap
      | some m =>
          if m > secondChild i then
            if compareExpect comparator heap m i op then
              let heap := heap.swap i m
              let heap :=
                if !compareExpect comparator heap m (parent m) op then heap.swap m (parent m)
                else heap
              trickledownMinmax fuel heap m op
            else heap
          else if compareExpect comparator heap m i op then heap.swap i m
          else heap

def trickledown (heap : NrMinmaxHeap α) (i : ℕ) : NrMinmaxHeap α :=
  if isMin i then trickledownMinmax comparator heap.used heap i .lessThan
  else trickledownMinmax comparator heap.used heap i .greaterThan

end Comparator

end NrMinmaxHeap

open NrMinmaxHeap

/-- `nr_minmax_heap_create`; a bound of 0 is no bound. -/
def nrMinmaxHeapCreate (bound : ℤ) : Option (NrMinmaxHeap α) :=
  if bound = 1 ∨ bound < 0 then none else some { bound := bound.toNat, elements := [] }

def nrMinmaxHeapPeekMin (heap : NrMinmaxHeap α) : Option α := heap.elements[0]?

/-- `nr_minmax_heap_pop_min`, without the element it returns. -/
def nrMinmaxHeapPopMin (comparator : α → α → ℤ) (heap : NrMinmaxHeap α) : NrMinmaxHeap α :=
  match heap.elements.getLast? with
  | none => heap
  | some last =>
      if heap.used = 1 then { heap with elements := [] }
      else trickledown comparator { heap with elements := (heap.elements.set 0 last).dropLast } 1

def nrMinmaxHeapInsert (comparator : α → α → ℤ) (heap : NrMinmaxHeap α) (value : α) :
    NrMinmaxHeap α :=
  let add (heap : NrMinmaxHeap α) : NrMinmaxHeap α :=
    bubbleup comparator { heap with elements := heap.elements ++ [value] } (heap.used + 1)
  if heap.bound ≠ 0 ∧ heap.used ≥ heap.bound then
    match nrMinmaxHeapPeekMin heap with
    | none => heap
    | some least =>
        if comparator least value > 0 then heap
        else add (nrMinmaxHeapPopMin comparator heap)
  else add heap

@[simp] theorem NrMinmaxHeap.used_swap (heap : NrMinmaxHeap α) (i j : ℕ) :
    (heap.swap i j).used = heap.used :=
  (swapAt_perm _ _ _).length_eq

end AxiomDaemon.Util

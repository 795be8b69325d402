import AxiomDaemon.Util.Vector
import AxiomDaemon.Lib.Loop
import AxiomDaemon.Lib.Transition

/-!
The public operations of `util_vector.c`, and that a vector under them is a
list. The block grows and shrinks between the operations; what a client sees
of it are the elements in use.

A vector has come from the allocator, so its block is no larger than a
`size_t` can count. This is what keeps the search from the end in bounds: its
index is unsigned, and one below zero it is past every element.
-/

namespace AxiomDaemon.Util

open AxiomDaemon.Lib

variable {α : Type}

/-- `nr_vector_insert`. -/
def nrVectorInsert (v : NrVector α) (pos : ℕ) (element : Option α) : NrVector α :=
  nrVectorInsertImpl v pos element

/-- `nr_vector_push_front`. -/
def nrVectorPushFront (v : NrVector α) (element : Option α) : NrVector α :=
  nrVectorInsert v 0 element

/-- `nr_vector_remove`; `elementPtr` is whether the caller passes a place for
the element. -/
def nrVectorRemove (v : NrVector α) (pos : ℕ) (elementPtr : Bool) :
    Option (NrVector α × Option α) :=
  if elementPtr then nrVectorRemoveImpl v pos else none

/-- `nr_vector_pop_front`. -/
def nrVectorPopFront (v : NrVector α) (elementPtr : Bool) : Option (NrVector α × Option α) :=
  nrVectorRemove v 0 elementPtr

/-- `nr_vector_pop_back`. -/
def nrVectorPopBack (v : NrVector α) (elementPtr : Bool) : Option (NrVector α × Option α) :=
  if elementPtr = false ∨ v.used = 0 then none else nrVectorRemoveImpl v (v.used - 1)

/-- `nr_vector_get_element`. -/
def nrVectorGetElement (v : NrVector α) (pos : ℕ) (elementPtr : Bool) : Option (Option α) :=
  if elementPtr = false ∨ v.used ≤ pos then none else some (v.elements.getD pos none)

/-- `nr_vector_replace`: the vector afterwards, and the element that the
destructor is given where there is one. -/
def nrVectorReplace (v : NrVector α) (pos : ℕ) (element : Option α) :
    Option (NrVector α × Option α) :=
  if v.used ≤ pos then none
  else some ({ v with elements := v.elements.set pos element }, v.elements.getD pos none)

/-- A round of the loop `for (i = start; i < v->used; i += delta)`. The index
is a `size_t`, and so is `delta` where it is added to it. -/
def nrVectorFindStep (v : NrVector α) (delta : ℕ) (found : Option α → Bool) (i : ℕ) : Option ℕ :=
  if i < v.used ∧ found (v.elements.getD i none) = false then some ((i + delta) % 2 ^ 64)
  else none

/-- The loop with what it returns, `none` inside for false, if it ends within
`rounds`. -/
def nrVectorFindLoop (rounds : ℕ) (v : NrVector α) (start delta : ℕ) (found : Option α → Bool) :
    Option (Option ℕ) :=
  (loopFor (nrVectorFindStep v delta found) rounds start).map fun i =>
    if i < v.used then some i else none

/-- A `nr_vector_cmp_t` with its user data. -/
abbrev NrVectorCmp (α : Type) := Option α → Option α → ℤ

/-- `nr_vector_find_comparator`. -/
def nrVectorFindComparator (rounds : ℕ) (v : NrVector α) (start delta : ℕ) (needle : Option α)
    (comparator : NrVectorCmp α) : Option (Option ℕ) :=
  nrVectorFindLoop rounds v start delta fun x => comparator x needle = 0

section Find

variable [DecidableEq α]

/-- `nr_vector_find_direct`. -/
def nrVectorFindDirect (rounds : ℕ) (v : NrVector α) (start delta : ℕ) (needle : Option α) :
    Option (Option ℕ) :=
  nrVectorFindLoop rounds v start delta fun x => x = needle

/-- `nr_vector_find`. -/
def nrVectorFind (rounds : ℕ) (v : NrVector α) (start : ℕ) (forward : Bool) (needle : Option α)
    (comparator : Option (NrVectorCmp α)) : Option (Option ℕ) :=
  let delta := if forward then 1 else 2 ^ 64 - 1
  if v.used ≤ start then some none
  else
    match comparator with
    | some comparator => nrVectorFindComparator rounds v start delta needle comparator
    | none => nrVectorFindDirect rounds v start delta needle

/-- `nr_vector_find_first` with a comparator or without. -/
def nrVectorFindFirstBy (rounds : ℕ) (v : NrVector α) (needle : Option α)
    (comparator : Option (NrVectorCmp α)) : Option (Option ℕ) :=
  if v.used = 0 then some none else nrVectorFind rounds v 0 true needle comparator

/-- `nr_vector_find_last`. -/
def nrVectorFindLast (rounds : ℕ) (v : NrVector α) (needle : Option α)
    (comparator : Option (NrVectorCmp α)) : Option (Option ℕ) :=
  if v.used = 0 then some none else nrVectorFind rounds v (v.used - 1) false needle comparator

/-- The test that an element has to pass in a search. -/
def vectorMatch (needle : Option α) (comparator : Option (NrVectorCmp α)) (x : Option α) : Bool :=
  match comparator with
  | some comparator => comparator x needle = 0
  | none => x = needle

end Find

/-! ### What the operations do to the elements in use -/

theorem NrVector.Valid.getElem?_toList {v : NrVector α} (hv : v.Valid) (i : ℕ) :
    v.toList[i]? = if i < v.used then some (v.elements.getD i none) else none := by
  have hfits := hv.fits
  have hblock := hv.block
  split
  · next hi =>
      rw [NrVector.toList, List.getElem?_take_of_lt hi, List.getD_eq_getElem?_getD,
        List.getElem?_eq_getElem (by omega)]
      rfl
  · next hi => exact List.getElem?_eq_none (by rw [hv.length_toList]; omega)

theorem nrVectorRemoveImpl_of_le {v : NrVector α} {pos : ℕ} (h : v.used ≤ pos) :
    nrVectorRemoveImpl v pos = none := by
  rw [nrVectorRemoveImpl, if_pos h]

theorem nrVectorReplace_spec {v : NrVector α} (hv : v.Valid) {pos : ℕ} (hpos : pos < v.used)
    (element : Option α) :
    ∃ w, nrVectorReplace v pos element = some (w, v.elements.getD pos none) ∧ w.Valid ∧
      w.toList = v.toList.set pos element := by
  refine ⟨{ v with elements := v.elements.set pos element }, ?_, ⟨hv.pos, ?_, hv.fits⟩, ?_⟩
  · rw [nrVectorReplace, if_neg (Nat.not_le.mpr hpos)]
  · rw [List.length_set]
    exact hv.block
  · exact List.take_set

section Search

variable {v : NrVector α} {delta : ℕ} {found : Option α → Bool}

theorem nrVectorFindStep_of_le {i : ℕ} (hi : v.used ≤ i) :
    nrVectorFindStep v delta found i = none := by
  rw [nrVectorFindStep, if_neg fun h => Nat.not_lt.mpr hi h.1]

theorem nrVectorFindStep_of_getElem? (hv : v.Valid) {i : ℕ} {x : Option α}
    (hx : v.toList[i]? = some x) :
    nrVectorFindStep v delta found i =
      if found x = false then some ((i + delta) % 2 ^ 64) else none := by
  rw [hv.getElem?_toList] at hx
  split at hx
  · next hi =>
      obtain rfl := Option.some.inj hx
      simp [nrVectorFindStep, hi]
  · cases hx

/-- A search that is known to walk along a path answers with the end of it. -/
theorem nrVectorFindLoop_of_path {p : ℕ → ℕ} {k rounds : ℕ}
    (hpath : ∀ i < k, nrVectorFindStep v delta found (p i) = some (p (i + 1)))
    (hstop : nrVectorFindStep v delta found (p k) = none) (hk : k < rounds) :
    nrVectorFindLoop rounds v (p 0) delta found =
      some (if p k < v.used then some (p k) else none) := by
  rw [nrVectorFindLoop, loopFor_of_path hpath hstop hk]
  rfl

/-- The search from the front ends at the first element that passes. -/
theorem nrVectorFindLoop_forward (hv : v.Valid) (hused : v.used < 2 ^ 64) {rounds : ℕ}
    (hrounds : v.used < rounds) :
    nrVectorFindLoop rounds v 0 1 found = some (v.toList.findIdx? found) := by
  have hlen := hv.length_toList
  -- As long as nothing has passed, round `i` looks at the element `i`.
  have hnext : ∀ i < v.used, (∀ x, v.toList[i]? = some x → found x = false) →
      nrVectorFindStep v 1 found i = some (i + 1) := by
    intro i hi hfail
    have hx := List.getElem?_eq_getElem (show i < v.toList.length by omega)
    rw [nrVectorFindStep_of_getElem? hv hx, if_pos (hfail _ hx), Nat.mod_eq_of_lt (by omega)]
  cases hfind : v.toList.findIdx? found with
  | some k =>
      obtain ⟨hk, hpass, hbefore⟩ := List.findIdx?_eq_some_iff_getElem.mp hfind
      have hx := List.getElem?_eq_getElem hk
      have hstop : nrVectorFindStep v 1 found k = none := by
        rw [nrVectorFindStep_of_getElem? hv hx, if_neg (by simp [hpass])]
      have hpath : ∀ i < k, nrVectorFindStep v 1 found i = some (i + 1) := by
        intro i hi
        refine hnext i (by omega) fun x hx => ?_
        obtain ⟨_, rfl⟩ := List.getElem?_eq_some_iff.mp hx
        exact Bool.eq_false_iff.mpr (hbefore i hi)
      refine (nrVectorFindLoop_of_path (p := id) hpath hstop (by omega)).trans ?_
      exact congrArg some (if_pos (hlen ▸ hk))
  | none =>
      have hall := List.findIdx?_eq_none_iff.mp hfind
      have hpath : ∀ i < v.used, nrVectorFindStep v 1 found i = some (i + 1) :=
        fun i hi => hnext i hi fun x hx => hall x (List.mem_of_getElem? hx)
      have hstop : nrVectorFindStep v 1 found v.used = none :=
        nrVectorFindStep_of_le (Nat.le_refl _)
      refine (nrVectorFindLoop_of_path (p := id) hpath hstop hrounds).trans ?_
      exact congrArg some (if_neg (Nat.lt_irrefl _))

/-- The search from the back ends at the last element that passes, or one
below zero, where no vector has an element. -/
theorem nrVectorFindLoop_backward (hv : v.Valid) (hused : v.used < 2 ^ 64) (hpos : 0 < v.used)
    {rounds : ℕ} (hrounds : v.used < rounds) :
    nrVectorFindLoop rounds v (v.used - 1) (2 ^ 64 - 1) found =
      some (lastIdx? found v.toList) := by
  have hlen := hv.length_toList
  -- Round `i` looks at the element `used - 1 - i`; the round after the last is below zero.
  let p : ℕ → ℕ := fun i => if i < v.used then v.used - 1 - i else 2 ^ 64 - 1
  have hstart : p 0 = v.used - 1 := if_pos hpos
  have hnext : ∀ i < v.used, (∀ x, v.toList[v.used - 1 - i]? = some x → found x = false) →
      nrVectorFindStep v (2 ^ 64 - 1) found (p i) = some (p (i + 1)) := by
    intro i hi hfail
    have hpi : p i = v.used - 1 - i := if_pos hi
    have hx := List.getElem?_eq_getElem (show v.used - 1 - i < v.toList.length by omega)
    have hwrap : (v.used - 1 - i + (2 ^ 64 - 1)) % 2 ^ 64 = p (i + 1) := by
      simp only [p]
      split <;> omega
    rw [hpi, nrVectorFindStep_of_getElem? hv hx, if_pos (hfail _ hx), hwrap]
  rw [← hstart]
  cases hlast : lastIdx? found v.toList with
  | some k =>
      obtain ⟨⟨x, hx, hpass⟩, hbehind⟩ := lastIdx?_eq_some_iff.mp hlast
      have hlt : k < v.used := hlen ▸ (List.getElem?_eq_some_iff.mp hx).1
      have hpk : p (v.used - 1 - k) = k := by
        simp only [p]
        split <;> omega
      have hstop : nrVectorFindStep v (2 ^ 64 - 1) found (p (v.used - 1 - k)) = none := by
        rw [hpk, nrVectorFindStep_of_getElem? hv hx, if_neg (by simp [hpass])]
      have hpath : ∀ i < v.used - 1 - k,
          nrVectorFindStep v (2 ^ 64 - 1) found (p i) = some (p (i + 1)) :=
        fun i hi => hnext i (by omega) fun y hy => hbehind (v.used - 1 - i) y (by omega) hy
      rw [nrVectorFindLoop_of_path hpath hstop (by omega), hpk, if_pos hlt]
  | none =>
      have hall := lastIdx?_eq_none_iff.mp hlast
      have hpu : p v.used = 2 ^ 64 - 1 := if_neg (Nat.lt_irrefl _)
      have hstop : nrVectorFindStep v (2 ^ 64 - 1) found (p v.used) = none :=
        nrVectorFindStep_of_le (by omega)
      have hpath : ∀ i < v.used,
          nrVectorFindStep v (2 ^ 64 - 1) found (p i) = some (p (i + 1)) :=
        fun i hi => hnext i hi fun x hx => hall x (List.mem_of_getElem? hx)
      rw [nrVectorFindLoop_of_path hpath hstop hrounds, hpu, if_neg (by omega)]

variable [DecidableEq α] {needle : Option α} {comparator : Option (NrVectorCmp α)} {rounds : ℕ}

theorem nrVectorFind_eq {start : ℕ} (forward : Bool) (hstart : start < v.used) :
    nrVectorFind rounds v start forward needle comparator =
      nrVectorFindLoop rounds v start (if forward then 1 else 2 ^ 64 - 1)
        (vectorMatch needle comparator) := by
  have hle : ¬ v.used ≤ start := Nat.not_le.mpr hstart
  cases comparator with
  | none => exact if_neg hle
  | some compare => exact if_neg hle

theorem nrVectorFindFirstBy_eq (hv : v.Valid) (hused : v.used < 2 ^ 64)
    (hrounds : v.used < rounds) :
    nrVectorFindFirstBy rounds v needle comparator =
      some (v.toList.findIdx? (vectorMatch needle comparator)) := by
  by_cases hzero : v.used = 0
  · have hnil : v.toList = [] := List.eq_nil_of_length_eq_zero (hv.length_toList.trans hzero)
    rw [nrVectorFindFirstBy, if_pos hzero, hnil]
    rfl
  · rw [nrVectorFindFirstBy, if_neg hzero, nrVectorFind_eq true (Nat.pos_of_ne_zero hzero)]
    exact nrVectorFindLoop_forward hv hused hrounds

theorem nrVectorFindLast_eq (hv : v.Valid) (hused : v.used < 2 ^ 64)
    (hrounds : v.used < rounds) :
    nrVectorFindLast rounds v needle comparator =
      some (lastIdx? (vectorMatch needle comparator) v.toList) := by
  by_cases hzero : v.used = 0
  · have hnil : v.toList = [] := List.eq_nil_of_length_eq_zero (hv.length_toList.trans hzero)
    rw [nrVectorFindLast, if_pos hzero, hnil]
    rfl
  · have hpos : 0 < v.used := Nat.pos_of_ne_zero hzero
    rw [nrVectorFindLast, if_neg hzero, nrVectorFind_eq false (Nat.sub_lt hpos Nat.one_pos)]
    exact nrVectorFindLoop_backward hv hused hpos hrounds

end Search

/-! ### Runs -/

inductive VectorOp (α : Type)
  | pushBack (element : Option α)
  | pushFront (element : Option α)
  | insert (pos : ℕ) (element : Option α)
  | remove (pos : ℕ) (elementPtr : Bool)
  | popBack (elementPtr : Bool)
  | popFront (elementPtr : Bool)
  | replace (pos : ℕ) (element : Option α)
  | getElement (pos : ℕ) (elementPtr : Bool)
  | findFirst (needle : Option α) (comparator : Option (NrVectorCmp α))
  | findLast (needle : Option α) (comparator : Option (NrVectorCmp α))

/-- What the caller gets: false, true, true with an element or an index; or
nothing, as the call does not return. -/
inductive VectorReply (α : Type)
  | failed
  | done
  | element (x : Option α)
  | index (i : ℕ)
  | hangs
  deriving DecidableEq

namespace VectorReply

def ofElement : Option (Option α) → VectorReply α
  | some x => .element x
  | none => .failed

def ofIndex : Option ℕ → VectorReply α
  | some i => .index i
  | none => .failed

def ofSearch : Option (Option ℕ) → VectorReply α
  | some found => ofIndex found
  | none => .hangs

end VectorReply

/-- The vector and the reply of an operation that hands an element out. -/
def handOut (v : NrVector α) (result : Option (NrVector α × Option α)) :
    NrVector α × VectorReply α :=
  ((result.map Prod.fst).getD v, .ofElement (result.map Prod.snd))

/-- An operation on a vector. A search is given a round for each element and
one more. -/
def vectorStep [DecidableEq α] (v : NrVector α) : VectorOp α → NrVector α × VectorReply α
  | .pushBack element => (nrVectorPushBack v element, .done)
  | .pushFront element => (nrVectorPushFront v element, .done)
  | .insert pos element => (nrVectorInsert v pos element, .done)
  | .remove pos elementPtr => handOut v (nrVectorRemove v pos elementPtr)
  | .popBack elementPtr => handOut v (nrVectorPopBack v elementPtr)
  | .popFront elementPtr => handOut v (nrVectorPopFront v elementPtr)
  | .replace pos element => handOut v (nrVectorReplace v pos element)
  | .getElement pos elementPtr => (v, .ofElement (nrVectorGetElement v pos elementPtr))
  | .findFirst needle comparator =>
      (v, .ofSearch (nrVectorFindFirstBy (v.used + 1) v needle comparator))
  | .findLast needle comparator =>
      (v, .ofSearch (nrVectorFindLast (v.used + 1) v needle comparator))

/-- The same operation on a list. -/
def listStep [DecidableEq α] (l : List (Option α)) :
    VectorOp α → List (Option α) × VectorReply α
  | .pushBack element => (l ++ [element], .done)
  | .pushFront element => (element :: l, .done)
  | .insert pos element => (l.insertIdx (min pos l.length) element, .done)
  | .remove pos true => (l.eraseIdx pos, .ofElement l[pos]?)
  | .popBack true => (l.dropLast, .ofElement l.getLast?)
  | .popFront true => (l.tail, .ofElement l.head?)
  | .replace pos element => (l.set pos element, .ofElement l[pos]?)
  | .getElement pos true => (l, .ofElement l[pos]?)
  | .remove _ false | .popBack false | .popFront false | .getElement _ false => (l, .failed)
  | .findFirst needle comparator => (l, .ofIndex (l.findIdx? (vectorMatch needle comparator)))
  | .findLast needle comparator => (l, .ofIndex (lastIdx? (vectorMatch needle comparator) l))

/-- The allocator can have handed the block out: its bytes can be counted. -/
def NrVector.Allocated (v : NrVector α) : Prop := v.capacity * 8 < 2 ^ 64

instance (v : NrVector α) : Decidable v.Allocated := inferInstanceAs (Decidable (_ < _))

/-- The list that a vector stands for. -/
structure Denotes (v : NrVector α) (l : List (Option α)) : Prop where
  valid : v.Valid
  allocated : v.Allocated
  toList : v.toList = l

theorem NrVector.Allocated.used_lt {v : NrVector α} (hv : v.Valid) (halloc : v.Allocated) :
    v.used < 2 ^ 64 := by
  have hfits := hv.fits
  rw [NrVector.Allocated] at halloc
  omega

theorem handOut_some {v w : NrVector α} {x : Option α} :
    handOut v (some (w, x)) = (w, .element x) := rfl

theorem handOut_none {v : NrVector α} : handOut v none = (v, .failed) := rfl

section Steps

variable {v : NrVector α} {l : List (Option α)}

theorem handOut_nrVectorRemoveImpl (hv : v.Valid) (pos : ℕ) :
    (handOut v (nrVectorRemoveImpl v pos)).1.Valid ∧
    (handOut v (nrVectorRemoveImpl v pos)).1.toList = v.toList.eraseIdx pos ∧
    (handOut v (nrVectorRemoveImpl v pos)).2 = .ofElement v.toList[pos]? := by
  by_cases hpos : pos < v.used
  · obtain ⟨w, hremove, hvalid, _, hlist, _⟩ := nrVectorRemoveImpl_spec hv hpos
    have hget : v.toList[pos]? = some (v.toList.getD pos none) := by
      rw [List.getD_eq_getElem?_getD, hv.getElem?_toList, if_pos hpos]
      rfl
    rw [hremove, handOut_some, hget]
    exact ⟨hvalid, hlist, rfl⟩
  · have hle : v.toList.length ≤ pos := by rw [hv.length_toList]; omega
    rw [nrVectorRemoveImpl_of_le (Nat.not_lt.mp hpos), handOut_none,
      List.eraseIdx_of_length_le hle, List.getElem?_eq_none hle]
    exact ⟨hv, rfl, rfl⟩

theorem handOut_nrVectorPopBack (hv : v.Valid) :
    (handOut v (nrVectorPopBack v true)).1.Valid ∧
    (handOut v (nrVectorPopBack v true)).1.toList = v.toList.dropLast ∧
    (handOut v (nrVectorPopBack v true)).2 = .ofElement v.toList.getLast? := by
  have hlen := hv.length_toList
  by_cases hzero : v.used = 0
  · have hnil : v.toList = [] := List.eq_nil_of_length_eq_zero (hlen.trans hzero)
    rw [nrVectorPopBack, if_pos (.inr hzero), handOut_none, hnil]
    exact ⟨hv, rfl, rfl⟩
  · have hpop : nrVectorPopBack v true = nrVectorRemoveImpl v (v.toList.length - 1) := by
      rw [nrVectorPopBack, if_neg (by simp [hzero]), hlen]
    rw [hpop, ← List.eraseIdx_length_sub_one, List.getLast?_eq_getElem?]
    exact handOut_nrVectorRemoveImpl hv (v.toList.length - 1)

theorem handOut_nrVectorReplace (hv : v.Valid) (pos : ℕ) (element : Option α) :
    (handOut v (nrVectorReplace v pos element)).1.Valid ∧
    (handOut v (nrVectorReplace v pos element)).1.toList = v.toList.set pos element ∧
    (handOut v (nrVectorReplace v pos element)).2 = .ofElement v.toList[pos]? := by
  by_cases hpos : pos < v.used
  · obtain ⟨w, hreplace, hvalid, hlist⟩ := nrVectorReplace_spec hv hpos element
    rw [hreplace, handOut_some, hv.getElem?_toList, if_pos hpos]
    exact ⟨hvalid, hlist, rfl⟩
  · have hle : v.toList.length ≤ pos := by rw [hv.length_toList]; omega
    rw [nrVectorReplace, if_pos (Nat.not_lt.mp hpos), handOut_none, List.set_eq_of_length_le hle,
      List.getElem?_eq_none hle]
    exact ⟨hv, rfl, rfl⟩

theorem nrVectorGetElement_eq (hv : v.Valid) (pos : ℕ) :
    nrVectorGetElement v pos true = v.toList[pos]? := by
  rw [nrVectorGetElement, hv.getElem?_toList]
  by_cases hpos : pos < v.used
  · simp [hpos]
  · simp [hpos, Nat.not_lt.mp hpos]

variable [DecidableEq α]

/-- The operations of a vector are those of its list, and what was a vector
stays one. -/
theorem vectorStep_spec (hv : v.Valid) (halloc : v.Allocated) (op : VectorOp α) :
    (vectorStep v op).1.Valid ∧
    ((vectorStep v op).1.toList, (vectorStep v op).2) = listStep v.toList op := by
  have hused := halloc.used_lt hv
  have hrounds : v.used < v.used + 1 := Nat.lt_succ_self _
  cases op with
  | pushBack element =>
      obtain ⟨hvalid, _, hlist, _⟩ := nrVectorPushBack_spec hv element
      exact ⟨hvalid, congrArg (·, VectorReply.done) hlist⟩
  | pushFront element =>
      obtain ⟨hvalid, _, hlist, _⟩ := nrVectorInsertImpl_spec hv 0 element
      rw [Nat.zero_min, List.insertIdx_zero] at hlist
      exact ⟨hvalid, congrArg (·, VectorReply.done) hlist⟩
  | insert pos element =>
      obtain ⟨hvalid, _, hlist, _⟩ := nrVectorInsertImpl_spec hv pos element
      rw [← hv.length_toList] at hlist
      exact ⟨hvalid, congrArg (·, VectorReply.done) hlist⟩
  | remove pos elementPtr =>
      cases elementPtr with
      | false => exact ⟨hv, rfl⟩
      | true =>
          obtain ⟨hvalid, hlist, hreply⟩ := handOut_nrVectorRemoveImpl hv pos
          exact ⟨hvalid, Prod.ext hlist hreply⟩
  | popBack elementPtr =>
      cases elementPtr with
      | false => exact ⟨hv, rfl⟩
      | true =>
          obtain ⟨hvalid, hlist, hreply⟩ := handOut_nrVectorPopBack hv
          exact ⟨hvalid, Prod.ext hlist hreply⟩
  | popFront elementPtr =>
      cases elementPtr with
      | false => exact ⟨hv, rfl⟩
      | true =>
          obtain ⟨hvalid, hlist, hreply⟩ := handOut_nrVectorRemoveImpl hv 0
          rw [List.eraseIdx_zero] at hlist
          rw [← List.head?_eq_getElem?] at hreply
          exact ⟨hvalid, Prod.ext hlist hreply⟩
  | replace pos element =>
      obtain ⟨hvalid, hlist, hreply⟩ := handOut_nrVectorReplace hv pos element
      exact ⟨hvalid, Prod.ext hlist hreply⟩
  | getElement pos elementPtr =>
      cases elementPtr with
      | false => exact ⟨hv, rfl⟩
      | true => exact ⟨hv, by rw [vectorStep, listStep, nrVectorGetElement_eq hv]⟩
  | findFirst needle comparator =>
      exact ⟨hv, by rw [vectorStep, nrVectorFindFirstBy_eq hv hused hrounds]; rfl⟩
  | findLast needle comparator =>
      exact ⟨hv, by rw [vectorStep, nrVectorFindLast_eq hv hused hrounds]; rfl⟩

theorem vectorStep_failed {op : VectorOp α} (h : (vectorStep v op).2 = .failed) :
    (vectorStep v op).1 = v := by
  have hout : ∀ result, (handOut v result).2 = .failed → (handOut v result).1 = v := by
    intro result hresult
    cases result with
    | none => rfl
    | some removed => cases hresult
  cases op with
  | pushBack element => cases h
  | pushFront element => cases h
  | insert pos element => cases h
  | remove pos elementPtr => exact hout _ h
  | popBack elementPtr => exact hout _ h
  | popFront elementPtr => exact hout _ h
  | replace pos element => exact hout _ h
  | getElement pos elementPtr => rfl
  | findFirst needle comparator => rfl
  | findLast needle comparator => rfl

end Steps

section Runs

variable [DecidableEq α]

def vectorExec (v : NrVector α) (op : VectorOp α) : NrVector α := (vectorStep v op).1

def vectorReply (v : NrVector α) (op : VectorOp α) : VectorReply α := (vectorStep v op).2

/-- The allocation that the operation may ask for succeeds. -/
def Granted (v : NrVector α) (op : VectorOp α) : Prop := (vectorExec v op).Allocated

instance (v : NrVector α) (op : VectorOp α) : Decidable (Granted v op) :=
  inferInstanceAs (Decidable (NrVector.Allocated _))

/-- `found` is the last index of the list whose element passes. -/
def IsLastMatch (pass : Option α → Bool) (l : List (Option α)) (found : Option ℕ) : Prop :=
  ∀ i, found = some i ↔
    (∃ x, l[i]? = some x ∧ pass x = true) ∧ ∀ j x, i < j → l[j]? = some x → pass x = false

theorem Denotes.step {v : NrVector α} {l : List (Option α)} {op : VectorOp α} (h : Denotes v l)
    (hgrant : Granted v op) :
    Denotes (vectorExec v op) (listStep l op).1 ∧ vectorReply v op = (listStep l op).2 := by
  obtain ⟨hvalid, hstep⟩ := vectorStep_spec h.valid h.allocated op
  rw [h.toList] at hstep
  exact ⟨⟨hvalid, hgrant, congrArg Prod.fst hstep⟩, congrArg Prod.snd hstep⟩

/-- A vector of any initial capacity is a list under every sequence of
operations, as long as the allocations succeed. It never holds more than it
has room for, what fails changes nothing, and the search from the end comes
to its end with the last match. -/
theorem vector_refines_list (initial : ℕ) (ops : List (VectorOp α))
    (hinit : (nrVectorInit initial : NrVector α).Allocated)
    (hops : Along vectorExec Granted (nrVectorInit initial) ops) :
    Refines vectorExec vectorReply (fun l op reply l' => listStep l op = (l', reply)) Denotes
      (nrVectorInit initial) [] ops ∧
    Throughout vectorExec
      (fun v => v.used ≤ v.capacity ∧
        (∀ op, vectorReply v op = .failed → vectorExec v op = v) ∧
        ∀ needle comparator rounds, v.used < rounds →
          ∃ found, nrVectorFindLast rounds v needle comparator = some found ∧
            IsLastMatch (vectorMatch needle comparator) v.toList found)
      (nrVectorInit initial) ops := by
  have hstart : Denotes (nrVectorInit initial : NrVector α) [] :=
    ⟨nrVectorInit_valid initial, hinit, rfl⟩
  constructor
  · refine (refines_iff_along ?_ ?_ hstart).mpr hops
    · intro v l op h hgrant
      obtain ⟨hnext, hreply⟩ := h.step hgrant
      exact ⟨(listStep l op).1, Prod.ext rfl hreply.symm, hnext⟩
    · intro v l op _ hrefused l' hnext
      exact hrefused hnext.allocated
  · have hsound : Throughout vectorExec (fun v => ∃ l, Denotes v l) (nrVectorInit initial) ops := by
      refine throughout_of_along ?_ ⟨[], hstart⟩ hops
      rintro v op ⟨l, h⟩ hgrant
      exact ⟨_, (h.step hgrant).1⟩
    refine hsound.imp ?_
    rintro v ⟨l, h⟩
    refine ⟨h.valid.fits, fun op hfail => vectorStep_failed hfail, ?_⟩
    intro needle comparator rounds hrounds
    refine ⟨_, nrVectorFindLast_eq h.valid (h.allocated.used_lt h.valid) hrounds, fun i => ?_⟩
    exact lastIdx?_eq_some_iff

end Runs

/-- A run through growth, a hole in the middle, a refusal and a match at index 0. -/
def vectorRun : List (VectorOp ℕ) :=
  [.pushBack (some 1), .pushFront (some 2), .insert 1 none, .remove 1 true, .popBack false,
    .replace 7 none, .findLast (some 2) none]

theorem vectorRun_refines :
    Refines vectorExec vectorReply (fun l op reply l' => listStep l op = (l', reply)) Denotes
      (nrVectorInit 1) [] vectorRun :=
  (vector_refines_list 1 vectorRun (by decide) (by decide)).1

end AxiomDaemon.Util

import AxiomDaemon.Lib.MinmaxOrder
import AxiomDaemon.Lib.Selection
import AxiomDaemon.Util.MinmaxHeap

/-!
The order of the min-max heap over whole runs: after every insertion and
removal each element of a min layer is no greater than those below it and
each element of a max layer no less, for every comparator that is a total
preorder. The two ends of the heap are a least and a greatest element
therefore, and a heap with a bound keeps the greatest elements.
-/

namespace AxiomDaemon.Util

open AxiomDaemon.Lib NrMinmaxHeap

variable {α : Type*}

/-! ### The rest of the interface -/

/-- `nr_minmax_heap_peek_max`. -/
def nrMinmaxHeapPeekMax (comparator : α → α → ℤ) (heap : NrMinmaxHeap α) : Option α :=
  if heap.used = 0 then none
  else if heap.used = 1 then heap.elements[0]?
  else if heap.used = 2 then heap.elements[1]?
  else if compare comparator heap 2 3 > 0 then heap.elements[1]?
  else heap.elements[2]?

/-- `nr_minmax_heap_pop_max`: the element it returns, and the heap. -/
def nrMinmaxHeapPopMax (comparator : α → α → ℤ) (heap : NrMinmaxHeap α) :
    Option α × NrMinmaxHeap α :=
  match heap.elements.getLast? with
  | none => (none, heap)
  | some last =>
      if heap.used ≤ 2 then (some last, { heap with elements := heap.elements.dropLast })
      else
        let idx := if compare comparator heap 2 3 < 0 then 3 else 2
        (heap.elements[idx - 1]?,
          trickledown comparator
            { heap with elements := (heap.elements.set (idx - 1) last).dropLast } idx)

/-- What `nr_minmax_heap_insert` hands to the destructor: the value itself if it is
less than the minimum of a full heap, or the minimum that makes room for it. -/
def nrMinmaxHeapInsertDestroyed (comparator : α → α → ℤ) (heap : NrMinmaxHeap α) (value : α) :
    List α :=
  if heap.bound ≠ 0 ∧ heap.used ≥ heap.bound then
    match nrMinmaxHeapPeekMin heap with
    | none => []
    | some least => if comparator least value > 0 then [value] else [least]
  else []

/-! ### Comparators -/

/-- A comparator in the manner of `strcmp`: it tells of any two elements which one
is greater, if one is. -/
structure TotalPreorderCmp (comparator : α → α → ℤ) : Prop where
  swap : ∀ a b, 0 < comparator a b ↔ comparator b a < 0
  trans : ∀ a b c, comparator a b ≤ 0 → comparator b c ≤ 0 → comparator a c ≤ 0

/-- The order in which an operation goes up or down: that of the comparator, or
the reverse. -/
def opLe (comparator : α → α → ℤ) : CompareOp → α → α → Prop
  | .lessThan => fun a b => comparator a b ≤ 0
  | .greaterThan => fun a b => comparator b a ≤ 0

/-- The layers that are low in that order. -/
def opLo : CompareOp → ℕ → Bool
  | .lessThan => isMin
  | .greaterThan => fun i => !isMin i

theorem TotalPreorderCmp.totalPreorder {comparator : α → α → ℤ}
    (h : TotalPreorderCmp comparator) (op : CompareOp) : TotalPreorder (opLe comparator op) := by
  have hless : TotalPreorder (opLe comparator .lessThan) := by
    refine ⟨fun hab hbc => h.trans _ _ _ hab hbc, fun a b => ?_⟩
    by_cases hab : 0 < comparator a b
    · exact Or.inr ((h.swap a b).mp hab).le
    · exact Or.inl (not_lt.mp hab)
  cases op with
  | lessThan => exact hless
  | greaterThan => exact hless.flip

theorem isMin_alternates : Alternates isMin := by
  intro i hi
  have hlog : Nat.log2 i = Nat.log2 (i / 2) + 1 := by
    rw [Nat.log2_def, if_pos hi]
  simp only [isMin, hlog]
  rcases Nat.mod_two_eq_zero_or_one (Nat.log2 (i / 2)) with h | h <;>
    simp [Nat.add_mod, h]

theorem opLo_alternates (op : CompareOp) : Alternates (opLo op) := by
  cases op with
  | lessThan => exact isMin_alternates
  | greaterThan => exact isMin_alternates.flip

/-! ### The heap as a function of positions -/

namespace NrMinmaxHeap

/-- The element at a position, for positions in use. -/
def at_ (d : α) (heap : NrMinmaxHeap α) (i : ℕ) : α := heap.elements.getD (i - 1) d

/-- The order of the heap, seen from one end or the other. -/
def OrderedBy (comparator : α → α → ℤ) (op : CompareOp) (d : α) (heap : NrMinmaxHeap α) : Prop :=
  MinmaxOrdered (opLe comparator op) (opLo op) (heap.at_ d) heap.used

theorem orderedBy_iff {comparator : α → α → ℤ} {d : α} {heap : NrMinmaxHeap α} (op : CompareOp) :
    OrderedBy comparator op d heap ↔ OrderedBy comparator .lessThan d heap := by
  cases op with
  | lessThan => exact Iff.rfl
  | greaterThan => exact minmaxOrdered_flip

theorem getElem?_eq_at (d : α) (heap : NrMinmaxHeap α) {i : ℕ} (hi : 1 ≤ i) (hu : i ≤ heap.used) :
    heap.elements[i - 1]? = some (heap.at_ d i) := by
  have hlt : i - 1 < heap.elements.length := by
    rw [used] at hu
    omega
  rw [at_, List.getD_eq_getElem?_getD, List.getElem?_eq_getElem hlt]
  rfl

theorem compare_eq (comparator : α → α → ℤ) (d : α) (heap : NrMinmaxHeap α) {i j : ℕ}
    (hi : 1 ≤ i) (hiu : i ≤ heap.used) (hj : 1 ≤ j) (hju : j ≤ heap.used) :
    compare comparator heap i j = comparator (heap.at_ d i) (heap.at_ d j) := by
  rw [compare, getElem?_eq_at d heap hi hiu, getElem?_eq_at d heap hj hju]

/-- What an operation expects of a comparison: that it is not the other way
round. -/
theorem compareExpect_iff {comparator : α → α → ℤ} (h : TotalPreorderCmp comparator) (d : α)
    (heap : NrMinmaxHeap α) {i j : ℕ} (hi : 1 ≤ i) (hiu : i ≤ heap.used) (hj : 1 ≤ j)
    (hju : j ≤ heap.used) (op : CompareOp) :
    compareExpect comparator heap i j op = true ↔
      ¬ opLe comparator op (heap.at_ d j) (heap.at_ d i) := by
  cases op with
  | lessThan =>
      simp only [compareExpect, compare_eq comparator d heap hi hiu hj hju, decide_eq_true_eq, opLe,
        not_le]
      exact (h.swap _ _).symm
  | greaterThan =>
      simp only [compareExpect, compare_eq comparator d heap hi hiu hj hju, decide_eq_true_eq, opLe,
        not_le, gt_iff_lt]

theorem at_swap (d : α) (heap : NrMinmaxHeap α) {i j k : ℕ} (hi : 1 ≤ i) (hiu : i ≤ heap.used)
    (hj : 1 ≤ j) (hju : j ≤ heap.used) (hk : 1 ≤ k) :
    (heap.swap i j).at_ d k = exchange (heap.at_ d) i j k := by
  rw [used] at hiu hju
  have hlt : i - 1 < heap.elements.length ∧ j - 1 < heap.elements.length := by omega
  simp only [at_, swap, swapAt, dif_pos hlt, exchange, List.getD_eq_getElem?_getD,
    List.getElem?_set, List.length_set, List.get_eq_getElem]
  by_cases hkj : k = j
  · subst hkj
    by_cases hki : k = i
    · subst hki
      simp [hlt.1]
    · simp [hki, hlt.1, hlt.2]
  · by_cases hki : k = i
    · subst hki
      have hne : ¬ j - 1 = k - 1 := by omega
      simp [hne, hlt.1, hlt.2]
    · have hne : ¬ j - 1 = k - 1 := by omega
      have hne' : ¬ i - 1 = k - 1 := by omega
      simp [hne, hne', hkj, hki]

/-! ### Bubbling up -/

section

variable {comparator : α → α → ℤ} {d : α}

theorem not_le_of_compareExpect (h : TotalPreorderCmp comparator) {heap : NrMinmaxHeap α}
    {i j : ℕ} {op : CompareOp} (hi : 1 ≤ i) (hiu : i ≤ heap.used) (hj : 1 ≤ j)
    (hju : j ≤ heap.used) (hexpect : compareExpect comparator heap i j op = true) :
    opLe comparator op (heap.at_ d i) (heap.at_ d j) :=
  ((h.totalPreorder op).total _ _).resolve_right
    ((compareExpect_iff h d heap hi hiu hj hju op).mp hexpect)

theorem le_of_not_compareExpect (h : TotalPreorderCmp comparator) {heap : NrMinmaxHeap α}
    {i j : ℕ} {op : CompareOp} (hi : 1 ≤ i) (hiu : i ≤ heap.used) (hj : 1 ≤ j)
    (hju : j ≤ heap.used) (hexpect : ¬ compareExpect comparator heap i j op = true) :
    opLe comparator op (heap.at_ d j) (heap.at_ d i) :=
  not_not.mp (mt (compareExpect_iff h d heap hi hiu hj hju op).mpr hexpect)

theorem bubbleupMinmax_succ (fuel : ℕ) (heap : NrMinmaxHeap α) (i : ℕ) (op : CompareOp) :
    bubbleupMinmax comparator (fuel + 1) heap i op =
      if i / 2 / 2 = 0 then heap
      else if compareExpect comparator heap i (i / 2 / 2) op then
        bubbleupMinmax comparator fuel (heap.swap i (i / 2 / 2)) (i / 2 / 2) op
      else heap :=
  rfl

theorem orderedBy_bubbleupMinmax (h : TotalPreorderCmp comparator) {op : CompareOp} (fuel : ℕ)
    {heap : NrMinmaxHeap α} {i : ℕ} (hi : 1 ≤ i) (hiu : i ≤ heap.used) (hfuel : i ≤ fuel)
    (hlo : opLo op i = true)
    (hr : RisingAt (opLe comparator op) (opLo op) (heap.at_ d) heap.used i) :
    OrderedBy comparator op d (bubbleupMinmax comparator fuel heap i op) := by
  have hle := h.totalPreorder op
  have halt := opLo_alternates op
  induction fuel generalizing heap i with
  | zero => omega
  | succ fuel ih =>
      rw [bubbleupMinmax_succ]
      split_ifs with hroot hexpect
      · exact hr.minmaxOrdered hle halt hlo fun hq => by omega
      · have hq : 1 ≤ i / 2 / 2 := by omega
        have hqu : i / 2 / 2 ≤ heap.used := by omega
        have hlt := not_le_of_compareExpect h (d := d) hi hiu hq hqu hexpect
        refine ih hq (by simpa using hqu) (by omega)
          ((halt.grandparent (by omega)).trans hlo) ?_
        rw [used_swap]
        exact OrderedWhere.congr (hr.exchange hle halt hiu hq hlo hlt)
          fun k hk _ => at_swap d heap hi hiu hq hqu hk
      · have hq : 1 ≤ i / 2 / 2 := by omega
        exact hr.minmaxOrdered hle halt hlo fun _ =>
          le_of_not_compareExpect h hi hiu hq (by omega) hexpect

/-- The end of the heap the other layers are for. -/
def opposite : CompareOp → CompareOp
  | .lessThan => .greaterThan
  | .greaterThan => .lessThan

theorem risingAt_opposite (op : CompareOp) {h : ℕ → α} {n i : ℕ} :
    RisingAt (opLe comparator (opposite op)) (opLo (opposite op)) h n i ↔
      RisingAt (opLe comparator op) (opLo op) h n i := by
  cases op with
  | lessThan => exact risingAt_flip
  | greaterThan => exact risingAt_flip.symm

theorem opLo_opposite (op : CompareOp) {i : ℕ} : opLo (opposite op) i = !opLo op i := by
  cases op with
  | lessThan => rfl
  | greaterThan => exact (Bool.not_not _).symm

/-- A new element that is in order with its parent goes up among its own kind. -/
theorem orderedBy_keep (h : TotalPreorderCmp comparator) (op : CompareOp) {heap : NrMinmaxHeap α}
    (hu : 2 ≤ heap.used) (hlo : opLo op heap.used = true)
    (hnew : NewAt (opLe comparator op) (opLo op) (heap.at_ d) heap.used)
    (hpar : opLe comparator op (heap.at_ d heap.used) (heap.at_ d (heap.used / 2))) :
    OrderedBy comparator .lessThan d (bubbleupMinmax comparator heap.used heap heap.used op) :=
  (orderedBy_iff op).mp <| orderedBy_bubbleupMinmax h _ (by omega) (Nat.le_refl _) (Nat.le_refl _)
    hlo (hnew.risingAt (h.totalPreorder op) hu hlo hpar)

/-- One that is not changes places with the parent and goes up among the other
kind. -/
theorem orderedBy_cross (h : TotalPreorderCmp comparator) (op : CompareOp) {heap : NrMinmaxHeap α}
    (hu : 2 ≤ heap.used) (hlo : opLo op heap.used = true)
    (hnew : NewAt (opLe comparator op) (opLo op) (heap.at_ d) heap.used)
    (hpar : opLe comparator op (heap.at_ d (heap.used / 2)) (heap.at_ d heap.used)) :
    OrderedBy comparator .lessThan d
      (bubbleupMinmax comparator (heap.used / 2) (heap.swap heap.used (heap.used / 2))
        (heap.used / 2) (opposite op)) := by
  have halt := opLo_alternates op
  have hp : 1 ≤ heap.used / 2 := by omega
  have hpu : heap.used / 2 ≤ heap.used := Nat.div_le_self _ _
  refine (orderedBy_iff (opposite op)).mp <| orderedBy_bubbleupMinmax h _ hp (by simpa using hpu)
    (Nat.le_refl _) ?_ ?_
  · rw [opLo_opposite, ← halt heap.used hu]
    exact hlo
  · rw [risingAt_opposite, used_swap]
    exact OrderedWhere.congr (hnew.exchange_parent (h.totalPreorder op) halt hu hlo hpar)
      fun k hk _ => at_swap d heap (by omega) (Nat.le_refl _) hp hpu hk

theorem orderedBy_bubbleup (h : TotalPreorderCmp comparator) {heap : NrMinmaxHeap α}
    (hu : 1 ≤ heap.used)
    (hnew : NewAt (opLe comparator .lessThan) (opLo .lessThan) (heap.at_ d) heap.used) :
    OrderedBy comparator .lessThan d (bubbleup comparator heap heap.used) := by
  have hnewMax : NewAt (opLe comparator .greaterThan) (opLo .greaterThan) (heap.at_ d) heap.used :=
    newAt_flip.mpr hnew
  have hcompare : 1 ≤ heap.used / 2 → compare comparator heap heap.used (heap.used / 2) =
      comparator (heap.at_ d heap.used) (heap.at_ d (heap.used / 2)) := fun hp =>
    compare_eq comparator d heap hu (Nat.le_refl _) hp (Nat.div_le_self _ _)
  change OrderedBy comparator .lessThan d
    (if heap.used / 2 = 0 then heap
    else if isMin heap.used then
      if compare comparator heap heap.used (heap.used / 2) > 0 then
        bubbleupMax comparator (heap.swap heap.used (heap.used / 2)) (heap.used / 2)
      else bubbleupMin comparator heap heap.used
    else
      if compare comparator heap heap.used (heap.used / 2) < 0 then
        bubbleupMin comparator (heap.swap heap.used (heap.used / 2)) (heap.used / 2)
      else bubbleupMax comparator heap heap.used)
  split_ifs with hroot hmin hgreater hmax
  · -- the first element
    intro a b ha hb hanc _
    have := hanc.lt ha
    omega
  · rw [hcompare (by omega)] at hgreater
    exact orderedBy_cross h .lessThan (by omega) hmin hnew ((h.swap _ _).mp hgreater).le
  · rw [hcompare (by omega)] at hgreater
    exact orderedBy_keep h .lessThan (by omega) hmin hnew (not_lt.mp hgreater)
  · rw [hcompare (by omega)] at hmax
    exact orderedBy_cross h .greaterThan (by omega) (by simpa [opLo] using hmin) hnewMax hmax.le
  · rw [hcompare (by omega)] at hmax
    refine orderedBy_keep h .greaterThan (by omega) (by simpa [opLo] using hmin) hnewMax ?_
    exact not_lt.mp (mt (h.swap _ _).mp hmax)

/-! ### Trickling down -/

theorem foldl_betterIndex_none (heap : NrMinmaxHeap α) (op : CompareOp) (cs : List ℕ) :
    cs.foldl (betterIndex comparator heap op) none = none := by
  induction cs with
  | nil => rfl
  | cons c cs ih => exact ih

theorem foldl_betterIndex (h : TotalPreorderCmp comparator) (heap : NrMinmaxHeap α)
    (op : CompareOp) {cs : List ℕ} {i : ℕ} (hcs : ∀ c ∈ cs, 1 ≤ c) (hi : 1 ≤ i)
    (hiu : i ≤ heap.used) :
    ∃ m, cs.foldl (betterIndex comparator heap op) (some i) = some m ∧ m ∈ i :: cs ∧
      m ≤ heap.used ∧
      ∀ c ∈ i :: cs, c ≤ heap.used → opLe comparator op (heap.at_ d m) (heap.at_ d c) := by
  have hle := h.totalPreorder op
  induction cs generalizing i with
  | nil =>
      refine ⟨i, rfl, by simp, hiu, fun c hc _ => ?_⟩
      obtain rfl : c = i := by simpa using hc
      exact hle.refl _
  | cons c cs ih =>
      have hc : 1 ≤ c := hcs c (by simp)
      have hrest : ∀ c ∈ cs, 1 ≤ c := fun x hx => hcs x (by simp [hx])
      simp only [List.foldl_cons, betterIndex]
      split_ifs with hbetter
      · obtain ⟨hcu, hexpect⟩ : c ≤ heap.used ∧ compareExpect comparator heap c i op = true := by
          simpa using hbetter
        obtain ⟨m, hfold, hm, hmu, hleast⟩ := ih hrest hc hcu
        refine ⟨m, hfold, List.mem_cons_of_mem i hm, hmu, fun x hx hxu => ?_⟩
        rcases List.mem_cons.mp hx with rfl | hx
        · exact hle.trans (hleast c (by simp) hcu)
            (not_le_of_compareExpect h hc hcu hi hiu hexpect)
        · exact hleast x hx hxu
      · obtain ⟨m, hfold, hm, hmu, hleast⟩ := ih hrest hi hiu
        refine ⟨m, hfold, by simp only [List.mem_cons] at hm ⊢; tauto, hmu, fun x hx hxu => ?_⟩
        rcases List.mem_cons.mp hx with rfl | hx
        · exact hleast x (by simp) hxu
        rcases List.mem_cons.mp hx with rfl | hx
        · have hexpect : ¬ compareExpect comparator heap x i op = true := by
            simpa [hxu] using hbetter
          exact hle.trans (hleast i (by simp) hiu)
            (le_of_not_compareExpect h hc hxu hi hiu hexpect)
        · exact hleast x (by simp [hx]) hxu

theorem indexMinmaxChildGrandchild_eq_none {heap : NrMinmaxHeap α} {i : ℕ} (op : CompareOp)
    (hleaf : heap.used < 2 * i) : indexMinmaxChildGrandchild comparator heap i op = none := by
  have hfirst : ¬ firstChild i ≤ heap.used := by
    rw [firstChild]
    omega
  simp only [indexMinmaxChildGrandchild, if_neg hfirst, foldl_betterIndex_none]

theorem child_or_grandchild {i c : ℕ} :
    c ∈ [firstChild i, secondChild i, firstChild (firstChild i), secondChild (firstChild i),
      firstChild (secondChild i), secondChild (secondChild i)] ↔ c / 2 = i ∨ c / 2 / 2 = i := by
  simp only [firstChild, secondChild, List.mem_cons, List.not_mem_nil, or_false]
  omega

theorem indexMinmaxChildGrandchild_leastBelow (h : TotalPreorderCmp comparator)
    (heap : NrMinmaxHeap α) (op : CompareOp) {i : ℕ} (hi : 1 ≤ i) (hiu : 2 * i ≤ heap.used) :
    ∃ m, indexMinmaxChildGrandchild comparator heap i op = some m ∧
      LeastBelow (opLe comparator op) (heap.at_ d) heap.used i m := by
  have hfirst : firstChild i ≤ heap.used := by
    rw [firstChild]
    omega
  have hpos : ∀ c ∈ [secondChild i, firstChild (firstChild i), secondChild (firstChild i),
      firstChild (secondChild i), secondChild (secondChild i)], 1 ≤ c := by
    intro c hc
    have := child_or_grandchild.mp (List.mem_cons_of_mem (firstChild i) hc)
    omega
  obtain ⟨m, hfold, hm, hmu, hleast⟩ := foldl_betterIndex (d := d) h heap op hpos
    (show 1 ≤ firstChild i by rw [firstChild]; omega) hfirst
  refine ⟨m, ?_, child_or_grandchild.mp hm, hmu, fun c hcu hc => ?_⟩
  · simp only [indexMinmaxChildGrandchild, if_pos hfirst]
    exact hfold
  · exact hleast c (child_or_grandchild.mpr hc) hcu

theorem orderedBy_trickledownMinmax (h : TotalPreorderCmp comparator) {op : CompareOp} (fuel : ℕ)
    {heap : NrMinmaxHeap α} {i : ℕ} (hi : 1 ≤ i) (hfuel : heap.used < i + fuel)
    (hlo : opLo op i = true)
    (hs : SinkingAt (opLe comparator op) (opLo op) (heap.at_ d) heap.used i) :
    OrderedBy comparator op d (trickledownMinmax comparator fuel heap i op) := by
  have hle := h.totalPreorder op
  have halt := opLo_alternates op
  induction fuel generalizing heap i with
  | zero => exact hs.minmaxOrdered_of_leaf (by omega)
  | succ fuel ih =>
      rw [trickledownMinmax]
      by_cases hleaf : heap.used < 2 * i
      · rw [indexMinmaxChildGrandchild_eq_none op hleaf]
        exact hs.minmaxOrdered_of_leaf hleaf
      obtain ⟨m, hindex, hm⟩ := indexMinmaxChildGrandchild_leastBelow (d := d) h heap op hi
        (by omega)
      rw [hindex]
      have him := hm.ancestor.lt hi
      have hmu := hm.le_n
      have hm1 : 1 ≤ m := by omega
      have hiu : i ≤ heap.used := by omega
      have hswap : ∀ k, 1 ≤ k → (heap.swap i m).at_ d k = exchange (heap.at_ d) i m k :=
        fun k hk => at_swap d heap hi hiu hm1 hmu hk
      by_cases hexpect : compareExpect comparator heap m i op = true
      swap
      · -- the element is no greater than the least one below
        have hstop := le_of_not_compareExpect h (d := d) hm1 hmu hi hiu hexpect
        have hdone : OrderedBy comparator op d heap := hs.minmaxOrdered hle halt hi hlo hm hstop
        simpa [hexpect] using hdone
      have hlt := not_le_of_compareExpect h (d := d) hm1 hmu hi hiu hexpect
      have hused : (heap.swap i m).used = heap.used := used_swap heap i m
      by_cases hgrand : m > secondChild i
      · simp only [hgrand, hexpect, if_true]
        rw [secondChild] at hgrand
        have hgrand' : m / 2 / 2 = i := hm.below.resolve_left (by omega)
        have hp : 1 ≤ m / 2 := by omega
        have hpu : m / 2 ≤ (heap.swap i m).used := by omega
        have hlom : opLo op m = true := by
          rw [← halt.grandparent (show 4 ≤ m by omega), hgrand']
          exact hlo
        have hat_m : (heap.swap i m).at_ d m = heap.at_ d i := by
          rw [hswap m hm1, exchange_right]
        have hat_p : (heap.swap i m).at_ d (m / 2) = heap.at_ d (m / 2) := by
          rw [hswap _ hp, exchange_other _ (by omega) (by omega)]
        simp only [parent]
        by_cases hparent : compareExpect comparator (heap.swap i m) m (m / 2) op = true
        · have hpar := not_le_of_compareExpect h (d := d) hm1 (by omega) hp hpu hparent
          rw [hat_m, hat_p] at hpar
          have hgo := hs.exchange_grandchild hle halt hi hlo hm hgrand' hlt hpar
          simp only [hparent, Bool.not_true, Bool.false_eq_true, if_false]
          refine ih hm1 (by omega) hlom ?_
          rw [hused]
          exact OrderedWhere.congr hgo fun k hk _ => hswap k hk
        · have hpar := le_of_not_compareExpect h (d := d) hm1 (by omega) hp hpu hparent
          rw [hat_m, hat_p] at hpar
          have hgo := hs.exchange_grandchild_parent hle halt hi hlo hm hgrand' hlt hpar
          simp only [hparent, Bool.not_false, if_true]
          refine ih hm1 (by rw [used_swap]; omega) hlom ?_
          rw [used_swap, hused]
          refine OrderedWhere.congr hgo fun k hk _ => ?_
          rw [at_swap d _ hm1 (by omega) hp hpu hk]
          simp only [exchange, hswap m hm1, hswap _ hp, hswap k hk]
      · simp only [hgrand, hexpect, if_true, if_false]
        rw [secondChild] at hgrand
        have hchild : m / 2 = i := hm.below.resolve_right (by omega)
        have hdone := hs.exchange_child hle halt hi hlo hm hchild hlt
        rw [OrderedBy, hused]
        exact OrderedWhere.congr hdone fun k hk _ => hswap k hk

/-- An element put in some place of an ordered heap finds its own. -/
theorem orderedBy_trickledown (h : TotalPreorderCmp comparator) {heap : NrMinmaxHeap α} {i : ℕ}
    (hi : 1 ≤ i)
    (hs : SinkingAt (opLe comparator .lessThan) (opLo .lessThan) (heap.at_ d) heap.used i) :
    OrderedBy comparator .lessThan d (trickledown comparator heap i) := by
  rw [trickledown]
  split_ifs with hmin
  · exact orderedBy_trickledownMinmax h _ hi (by omega) hmin hs
  · refine (orderedBy_iff .greaterThan).mp <| orderedBy_trickledownMinmax h _ hi (by omega) ?_ ?_
    · simpa [opLo] using hmin
    · exact sinkingAt_flip.mpr hs

end

/-! ### What is moved about -/

/-- The same elements in other positions, under the same bound. -/
structure Rearranged (heap' heap : NrMinmaxHeap α) : Prop where
  bound : heap'.bound = heap.bound
  perm : heap'.elements.Perm heap.elements

theorem Rearranged.refl (heap : NrMinmaxHeap α) : Rearranged heap heap :=
  ⟨rfl, List.Perm.refl _⟩

theorem Rearranged.trans {a b c : NrMinmaxHeap α} (hab : Rearranged a b) (hbc : Rearranged b c) :
    Rearranged a c :=
  ⟨hab.bound.trans hbc.bound, hab.perm.trans hbc.perm⟩

theorem rearranged_swap (heap : NrMinmaxHeap α) (i j : ℕ) : Rearranged (heap.swap i j) heap :=
  ⟨rfl, swapAt_perm _ _ _⟩

theorem rearranged_bubbleupMinmax (comparator : α → α → ℤ) (fuel : ℕ) (heap : NrMinmaxHeap α)
    (i : ℕ) (op : CompareOp) : Rearranged (bubbleupMinmax comparator fuel heap i op) heap := by
  induction fuel generalizing heap i with
  | zero => exact .refl heap
  | succ fuel ih =>
      rw [bubbleupMinmax_succ]
      split_ifs
      · exact .refl heap
      · exact (ih _ _).trans (rearranged_swap heap _ _)
      · exact .refl heap

theorem rearranged_bubbleup (comparator : α → α → ℤ) (heap : NrMinmaxHeap α) (i : ℕ) :
    Rearranged (bubbleup comparator heap i) heap := by
  have hup := rearranged_bubbleupMinmax comparator
  simp only [bubbleup, bubbleupMin, bubbleupMax]
  split_ifs
  · exact .refl heap
  · exact (hup _ _ _ _).trans (rearranged_swap heap _ _)
  · exact hup _ _ _ _
  · exact (hup _ _ _ _).trans (rearranged_swap heap _ _)
  · exact hup _ _ _ _

theorem rearranged_trickledownMinmax (comparator : α → α → ℤ) (fuel : ℕ) (heap : NrMinmaxHeap α)
    (i : ℕ) (op : CompareOp) :
    Rearranged (trickledownMinmax comparator fuel heap i op) heap := by
  induction fuel generalizing heap i with
  | zero => exact .refl heap
  | succ fuel ih =>
      simp only [trickledownMinmax]
      split
      · exact .refl heap
      · next m _ =>
        have hswap := rearranged_swap heap i m
        split_ifs
        · exact (ih _ _).trans ((rearranged_swap _ _ _).trans hswap)
        · exact (ih _ _).trans hswap
        · exact .refl heap
        · exact hswap
        · exact .refl heap

theorem rearranged_trickledown (comparator : α → α → ℤ) (heap : NrMinmaxHeap α) (i : ℕ) :
    Rearranged (trickledown comparator heap i) heap := by
  rw [trickledown]
  split_ifs <;> exact rearranged_trickledownMinmax comparator _ heap i _

/-! ### Insertions and removals -/

section

variable {comparator : α → α → ℤ}

/-- Every element of a min layer is no greater than those below it, and every
element of a max layer no less. -/
def MinmaxOrder (comparator : α → α → ℤ) (heap : NrMinmaxHeap α) : Prop :=
  ∀ i j x y, 1 ≤ i → Ancestor i j → heap.elements[i - 1]? = some x → heap.elements[j - 1]? = some y →
    if isMin i then comparator x y ≤ 0 else comparator y x ≤ 0

theorem minmaxOrder_iff (d : α) {heap : NrMinmaxHeap α} :
    MinmaxOrder comparator heap ↔ OrderedBy comparator .lessThan d heap := by
  have hinOrder : ∀ a b, InOrder (opLe comparator .lessThan) (opLo .lessThan) (heap.at_ d) a b ↔
      if isMin a then comparator (heap.at_ d a) (heap.at_ d b) ≤ 0
      else comparator (heap.at_ d b) (heap.at_ d a) ≤ 0 := fun _ _ => Iff.rfl
  constructor
  · intro h a b ha hb hanc _
    have hab := hanc.lt ha
    exact h a b _ _ ha hanc (getElem?_eq_at d heap ha (by omega))
      (getElem?_eq_at d heap (by omega) hb)
  · intro h i j x y hi hanc hx hy
    have hij := hanc.lt hi
    have hju : j ≤ heap.used := by
      have := (List.getElem?_eq_some_iff.mp hy).1
      rw [used]
      omega
    rw [getElem?_eq_at d heap hi (by omega)] at hx
    rw [getElem?_eq_at d heap (by omega) hju] at hy
    cases hx
    cases hy
    exact (hinOrder i j).mp (h i j hi hju hanc trivial)

/-- The heap with another element at a position, and one position less. -/
def replace (heap : NrMinmaxHeap α) (i : ℕ) (last : α) : NrMinmaxHeap α :=
  { heap with elements := (heap.elements.set (i - 1) last).dropLast }

theorem used_replace (heap : NrMinmaxHeap α) (i : ℕ) (last : α) :
    (heap.replace i last).used = heap.used - 1 := by
  simp [replace, used]

theorem at_replace (d : α) (heap : NrMinmaxHeap α) {i k : ℕ} (last : α) (hi : 1 ≤ i) (hk : 1 ≤ k)
    (hku : k < heap.used) :
    (heap.replace i last).at_ d k = if k = i then last else heap.at_ d k := by
  rw [used] at hku
  have hdrop : k - 1 < (heap.elements.set (i - 1) last).length - 1 := by
    rw [List.length_set]
    omega
  simp only [replace, at_, List.getD_eq_getElem?_getD, List.getElem?_dropLast, if_pos hdrop,
    List.getElem?_set]
  split_ifs <;> first | rfl | omega

/-- What goes and what stays when the last element takes the place of another. -/
theorem perm_set_dropLast (l : List α) {last : α} (hlast : l.getLast? = some last) {i : ℕ}
    {x : α} (hx : l[i]? = some x) : l.Perm (x :: (l.set i last).dropLast) := by
  obtain ⟨init, rfl⟩ : ∃ init, l = init ++ [last] := List.getLast?_eq_some_iff.mp hlast
  obtain ⟨hi, hxi⟩ := List.getElem?_eq_some_iff.mp hx
  by_cases hlt : i < init.length
  · rw [List.set_append_left _ _ hlt, List.dropLast_concat]
    rw [List.getElem_append_left hlt] at hxi
    have hset : (init.set i last).Perm (last :: init.eraseIdx i) :=
      List.set_perm_cons_eraseIdx hlt last
    have hself : init.Perm (x :: init.eraseIdx i) := by
      rw [← hxi]
      exact (List.getElem_cons_eraseIdx_perm hlt).symm
    calc
      List.Perm (init ++ [last]) (last :: init) := List.perm_append_singleton last init
      List.Perm _ (last :: x :: init.eraseIdx i) := hself.cons last
      List.Perm _ (x :: last :: init.eraseIdx i) := List.Perm.swap x last _
      List.Perm _ (x :: init.set i last) := hset.symm.cons x
  · obtain rfl : i = init.length := by
      rw [List.length_append, List.length_singleton] at hi
      omega
    have hxl : x = last := by simpa using hxi.symm
    rw [hxl, List.set_append_right _ _ (Nat.le_refl _)]
    simp

/-- The last element in the place of one whose ancestors are all in order with
it. -/
theorem minmaxOrder_trickledown_replace (h : TotalPreorderCmp comparator) {heap : NrMinmaxHeap α}
    {i : ℕ} {last : α} (ho : MinmaxOrder comparator heap) (hi : 1 ≤ i)
    (hlast : heap.elements.getLast? = some last)
    (habove : ∀ a, 1 ≤ a → i < heap.used → Ancestor a i →
      if isMin a then comparator (heap.at_ last a) last ≤ 0
      else comparator last (heap.at_ last a) ≤ 0) :
    MinmaxOrder comparator (trickledown comparator (heap.replace i last) i) := by
  have hpos : heap.used ≠ 0 := by
    intro hzero
    rw [List.length_eq_zero_iff.mp hzero] at hlast
    cases hlast
  obtain ⟨n, hn⟩ : ∃ n, heap.used = n + 1 := ⟨heap.used - 1, by omega⟩
  have hordered := (minmaxOrder_iff last).mp ho
  rw [OrderedBy, hn] at hordered
  have hat : ∀ k, 1 ≤ k → k ≤ n →
      (heap.replace i last).at_ last k = if k = i then last else heap.at_ last k :=
    fun k hk hkn => at_replace last heap last hi hk (by omega)
  rw [minmaxOrder_iff last]
  refine orderedBy_trickledown h hi ?_
  rw [used_replace, hn, Nat.add_sub_cancel]
  refine hordered.replace (fun k hk hkn hki => (hat k hk hkn).trans (if_neg hki))
    fun a ha hin hanc => ?_
  have hai := hanc.lt ha
  have hab := habove a ha (by omega) hanc
  simp only [InOrder, hat a ha (show a ≤ n by omega), hat i hi hin, hai.ne, if_true, if_false]
  exact hab

/-- `heap` has room for another element. -/
def push (comparator : α → α → ℤ) (heap : NrMinmaxHeap α) (value : α) : NrMinmaxHeap α :=
  bubbleup comparator { heap with elements := heap.elements ++ [value] } (heap.used + 1)

theorem minmaxOrder_push (h : TotalPreorderCmp comparator) {heap : NrMinmaxHeap α}
    (ho : MinmaxOrder comparator heap) (value : α) :
    MinmaxOrder comparator (push comparator heap value) := by
  have hused : ({ heap with elements := heap.elements ++ [value] } : NrMinmaxHeap α).used =
      heap.used + 1 := by
    simp [used]
  rw [minmaxOrder_iff value, push, ← hused]
  refine orderedBy_bubbleup h (by omega) ?_
  rw [hused]
  intro a b ha hb hanc hne
  have hab := hanc.lt ha
  have hat : ∀ k, 1 ≤ k → k ≤ heap.used →
      ({ heap with elements := heap.elements ++ [value] } : NrMinmaxHeap α).at_ value k =
        heap.at_ value k := by
    intro k hk hku
    rw [used] at hku
    simp only [at_, List.getD_eq_getElem?_getD]
    rw [List.getElem?_append_left (by omega)]
  have hold := (minmaxOrder_iff value).mp ho a b ha (by omega) hanc trivial
  exact hold.congr (hat a ha (by omega)) (hat b (by omega) (by omega))

theorem perm_push (comparator : α → α → ℤ) (heap : NrMinmaxHeap α) (value : α) :
    (push comparator heap value).elements.Perm (value :: heap.elements) :=
  (rearranged_bubbleup comparator _ _).perm.trans (List.perm_append_singleton _ _)

theorem bound_push (heap : NrMinmaxHeap α) (value : α) :
    (push comparator heap value).bound = heap.bound :=
  (rearranged_bubbleup comparator _ _).bound

end

end NrMinmaxHeap

section

variable {comparator : α → α → ℤ}

/-! ### The interface -/

theorem minmaxOrder_of_small {heap : NrMinmaxHeap α} (hsmall : heap.used ≤ 1) :
    MinmaxOrder comparator heap := by
  intro i j x y hi hanc hx hy
  have hij := hanc.lt hi
  have hlen := (List.getElem?_eq_some_iff.mp hy).1
  rw [used] at hsmall
  omega

theorem minmaxOrder_popMin (h : TotalPreorderCmp comparator) {heap : NrMinmaxHeap α}
    (ho : MinmaxOrder comparator heap) :
    MinmaxOrder comparator (nrMinmaxHeapPopMin comparator heap) := by
  rw [nrMinmaxHeapPopMin]
  split
  · exact ho
  · next last hlast =>
    split_ifs
    · exact minmaxOrder_of_small (Nat.zero_le _)
    · refine minmaxOrder_trickledown_replace h ho (Nat.le_refl 1) hlast fun a ha _ hanc => ?_
      have := hanc.lt ha
      omega

/-- The element that `nr_minmax_heap_pop_min` returns. -/
def nrMinmaxHeapPopMinValue (heap : NrMinmaxHeap α) : Option α := heap.elements[0]?

theorem perm_popMin (comparator : α → α → ℤ) {heap : NrMinmaxHeap α} {x : α}
    (hx : nrMinmaxHeapPopMinValue heap = some x) :
    heap.elements.Perm (x :: (nrMinmaxHeapPopMin comparator heap).elements) := by
  rw [nrMinmaxHeapPopMinValue] at hx
  rw [nrMinmaxHeapPopMin]
  split
  · next hnone =>
    rw [List.getLast?_eq_none_iff.mp hnone] at hx
    cases hx
  · next last hlast =>
    split_ifs with hone
    · obtain ⟨y, hy⟩ := List.length_eq_one_iff.mp hone
      rw [hy] at hx ⊢
      cases hx
      exact List.Perm.refl _
    · exact (perm_set_dropLast _ hlast hx).trans
        ((rearranged_trickledown comparator (heap.replace 1 last) 1).perm.symm.cons x)

theorem bound_popMin (heap : NrMinmaxHeap α) :
    (nrMinmaxHeapPopMin comparator heap).bound = heap.bound := by
  rw [nrMinmaxHeapPopMin]
  split
  · rfl
  · split_ifs
    · rfl
    · exact (rearranged_trickledown comparator _ 1).bound

theorem peekMin_le (h : TotalPreorderCmp comparator) {heap : NrMinmaxHeap α}
    (ho : MinmaxOrder comparator heap) {x y : α} (hx : nrMinmaxHeapPeekMin heap = some x)
    (hy : y ∈ heap.elements) : comparator x y ≤ 0 := by
  obtain ⟨j, hyj⟩ := List.mem_iff_getElem?.mp hy
  by_cases hj : j = 0
  · subst hj
    obtain rfl : x = y := Option.some.inj (hx.symm.trans hyj)
    exact (h.totalPreorder .lessThan).refl x
  · exact ho 1 (j + 1) x y (Nat.le_refl 1) (one_ancestor (by omega)) hx hyj

theorem le_greater_child (h : TotalPreorderCmp comparator) {heap : NrMinmaxHeap α}
    (ho : MinmaxOrder comparator heap) {c c' : ℕ} {x x' y : α}
    (hc : c = 2 ∧ c' = 3 ∨ c = 3 ∧ c' = 2) (hx : heap.elements[c - 1]? = some x)
    (hx' : heap.elements[c' - 1]? = some x') (hle : comparator x' x ≤ 0) (hy : y ∈ heap.elements) :
    comparator y x ≤ 0 := by
  have hrefl := (h.totalPreorder .lessThan).refl
  obtain ⟨j, hyj⟩ := List.mem_iff_getElem?.mp hy
  -- what holds below each of the two children
  have hbelow : ∀ i z, i = 2 ∨ i = 3 → heap.elements[i - 1]? = some z →
      j + 1 = i ∨ Ancestor i (j + 1) → comparator y z ≤ 0 := by
    intro i z hi hz hj
    rcases hj with hj | hanc
    · obtain rfl : y = z := Option.some.inj (hyj.symm.trans (by rwa [← hj] at hz))
      exact hrefl y
    · have hmax : isMin i = false := by rcases hi with rfl | rfl <;> decide
      have hord := ho i (j + 1) z y (by omega) hanc hz hyj
      rwa [hmax] at hord
  by_cases hj : j = 0
  · subst hj
    exact ho 1 c y x (Nat.le_refl 1) (one_ancestor (by omega)) hyj hx
  have htwo := below_children (show 2 ≤ j + 1 by omega)
  rcases hc with ⟨rfl, rfl⟩ | ⟨rfl, rfl⟩
  · rcases htwo with hl | hr
    · exact hbelow 2 x (Or.inl rfl) hx hl
    · exact h.trans _ _ _ (hbelow 3 x' (Or.inr rfl) hx' hr) hle
  · rcases htwo with hl | hr
    · exact h.trans _ _ _ (hbelow 2 x' (Or.inl rfl) hx' hl) hle
    · exact hbelow 3 x (Or.inr rfl) hx hr

theorem children_of_root (comparator : α → α → ℤ) {heap : NrMinmaxHeap α} (hu : 3 ≤ heap.used) :
    ∃ x2 x3, heap.elements[1]? = some x2 ∧ heap.elements[2]? = some x3 ∧
      compare comparator heap 2 3 = comparator x2 x3 := by
  rw [used] at hu
  refine ⟨heap.elements[1], heap.elements[2], List.getElem?_eq_getElem _,
    List.getElem?_eq_getElem _, ?_⟩
  rw [NrMinmaxHeap.compare, List.getElem?_eq_getElem (show 2 - 1 < heap.elements.length by omega),
    List.getElem?_eq_getElem (show 3 - 1 < heap.elements.length by omega)]

theorem le_last_of_small (h : TotalPreorderCmp comparator) {heap : NrMinmaxHeap α}
    (ho : MinmaxOrder comparator heap) (hsmall : heap.used ≤ 2) {x y : α}
    (hx : heap.elements[heap.used - 1]? = some x) (hy : y ∈ heap.elements) :
    comparator y x ≤ 0 := by
  obtain ⟨j, hyj⟩ := List.mem_iff_getElem?.mp hy
  have hj := (List.getElem?_eq_some_iff.mp hyj).1
  rw [used] at hsmall hx
  by_cases hlast : j = heap.elements.length - 1
  · subst hlast
    obtain rfl : y = x := Option.some.inj (hyj.symm.trans hx)
    exact (h.totalPreorder .lessThan).refl y
  · obtain rfl : j = 0 := by omega
    have htwo : heap.elements.length = 2 := by omega
    rw [htwo] at hx
    exact ho 1 2 y x (Nat.le_refl 1) (.parent rfl) hyj hx

theorem le_peekMax (h : TotalPreorderCmp comparator) {heap : NrMinmaxHeap α}
    (ho : MinmaxOrder comparator heap) {x y : α}
    (hx : nrMinmaxHeapPeekMax comparator heap = some x) (hy : y ∈ heap.elements) :
    comparator y x ≤ 0 := by
  rw [nrMinmaxHeapPeekMax] at hx
  by_cases hsmall : heap.used ≤ 2
  · refine le_last_of_small h ho hsmall ?_ hy
    split_ifs at hx with h0 h1 h2
    · rwa [h1]
    · rwa [h2]
    · omega
    · omega
  obtain ⟨x2, x3, hx2, hx3, hcompare⟩ := children_of_root comparator
    (show 3 ≤ heap.used by omega)
  rw [if_neg (by omega), if_neg (by omega), if_neg (by omega), hcompare] at hx
  split_ifs at hx with hgreater
  · obtain rfl : x2 = x := Option.some.inj (hx2.symm.trans hx)
    exact le_greater_child h ho (Or.inl ⟨rfl, rfl⟩) hx2 hx3 ((h.swap _ _).mp hgreater).le hy
  · obtain rfl : x3 = x := Option.some.inj (hx3.symm.trans hx)
    exact le_greater_child h ho (Or.inr ⟨rfl, rfl⟩) hx3 hx2 (not_lt.mp hgreater) hy

/-- What `nr_minmax_heap_pop_max` does to a heap of more than two elements. -/
theorem popMax_large (comparator : α → α → ℤ) {heap : NrMinmaxHeap α} (hu : 3 ≤ heap.used) :
    ∃ c c' x x' last, (c = 2 ∧ c' = 3 ∨ c = 3 ∧ c' = 2) ∧ heap.elements[c - 1]? = some x ∧
      heap.elements[c' - 1]? = some x' ∧ heap.elements.getLast? = some last ∧
      (c = 3 → comparator x' x < 0) ∧ (c = 2 → ¬ comparator x x' < 0) ∧
      nrMinmaxHeapPopMax comparator heap =
        (some x, trickledown comparator (heap.replace c last) c) := by
  obtain ⟨x2, x3, hx2, hx3, hcompare⟩ := children_of_root comparator hu
  obtain ⟨last, hlast⟩ : ∃ last, heap.elements.getLast? = some last := by
    rw [used] at hu
    exact ⟨_, List.getLast?_eq_some_getLast (List.ne_nil_of_length_pos (by omega))⟩
  have hpop : nrMinmaxHeapPopMax comparator heap =
      if comparator x2 x3 < 0 then (some x3, trickledown comparator (heap.replace 3 last) 3)
      else (some x2, trickledown comparator (heap.replace 2 last) 2) := by
    simp only [nrMinmaxHeapPopMax, hlast, hcompare, if_neg (show ¬ heap.used ≤ 2 by omega)]
    split_ifs
    · rw [show 3 - 1 = 2 from rfl, hx3]
      rfl
    · rw [show 2 - 1 = 1 from rfl, hx2]
      rfl
  by_cases hless : comparator x2 x3 < 0
  · refine ⟨3, 2, x3, x2, last, Or.inr ⟨rfl, rfl⟩, hx3, hx2, hlast, fun _ => hless,
      fun hc => by omega, ?_⟩
    rw [hpop, if_pos hless]
  · refine ⟨2, 3, x2, x3, last, Or.inl ⟨rfl, rfl⟩, hx2, hx3, hlast, fun hc => by omega,
      fun _ => hless, ?_⟩
    rw [hpop, if_neg hless]

theorem popMax_small {heap : NrMinmaxHeap α} (hu : heap.used ≤ 2) :
    nrMinmaxHeapPopMax comparator heap =
      (heap.elements[heap.used - 1]?, { heap with elements := heap.elements.dropLast }) := by
  have hlast : heap.elements.getLast? = heap.elements[heap.used - 1]? := by
    rw [List.getLast?_eq_getElem?, used]
  rw [nrMinmaxHeapPopMax, ← hlast]
  split
  · next hnone =>
    obtain ⟨bound, elements⟩ := heap
    obtain rfl : elements = [] := List.getLast?_eq_none_iff.mp hnone
    rfl
  · next last hsome =>
    rw [if_pos hu, hsome]

theorem le_popMax (h : TotalPreorderCmp comparator) {heap : NrMinmaxHeap α}
    (ho : MinmaxOrder comparator heap) {x y : α}
    (hx : (nrMinmaxHeapPopMax comparator heap).1 = some x) (hy : y ∈ heap.elements) :
    comparator y x ≤ 0 := by
  by_cases hsmall : heap.used ≤ 2
  · rw [popMax_small hsmall] at hx
    exact le_last_of_small h ho hsmall hx hy
  · obtain ⟨c, c', z, x', last, hc, hz, hx', hlast, hthree, htwo, hpop⟩ :=
      popMax_large comparator (show 3 ≤ heap.used by omega)
    rw [hpop] at hx
    obtain rfl : z = x := Option.some.inj hx
    refine le_greater_child h ho hc hz hx' ?_ hy
    rcases hc with ⟨rfl, -⟩ | ⟨rfl, -⟩
    · exact not_lt.mp (mt (h.swap _ _).mp (htwo rfl))
    · exact (hthree rfl).le

theorem minmaxOrder_popMax (h : TotalPreorderCmp comparator) {heap : NrMinmaxHeap α}
    (ho : MinmaxOrder comparator heap) :
    MinmaxOrder comparator (nrMinmaxHeapPopMax comparator heap).2 := by
  by_cases hsmall : heap.used ≤ 2
  · rw [popMax_small hsmall]
    refine minmaxOrder_of_small ?_
    rw [used] at hsmall
    rw [used, List.length_dropLast]
    omega
  · obtain ⟨c, c', z, x', last, hc, hz, hx', hlast, -, -, hpop⟩ :=
      popMax_large comparator (show 3 ≤ heap.used by omega)
    rw [hpop]
    refine minmaxOrder_trickledown_replace h ho (by omega) hlast fun a ha _ hanc => ?_
    obtain rfl : a = 1 := by
      have := hanc.lt ha
      cases hanc with
      | parent hpar => omega
      | above habove =>
          have := habove.lt ha
          omega
    have hroot := getElem?_eq_at last heap (Nat.le_refl 1) (show 1 ≤ heap.used by omega)
    exact peekMin_le h ho hroot (List.mem_of_getLast? hlast)

theorem perm_popMax {heap : NrMinmaxHeap α} {x : α}
    (hx : (nrMinmaxHeapPopMax comparator heap).1 = some x) :
    heap.elements.Perm (x :: (nrMinmaxHeapPopMax comparator heap).2.elements) := by
  by_cases hsmall : heap.used ≤ 2
  · rw [popMax_small hsmall] at hx ⊢
    have hlast : heap.elements.getLast? = some x := by
      rw [List.getLast?_eq_getElem?]
      exact hx
    have hset := perm_set_dropLast _ hlast hx
    obtain ⟨hlt, hget⟩ := List.getElem?_eq_some_iff.mp hx
    rw [← hget, List.set_getElem_self, hget] at hset
    exact hset
  · obtain ⟨c, c', z, x', last, hc, hz, hx', hlast, -, -, hpop⟩ :=
      popMax_large comparator (show 3 ≤ heap.used by omega)
    rw [hpop] at hx ⊢
    obtain rfl : z = x := Option.some.inj hx
    exact (perm_set_dropLast _ hlast hz).trans
      ((rearranged_trickledown comparator (heap.replace c last) c).perm.symm.cons z)

theorem bound_popMax (heap : NrMinmaxHeap α) :
    (nrMinmaxHeapPopMax comparator heap).2.bound = heap.bound := by
  by_cases hsmall : heap.used ≤ 2
  · rw [popMax_small hsmall]
  · obtain ⟨c, c', z, x', last, -, -, -, -, -, -, hpop⟩ :=
      popMax_large comparator (show 3 ≤ heap.used by omega)
    rw [hpop]
    exact (rearranged_trickledown comparator _ c).bound

/-! ### A heap with a bound -/

/-- What every call keeps. -/
structure HeapInvariant (comparator : α → α → ℤ) (k : ℕ) (heap : NrMinmaxHeap α) : Prop where
  bound : heap.bound = k
  size : heap.used ≤ k
  order : MinmaxOrder comparator heap

theorem insert_of_room {k : ℕ} {heap : NrMinmaxHeap α} (hinv : HeapInvariant comparator k heap)
    (hroom : heap.used < k) (value : α) :
    nrMinmaxHeapInsert comparator heap value = push comparator heap value ∧
      nrMinmaxHeapInsertDestroyed comparator heap value = [] := by
  have hnot : ¬ (heap.bound ≠ 0 ∧ heap.used ≥ heap.bound) := by
    rw [hinv.bound]
    omega
  rw [nrMinmaxHeapInsert, nrMinmaxHeapInsertDestroyed, if_neg hnot, if_neg hnot]
  exact ⟨rfl, rfl⟩

/-- A full heap destroys one element that is no greater than those it keeps: the
new one, or one of its own. -/
theorem insert_of_full (h : TotalPreorderCmp comparator) {k : ℕ} (hk : 2 ≤ k)
    {heap : NrMinmaxHeap α} (hinv : HeapInvariant comparator k heap) (hfull : heap.used = k)
    (value : α) :
    ∃ x, nrMinmaxHeapInsertDestroyed comparator heap value = [x] ∧
      ((nrMinmaxHeapInsert comparator heap value).elements ++ [x]).Perm (value :: heap.elements) ∧
      (∀ y ∈ (nrMinmaxHeapInsert comparator heap value).elements, comparator x y ≤ 0) ∧
      (x ∈ heap.elements ∨
        (nrMinmaxHeapInsert comparator heap value).elements = heap.elements) ∧
      HeapInvariant comparator k (nrMinmaxHeapInsert comparator heap value) := by
  have hcond : heap.bound ≠ 0 ∧ heap.used ≥ heap.bound := by
    rw [hinv.bound]
    omega
  obtain ⟨least, hleast⟩ : ∃ least, nrMinmaxHeapPeekMin heap = some least := by
    rw [used] at hfull
    exact ⟨_, List.getElem?_eq_getElem (show 0 < heap.elements.length by omega)⟩
  have hmin : ∀ {y}, y ∈ heap.elements → comparator least y ≤ 0 :=
    fun hy => peekMin_le h hinv.order hleast hy
  rw [nrMinmaxHeapInsert, nrMinmaxHeapInsertDestroyed, if_pos hcond, if_pos hcond]
  simp only [hleast]
  by_cases hless : comparator least value > 0
  · rw [if_pos hless, if_pos hless]
    refine ⟨value, rfl, List.perm_append_singleton _ _, fun y hy => ?_, Or.inr rfl, hinv⟩
    exact h.trans _ _ _ ((h.swap _ _).mp hless).le (hmin hy)
  · rw [if_neg hless, if_neg hless]
    have hpop : heap.elements.Perm (least :: (nrMinmaxHeapPopMin comparator heap).elements) :=
      perm_popMin comparator hleast
    have hpush := perm_push comparator (nrMinmaxHeapPopMin comparator heap) value
    have horder := minmaxOrder_push h (minmaxOrder_popMin h hinv.order) value
    have hused : (push comparator (nrMinmaxHeapPopMin comparator heap) value).used = k := by
      have hlen := hpop.length_eq
      have hlen' := hpush.length_eq
      rw [List.length_cons] at hlen hlen'
      rw [used] at hfull ⊢
      omega
    refine ⟨least, rfl, ?_, fun y hy => ?_, Or.inl ?_,
      ⟨(bound_push _ _).trans ((bound_popMin heap).trans hinv.bound), hused.le, horder⟩⟩
    · calc
        List.Perm _ (least :: (push comparator (nrMinmaxHeapPopMin comparator heap) value).elements) :=
          List.perm_append_singleton _ _
        List.Perm _ (least :: value :: (nrMinmaxHeapPopMin comparator heap).elements) :=
          hpush.cons least
        List.Perm _ (value :: least :: (nrMinmaxHeapPopMin comparator heap).elements) :=
          List.Perm.swap _ _ _
        List.Perm _ (value :: heap.elements) := hpop.symm.cons value
    · rcases List.mem_cons.mp (hpush.mem_iff.mp hy) with rfl | hy'
      · exact not_lt.mp hless
      · exact hmin (hpop.mem_iff.mpr (List.mem_cons_of_mem _ hy'))
    · exact hpop.mem_iff.mpr (List.mem_cons_self ..)

theorem heapInvariant_push (h : TotalPreorderCmp comparator) {k : ℕ} {heap : NrMinmaxHeap α}
    (hinv : HeapInvariant comparator k heap) (hroom : heap.used < k) (value : α) :
    HeapInvariant comparator k (push comparator heap value) := by
  refine ⟨(bound_push _ _).trans hinv.bound, ?_, minmaxOrder_push h hinv.order value⟩
  have hlen := (perm_push comparator heap value).length_eq
  rw [List.length_cons] at hlen
  rw [used] at hroom ⊢
  omega

theorem heapInvariant_insert (h : TotalPreorderCmp comparator) {k : ℕ} (hk : 2 ≤ k)
    {heap : NrMinmaxHeap α} (hinv : HeapInvariant comparator k heap) (value : α) :
    HeapInvariant comparator k (nrMinmaxHeapInsert comparator heap value) := by
  rcases Nat.lt_or_ge heap.used k with hroom | hfull
  · rw [(insert_of_room hinv hroom value).1]
    exact heapInvariant_push h hinv hroom value
  · obtain ⟨x, -, -, -, -, hinv'⟩ := insert_of_full h hk hinv (Nat.le_antisymm hinv.size hfull) value
    exact hinv'

theorem popMin_of_none (comparator : α → α → ℤ) {heap : NrMinmaxHeap α}
    (hx : nrMinmaxHeapPopMinValue heap = none) :
    heap.elements = [] ∧ nrMinmaxHeapPopMin comparator heap = heap := by
  have he : heap.elements = [] := by
    rw [nrMinmaxHeapPopMinValue, List.getElem?_eq_none_iff] at hx
    exact List.length_eq_zero_iff.mp (by omega)
  refine ⟨he, ?_⟩
  rw [nrMinmaxHeapPopMin, he]
  rfl

theorem popMax_of_none {heap : NrMinmaxHeap α}
    (hx : (nrMinmaxHeapPopMax comparator heap).1 = none) :
    heap.elements = [] ∧ (nrMinmaxHeapPopMax comparator heap).2 = heap := by
  by_cases hsmall : heap.used ≤ 2
  · rw [popMax_small hsmall] at hx ⊢
    obtain ⟨bound, elements⟩ := heap
    have he : elements = [] := by
      rw [List.getElem?_eq_none_iff, used] at hx
      by_contra hne
      have := List.length_pos_of_ne_nil hne
      simp only at hx
      omega
    subst he
    exact ⟨rfl, rfl⟩
  · obtain ⟨c, c', z, x', last, -, -, -, -, -, -, hpop⟩ :=
      popMax_large comparator (show 3 ≤ heap.used by omega)
    rw [hpop] at hx
    cases hx

theorem heapInvariant_popMin (h : TotalPreorderCmp comparator) {k : ℕ} {heap : NrMinmaxHeap α}
    (hinv : HeapInvariant comparator k heap) :
    HeapInvariant comparator k (nrMinmaxHeapPopMin comparator heap) := by
  refine ⟨(bound_popMin heap).trans hinv.bound, ?_, minmaxOrder_popMin h hinv.order⟩
  have hsize := hinv.size
  cases hx : nrMinmaxHeapPopMinValue heap with
  | none => rwa [(popMin_of_none comparator hx).2]
  | some x =>
      have hlen := (perm_popMin comparator hx).length_eq
      rw [List.length_cons] at hlen
      rw [used] at hsize ⊢
      omega

theorem heapInvariant_popMax (h : TotalPreorderCmp comparator) {k : ℕ} {heap : NrMinmaxHeap α}
    (hinv : HeapInvariant comparator k heap) :
    HeapInvariant comparator k (nrMinmaxHeapPopMax comparator heap).2 := by
  refine ⟨(bound_popMax heap).trans hinv.bound, ?_, minmaxOrder_popMax h hinv.order⟩
  have hsize := hinv.size
  cases hx : (nrMinmaxHeapPopMax comparator heap).1 with
  | none => rwa [(popMax_of_none hx).2]
  | some x =>
      have hlen := (perm_popMax hx).length_eq
      rw [List.length_cons] at hlen
      rw [used] at hsize ⊢
      omega

end

/-! ### Runs -/

section

variable (comparator : α → α → ℤ)

/-- A call that changes the heap. -/
inductive HeapCall (α : Type*)
  | insert (value : α)
  | popMin
  | popMax

def heapCall (heap : NrMinmaxHeap α) : HeapCall α → NrMinmaxHeap α
  | .insert value => nrMinmaxHeapInsert comparator heap value
  | .popMin => nrMinmaxHeapPopMin comparator heap
  | .popMax => (nrMinmaxHeapPopMax comparator heap).2

/-- A heap, and what its destructor was called on. -/
structure HeapRun (α : Type*) where
  heap : NrMinmaxHeap α
  destroyed : List α
  deriving DecidableEq

def insertStep (run : HeapRun α) (value : α) : HeapRun α :=
  { heap := nrMinmaxHeapInsert comparator run.heap value,
    destroyed := run.destroyed ++ nrMinmaxHeapInsertDestroyed comparator run.heap value }

/-- Insertions only. -/
def insertAll (heap : NrMinmaxHeap α) (values : List α) : HeapRun α :=
  values.foldl (insertStep comparator) { heap := heap, destroyed := [] }

def IsMinOf (x : α) (l : List α) : Prop := x ∈ l ∧ ∀ y ∈ l, comparator x y ≤ 0

def IsMaxOf (x : α) (l : List α) : Prop := x ∈ l ∧ ∀ y ∈ l, comparator y x ≤ 0

/-- What is looked at or taken from either end is there, unless the heap is empty,
and nothing else of the heap is beyond it. -/
structure EndsExtreme (heap : NrMinmaxHeap α) : Prop where
  peekMin_none : nrMinmaxHeapPeekMin heap = none → heap.elements = []
  peekMin : ∀ x, nrMinmaxHeapPeekMin heap = some x → IsMinOf comparator x heap.elements
  popMin_none : nrMinmaxHeapPopMinValue heap = none → heap.elements = []
  popMin : ∀ x, nrMinmaxHeapPopMinValue heap = some x → IsMinOf comparator x heap.elements
  peekMax_none : nrMinmaxHeapPeekMax comparator heap = none → heap.elements = []
  peekMax : ∀ x, nrMinmaxHeapPeekMax comparator heap = some x → IsMaxOf comparator x heap.elements
  popMax_none : (nrMinmaxHeapPopMax comparator heap).1 = none → heap.elements = []
  popMax : ∀ x, (nrMinmaxHeapPopMax comparator heap).1 = some x →
    IsMaxOf comparator x heap.elements

/-- The next call changes the contents by the element that is inserted or removed,
and an insertion into a full heap by the minimum it destroys. -/
structure ContentsExact (k : ℕ) (heap : NrMinmaxHeap α) : Prop where
  insert : ∀ value, ((nrMinmaxHeapInsert comparator heap value).elements ++
    nrMinmaxHeapInsertDestroyed comparator heap value).Perm (value :: heap.elements)
  insert_room : heap.used < k → ∀ value, nrMinmaxHeapInsertDestroyed comparator heap value = []
  insert_full : heap.used = k → ∀ value, ∃ x,
    nrMinmaxHeapInsertDestroyed comparator heap value = [x] ∧
      IsMinOf comparator x (value :: heap.elements)
  popMin_none : nrMinmaxHeapPopMinValue heap = none → nrMinmaxHeapPopMin comparator heap = heap
  popMin : ∀ x, nrMinmaxHeapPopMinValue heap = some x →
    heap.elements.Perm (x :: (nrMinmaxHeapPopMin comparator heap).elements)
  popMax_none : (nrMinmaxHeapPopMax comparator heap).1 = none →
    (nrMinmaxHeapPopMax comparator heap).2 = heap
  popMax : ∀ x, (nrMinmaxHeapPopMax comparator heap).1 = some x →
    heap.elements.Perm (x :: (nrMinmaxHeapPopMax comparator heap).2.elements)

/-- The elements of the heap are as many of the greatest of `values` as it may
hold, and the destructor was called on the others. -/
structure KeepsGreatest (k : ℕ) (run : HeapRun α) (values : List α) : Prop where
  length : run.heap.elements.length = min values.length k
  perm : (run.heap.elements ++ run.destroyed).Perm values
  greatest : ∀ x ∈ run.destroyed, ∀ y ∈ run.heap.elements, comparator x y ≤ 0

end

section

variable {comparator : α → α → ℤ}

theorem heapInvariant_calls (h : TotalPreorderCmp comparator) {k : ℕ} (hk : 2 ≤ k)
    {heap : NrMinmaxHeap α} (hinv : HeapInvariant comparator k heap) (calls : List (HeapCall α)) :
    HeapInvariant comparator k (calls.foldl (heapCall comparator) heap) := by
  induction calls generalizing heap with
  | nil => exact hinv
  | cons call calls ih =>
      refine ih ?_
      cases call with
      | insert value => exact heapInvariant_insert h hk hinv value
      | popMin => exact heapInvariant_popMin h hinv
      | popMax => exact heapInvariant_popMax h hinv

theorem endsExtreme_of_invariant (h : TotalPreorderCmp comparator) {k : ℕ} {heap : NrMinmaxHeap α}
    (hinv : HeapInvariant comparator k heap) : EndsExtreme comparator heap where
  peekMin_none hx := (popMin_of_none comparator hx).1
  peekMin x hx := ⟨List.mem_of_getElem? hx, fun y hy => peekMin_le h hinv.order hx hy⟩
  popMin_none hx := (popMin_of_none comparator hx).1
  popMin x hx := ⟨List.mem_of_getElem? hx, fun y hy => peekMin_le h hinv.order hx hy⟩
  peekMax_none hx := by
    rw [nrMinmaxHeapPeekMax] at hx
    rw [used] at hx
    split_ifs at hx with h0
    · exact List.length_eq_zero_iff.mp h0
    all_goals
      rw [List.getElem?_eq_none_iff] at hx
      exact List.length_eq_zero_iff.mp (by omega)
  peekMax x hx := by
    refine ⟨?_, fun y hy => le_peekMax h hinv.order hx hy⟩
    rw [nrMinmaxHeapPeekMax] at hx
    split_ifs at hx <;> exact List.mem_of_getElem? hx
  popMax_none hx := (popMax_of_none hx).1
  popMax x hx := by
    refine ⟨?_, fun y hy => le_popMax h hinv.order hx hy⟩
    exact (perm_popMax hx).mem_iff.mpr (List.mem_cons_self ..)

theorem contentsExact_of_invariant (h : TotalPreorderCmp comparator) {k : ℕ} (hk : 2 ≤ k)
    {heap : NrMinmaxHeap α} (hinv : HeapInvariant comparator k heap) :
    ContentsExact comparator k heap where
  insert value := by
    rcases Nat.lt_or_ge heap.used k with hroom | hfull
    · obtain ⟨hpush, hnone⟩ := insert_of_room hinv hroom value
      rw [hpush, hnone, List.append_nil]
      exact perm_push comparator heap value
    · obtain ⟨x, hx, hperm, -⟩ :=
        insert_of_full h hk hinv (Nat.le_antisymm hinv.size hfull) value
      rw [hx]
      exact hperm
  insert_room hroom value := (insert_of_room hinv hroom value).2
  insert_full hfull value := by
    obtain ⟨x, hx, hperm, hle, -⟩ := insert_of_full h hk hinv hfull value
    refine ⟨x, hx, hperm.mem_iff.mp (by simp), fun y hy => ?_⟩
    rcases List.mem_append.mp (hperm.mem_iff.mpr hy) with hkept | hself
    · exact hle y hkept
    · rw [List.mem_singleton.mp hself]
      exact (h.totalPreorder .lessThan).refl x
  popMin_none hx := (popMin_of_none comparator hx).2
  popMin _ hx := perm_popMin comparator hx
  popMax_none hx := (popMax_of_none hx).2
  popMax _ hx := perm_popMax hx

theorem keepsGreatest_insertStep (h : TotalPreorderCmp comparator) {k : ℕ} (hk : 2 ≤ k)
    {run : HeapRun α} {values : List α} (hinv : HeapInvariant comparator k run.heap)
    (hkeeps : KeepsGreatest comparator k run values) (value : α) :
    KeepsGreatest comparator k (insertStep comparator run value) (values ++ [value]) := by
  obtain ⟨heap, destroyed⟩ := run
  obtain ⟨hlength, hperm, hgreatest⟩ := hkeeps
  have hcount := hperm.length_eq
  simp only [List.length_append] at hlength hcount
  rcases Nat.lt_or_ge heap.used k with hroom | hfull
  · -- nothing was destroyed before and nothing is now
    obtain ⟨hpush, hnone⟩ := insert_of_room hinv hroom value
    have hadded := perm_push comparator heap value
    rw [used] at hroom
    obtain rfl : destroyed = [] := List.length_eq_zero_iff.mp (by omega)
    simp only [insertStep, hpush, hnone, List.append_nil] at hperm ⊢
    refine ⟨?_, ?_, fun x hx => by cases hx⟩
    · rw [hadded.length_eq, List.length_cons, List.length_append, List.length_singleton]
      omega
    · rw [List.append_nil]
      calc
        List.Perm _ (value :: heap.elements) := hadded
        List.Perm _ (value :: values) := hperm.cons value
        List.Perm _ (values ++ [value]) := (List.perm_append_singleton _ _).symm
  · obtain ⟨x, hx, hmoved, hle, hfrom, -⟩ :=
      insert_of_full h hk hinv (Nat.le_antisymm hinv.size hfull) value
    have hlen := hmoved.length_eq
    simp only [List.length_append, List.length_cons, List.length_nil] at hlen
    rw [used] at hfull
    simp only [insertStep, hx]
    refine ⟨?_, ?_, fun d hd y hy => ?_⟩
    · change (nrMinmaxHeapInsert comparator heap value).elements.length = _
      rw [List.length_append, List.length_singleton]
      omega
    · calc
        List.Perm _ ((nrMinmaxHeapInsert comparator heap value).elements ++ ([x] ++ destroyed)) :=
          List.perm_append_comm.append_left _
        List.Perm _ ((nrMinmaxHeapInsert comparator heap value).elements ++ [x] ++ destroyed) := by
          rw [List.append_assoc]
        List.Perm _ (value :: (heap.elements ++ destroyed)) := hmoved.append_right destroyed
        List.Perm _ (value :: values) := hperm.cons value
        List.Perm _ (values ++ [value]) := (List.perm_append_singleton _ _).symm
    · rcases List.mem_append.mp hd with hold | hnew
      · -- one destroyed before: no greater than what was there then
        rcases hfrom with hin | hsame
        · exact h.trans _ _ _ (hgreatest d hold x hin) (hle y hy)
        · exact hgreatest d hold y (hsame ▸ hy)
      · rw [List.mem_singleton.mp hnew]
        exact hle y hy

theorem keepsGreatest_insertAll (h : TotalPreorderCmp comparator) {k : ℕ} (hk : 2 ≤ k)
    {run : HeapRun α} {values : List α} (hinv : HeapInvariant comparator k run.heap)
    (hkeeps : KeepsGreatest comparator k run values) (more : List α) :
    KeepsGreatest comparator k (more.foldl (insertStep comparator) run) (values ++ more) := by
  induction more generalizing run values with
  | nil => rwa [List.append_nil]
  | cons value more ih =>
      have hstep := ih (heapInvariant_insert h hk hinv value)
        (keepsGreatest_insertStep h hk hinv hkeeps value)
      rwa [List.append_assoc] at hstep

theorem heapInvariant_empty (k : ℕ) :
    HeapInvariant comparator k { bound := k, elements := ([] : List α) } :=
  ⟨rfl, Nat.zero_le _, minmaxOrder_of_small (Nat.zero_le _)⟩

theorem keepsGreatest_of_empty (h : TotalPreorderCmp comparator) {k : ℕ} (hk : 2 ≤ k)
    (values : List α) : KeepsGreatest comparator k
      (insertAll comparator { bound := k, elements := [] } values) values := by
  have hstart : KeepsGreatest comparator k
      { heap := { bound := k, elements := ([] : List α) }, destroyed := [] } [] :=
    ⟨(Nat.zero_min _).symm, List.Perm.refl _, fun x hx => by cases hx⟩
  exact keepsGreatest_insertAll h hk (heapInvariant_empty k) hstart values

/-- In every run of insertions and removals the heap is in order, its ends are
extreme and its contents change by what is inserted and removed; after
insertions only it holds the greatest elements that fit. -/
theorem minmaxHeap_keeps_topK {k : ℤ} (hk : 2 ≤ k) (h : TotalPreorderCmp comparator) :
    ∃ heap0 : NrMinmaxHeap α, nrMinmaxHeapCreate k = some heap0 ∧
      (∀ calls : List (HeapCall α),
        HeapInvariant comparator k.toNat (calls.foldl (heapCall comparator) heap0) ∧
          EndsExtreme comparator (calls.foldl (heapCall comparator) heap0) ∧
          ContentsExact comparator k.toNat (calls.foldl (heapCall comparator) heap0)) ∧
      ∀ values : List α,
        KeepsGreatest comparator k.toNat (insertAll comparator heap0 values) values := by
  have hk' : 2 ≤ k.toNat := by omega
  refine ⟨{ bound := k.toNat, elements := [] }, if_neg (by omega), fun calls => ?_,
    keepsGreatest_of_empty h hk'⟩
  have hinv := heapInvariant_calls h hk' (heapInvariant_empty k.toNat) calls
  exact ⟨hinv, endsExtreme_of_invariant h hinv, contentsExact_of_invariant h hk' hinv⟩

theorem TotalPreorderCmp.of_rank {β : Type*} [LinearOrder β] {rank : α → β}
    (hle : ∀ a b, comparator a b ≤ 0 ↔ rank a ≤ rank b)
    (hlt : ∀ a b, comparator a b < 0 ↔ rank a < rank b) : TotalPreorderCmp comparator where
  swap a b := by rw [← not_le, hle, hlt, not_le]
  trans a b c := by
    simp only [hle]
    exact le_trans

/-- What a heap with a bound keeps, in the order of the ranks. -/
theorem KeepsGreatest.selects {β : Type*} [LinearOrder β] {rank : α → β}
    (hle : ∀ a b, comparator a b ≤ 0 ↔ rank a ≤ rank b) {k : ℕ} {run : HeapRun α}
    {values : List α} (h : KeepsGreatest comparator k run values) :
    Selects rank k values run.heap.elements run.destroyed where
  perm := h.perm
  length := h.length
  greatest x hx y hy := (hle x y).mp (h.greatest x hx y hy)

theorem heap_insertAll (heap : NrMinmaxHeap α) (values : List α) :
    (insertAll comparator heap values).heap =
      values.foldl (nrMinmaxHeapInsert comparator) heap :=
  (List.foldl_hom HeapRun.heap fun _ _ => rfl).symm

theorem totalPreorderCmp_sub : TotalPreorderCmp fun a b : ℤ => a - b :=
  ⟨fun a b => by omega, fun a b c hab hbc => by omega⟩

theorem minmaxHeap_keeps_topK_sub : (2 : ℤ) ≤ 3 ∧ ∃ heap0 : NrMinmaxHeap ℤ,
    nrMinmaxHeapCreate 3 = some heap0 ∧
      (∀ calls : List (HeapCall ℤ),
        HeapInvariant (fun a b => a - b) 3 (calls.foldl (heapCall fun a b => a - b) heap0) ∧
          EndsExtreme (fun a b => a - b) (calls.foldl (heapCall fun a b => a - b) heap0) ∧
          ContentsExact (fun a b => a - b) 3 (calls.foldl (heapCall fun a b => a - b) heap0)) ∧
      ∀ values, KeepsGreatest (fun a b => a - b) 3 (insertAll (fun a b => a - b) heap0 values) values :=
  ⟨by decide, minmaxHeap_keeps_topK (show (2 : ℤ) ≤ 3 by decide) totalPreorderCmp_sub⟩

example : (insertAll (fun a b : ℤ => a - b) { bound := 3, elements := [] } [5, 1, 4, 9, 2]) =
    { heap := { bound := 3, elements := [4, 5, 9] }, destroyed := [1, 2] } := by decide

end

end AxiomDaemon.Util

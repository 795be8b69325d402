import Mathlib.Data.List.Basic
import Mathlib.Data.List.Chain

/-!
Lists in which some elements are kept and every maximal run of others is
replaced by one mark. The relation says what the result is; the function makes
it in one pass, with a flag for the mark that was just put.

What is said to be kept may differ: the results of two such passes are compared
at the end.
-/

namespace AxiomDaemon.Lib

variable {α : Type*}

/-- The kept elements, and nothing for each run of others. -/
inductive Collapsed (keep : α → Prop) : List α → List (Option α) → Prop
  | nil : Collapsed keep [] []
  | kept {s : α} {ss : List α} {ms : List (Option α)} (hs : keep s) (h : Collapsed keep ss ms) :
      Collapsed keep (s :: ss) (some s :: ms)
  | run {run ss : List α} {ms : List (Option α)} (hne : run ≠ []) (hrun : ∀ s ∈ run, ¬ keep s)
      (hend : ∀ s ∈ ss.head?, keep s) (h : Collapsed keep ss ms) :
      Collapsed keep (run ++ ss) (none :: ms)

/-- The pass; the flag says that the element before was not kept. -/
def collapseMarks (keep : α → Bool) : (inRun : Bool) → List α → List (Option α)
  | _, [] => []
  | inRun, s :: ss =>
      if keep s then some s :: collapseMarks keep false ss
      else if inRun then collapseMarks keep true ss
      else none :: collapseMarks keep true ss

section Marks

variable {keep : α → Bool} {s : α}

theorem collapseMarks_kept (hs : keep s = true) (inRun : Bool) (ss : List α) :
    collapseMarks keep inRun (s :: ss) = some s :: collapseMarks keep false ss := by
  simp only [collapseMarks, hs, if_true]

theorem collapseMarks_inRun (hs : keep s = false) (ss : List α) :
    collapseMarks keep true (s :: ss) = collapseMarks keep true ss := by
  simp only [collapseMarks, hs, Bool.false_eq_true, if_false, if_true]

theorem collapseMarks_mark (hs : keep s = false) (ss : List α) :
    collapseMarks keep false (s :: ss) = none :: collapseMarks keep true ss := by
  simp only [collapseMarks, hs, Bool.false_eq_true, if_false]

/-- Before a kept element it makes no difference whether there was a mark. -/
theorem collapseMarks_of_head (inRun : Bool) {ss : List α} (h : ∀ x ∈ ss.head?, keep x = true) :
    collapseMarks keep inRun ss = collapseMarks keep false ss := by
  cases ss with
  | nil => rfl
  | cons x ss => rw [collapseMarks_kept (h x rfl), collapseMarks_kept (h x rfl)]

theorem collapseMarks_run {run : List α} (hrun : ∀ x ∈ run, keep x = false) (ss : List α) :
    collapseMarks keep true (run ++ ss) = collapseMarks keep true ss := by
  induction run with
  | nil => rfl
  | cons x run ih =>
      obtain ⟨hx, hrun⟩ := List.forall_mem_cons.mp hrun
      rw [List.cons_append, collapseMarks_inRun hx, ih hrun]

theorem exists_run (keep : α → Bool) (ss : List α) :
    ∃ run rest, ss = run ++ rest ∧ (∀ x ∈ run, keep x = false) ∧ ∀ x ∈ rest.head?, keep x = true := by
  induction ss with
  | nil => exact ⟨[], [], rfl, List.forall_mem_nil _, nofun⟩
  | cons s ss ih =>
      cases hs : keep s with
      | true =>
          refine ⟨[], s :: ss, rfl, List.forall_mem_nil _, fun x hx => ?_⟩
          obtain rfl : s = x := Option.some.inj hx
          exact hs
      | false =>
          obtain ⟨run, rest, rfl, hrun, hend⟩ := ih
          exact ⟨s :: run, rest, rfl, List.forall_mem_cons.mpr ⟨hs, hrun⟩, hend⟩

theorem collapsed_collapseMarks (keep : α → Bool) (ss : List α) :
    Collapsed (fun s => keep s = true) ss (collapseMarks keep false ss) := by
  induction hlen : ss.length using Nat.strong_induction_on generalizing ss with
  | _ n ih =>
      cases ss with
      | nil => exact .nil
      | cons s ss =>
          have hlt : ss.length < n := hlen ▸ Nat.lt_succ_self _
          cases hs : keep s with
          | true =>
              rw [collapseMarks_kept hs]
              exact .kept hs (ih _ hlt ss rfl)
          | false =>
              obtain ⟨run, rest, rfl, hrun, hend⟩ := exists_run keep ss
              have hrest : rest.length < n := by
                rw [List.length_append] at hlt
                omega
              have hall : ∀ x ∈ s :: run, keep x = false := List.forall_mem_cons.mpr ⟨hs, hrun⟩
              have hrun' : ∀ x ∈ s :: run, ¬ keep x = true := fun x hx =>
                Bool.eq_false_iff.mp (hall x hx)
              rw [collapseMarks_mark hs, collapseMarks_run hrun, collapseMarks_of_head true hend]
              exact .run (List.cons_ne_nil s run) hrun' hend (ih _ hrest rest rfl)

theorem Collapsed.eq_collapseMarks {ss : List α} {ms : List (Option α)}
    (h : Collapsed (fun s => keep s = true) ss ms) : ms = collapseMarks keep false ss := by
  induction h with
  | nil => rfl
  | kept hs _ ih => rw [collapseMarks_kept hs, ih]
  | @run run ss ms hne hrun hend _ ih =>
      obtain ⟨s, run, rfl⟩ := List.exists_cons_of_ne_nil hne
      obtain ⟨hs, hrun⟩ := List.forall_mem_cons.mp fun x hx => Bool.eq_false_iff.mpr (hrun x hx)
      rw [List.cons_append, collapseMarks_mark hs, collapseMarks_run hrun,
        collapseMarks_of_head true hend, ih]

/-- What is kept is what is said to be kept, and it was there before. -/
theorem mem_collapseMarks {inRun : Bool} {ss : List α} (h : some s ∈ collapseMarks keep inRun ss) :
    s ∈ ss ∧ keep s = true := by
  induction ss generalizing inRun with
  | nil => cases h
  | cons x ss ih =>
      have htail : ∀ {inRun : Bool}, some s ∈ collapseMarks keep inRun ss →
          s ∈ x :: ss ∧ keep s = true := fun hmem =>
        ⟨List.mem_cons_of_mem x (ih hmem).1, (ih hmem).2⟩
      cases hx : keep x with
      | true =>
          rw [collapseMarks_kept hx] at h
          rcases List.mem_cons.mp h with heq | hmem
          · obtain rfl := Option.some.inj heq
            exact ⟨List.mem_cons_self, hx⟩
          · exact htail hmem
      | false =>
          cases inRun with
          | true =>
              rw [collapseMarks_inRun hx] at h
              exact htail h
          | false =>
              rw [collapseMarks_mark hx] at h
              exact htail ((List.mem_cons.mp h).resolve_left nofun)

theorem mem_collapseMarks_of_keep {ss : List α} (hmem : s ∈ ss) (hs : keep s = true)
    (inRun : Bool) : some s ∈ collapseMarks keep inRun ss := by
  induction ss generalizing inRun with
  | nil => cases hmem
  | cons x ss ih =>
      rcases List.mem_cons.mp hmem with rfl | hmem
      · rw [collapseMarks_kept hs]
        exact List.mem_cons_self
      · rw [collapseMarks]
        split_ifs
        · exact List.mem_cons_of_mem _ (ih hmem false)
        · exact ih hmem true
        · exact List.mem_cons_of_mem _ (ih hmem true)

theorem head?_collapseMarks_true (ss : List α) : (collapseMarks keep true ss).head? ≠ some none := by
  induction ss with
  | nil => exact nofun
  | cons s ss ih =>
      cases hs : keep s with
      | true =>
          rw [collapseMarks_kept hs]
          exact nofun
      | false =>
          rw [collapseMarks_inRun hs]
          exact ih

theorem isChain_collapseMarks (keep : α → Bool) (inRun : Bool) (ss : List α) :
    (collapseMarks keep inRun ss).IsChain fun m m' => ¬(m = none ∧ m' = none) := by
  induction ss generalizing inRun with
  | nil => exact List.IsChain.nil
  | cons s ss ih =>
      cases hs : keep s with
      | true =>
          rw [collapseMarks_kept hs]
          exact List.isChain_cons.mpr ⟨fun m _ hx => Option.some_ne_none s hx.1, ih false⟩
      | false =>
          cases inRun with
          | true =>
              rw [collapseMarks_inRun hs]
              exact ih true
          | false =>
              rw [collapseMarks_mark hs]
              refine List.isChain_cons.mpr ⟨fun m hm hx => ?_, ih true⟩
              exact head?_collapseMarks_true ss ((Option.mem_def.mp hm).trans (congrArg some hx.2))

theorem collapseMarks_ne_nil {ss : List α} (hne : ss ≠ []) : collapseMarks keep false ss ≠ [] := by
  obtain ⟨s, ss, rfl⟩ := List.exists_cons_of_ne_nil hne
  cases hs : keep s with
  | true =>
      rw [collapseMarks_kept hs]
      exact List.cons_ne_nil _ _
  | false =>
      rw [collapseMarks_mark hs]
      exact List.cons_ne_nil _ _

end Marks

/-! ### With the mark in place -/

def collapse (keep : α → Bool) (mark : α) (inRun : Bool) (ss : List α) : List α :=
  (collapseMarks keep inRun ss).map (·.getD mark)

section

variable {keep : α → Bool} {s : α}

theorem collapse_kept (hs : keep s = true) (mark : α) (inRun : Bool) (ss : List α) :
    collapse keep mark inRun (s :: ss) = s :: collapse keep mark false ss := by
  rw [collapse, collapseMarks_kept hs]
  rfl

theorem collapse_inRun (hs : keep s = false) (mark : α) (ss : List α) :
    collapse keep mark true (s :: ss) = collapse keep mark true ss := by
  rw [collapse, collapseMarks_inRun hs]
  rfl

theorem collapse_mark (hs : keep s = false) (mark : α) (ss : List α) :
    collapse keep mark false (s :: ss) = mark :: collapse keep mark true ss := by
  rw [collapse, collapseMarks_mark hs]
  rfl

end

/-- Kept elements and marks that are not side by side are passed on as they are. The mark may
be among what is kept. -/
theorem collapse_marks {keep : α → Bool} {mark : α} {ms : List (Option α)}
    (hkeep : ∀ s, some s ∈ ms → keep s = true)
    (hchain : ms.IsChain fun m m' => ¬(m = none ∧ m' = none)) {inRun : Bool}
    (hhead : inRun = true → ms.head? ≠ some none) :
    collapse keep mark inRun (ms.map (·.getD mark)) = ms.map (·.getD mark) := by
  induction ms generalizing inRun with
  | nil => rfl
  | cons m ms ih =>
      have hkeep' : ∀ s, some s ∈ ms → keep s = true := fun s hs =>
        hkeep s (List.mem_cons_of_mem m hs)
      obtain ⟨hnext, htail⟩ := List.isChain_cons.mp hchain
      have hkept : ∀ s, m.getD mark = s → keep s = true →
          collapse keep mark inRun ((m :: ms).map (·.getD mark)) = (m :: ms).map (·.getD mark) := by
        intro s hs hkeeps
        have hrec : collapse keep mark false _ = _ := ih hkeep' htail nofun
        rw [List.map_cons, hs, collapse_kept hkeeps, hrec]
      cases m with
      | some s => exact hkept s rfl (hkeep s List.mem_cons_self)
      | none =>
          cases hmark : keep mark with
          | true => exact hkept mark rfl hmark
          | false =>
              cases inRun with
              | true => exact absurd rfl (hhead rfl)
              | false =>
                  have hrec : collapse keep mark true _ = _ := ih hkeep' htail fun _ hnone =>
                    hnext none (Option.mem_def.mpr hnone) ⟨rfl, rfl⟩
                  rw [List.map_cons, Option.getD_none, collapse_mark hmark, hrec]

theorem collapse_collapse (keep : α → Bool) (mark : α) (ss : List α) :
    collapse keep mark false (collapse keep mark false ss) = collapse keep mark false ss :=
  collapse_marks (fun _ hs => (mem_collapseMarks hs).2) (isChain_collapseMarks keep false ss) nofun

/-! ### Two passes that keep different elements -/

section Compare

variable {d e : α → Bool} {mark : α}

/-- What is kept by `d` and not by `e` is a lone mark, with nothing beside it that `e` does not
keep. -/
def Lone (d e : α → Bool) (mark : α) : (inRun : Bool) → List α → Prop
  | _, [] => True
  | inRun, s :: ss =>
      if e s then Lone d e mark false ss
      else (d s = true → s = mark ∧ inRun = false ∧ ∀ x ∈ ss.head?, e x = true) ∧
        Lone d e mark true ss

theorem length_collapseMarks_le {ss : List α} (hle : ∀ s ∈ ss, e s = true → d s = true) {i j : Bool}
    (hij : i = true → j = true) :
    (collapseMarks e j ss).length ≤ (collapseMarks d i ss).length := by
  induction ss generalizing i j with
  | nil => exact Nat.le_refl _
  | cons s ss ih =>
      obtain ⟨hs, hle⟩ := List.forall_mem_cons.mp hle
      cases he : e s with
      | true =>
          rw [collapseMarks_kept he, collapseMarks_kept (hs he)]
          exact Nat.succ_le_succ (ih hle nofun)
      | false =>
          have hskip : ∀ {i : Bool}, (collapseMarks e true ss).length ≤ (collapseMarks d i ss).length :=
            ih hle fun _ => rfl
          cases hd : d s with
          | true =>
              rw [collapseMarks_kept hd]
              cases j with
              | true =>
                  rw [collapseMarks_inRun he]
                  exact Nat.le_succ_of_le hskip
              | false =>
                  rw [collapseMarks_mark he]
                  exact Nat.succ_le_succ hskip
          | false =>
              cases i with
              | true =>
                  rw [hij rfl, collapseMarks_inRun he, collapseMarks_inRun hd]
                  exact hskip
              | false =>
                  rw [collapseMarks_mark hd]
                  cases j with
                  | true =>
                      rw [collapseMarks_inRun he]
                      exact Nat.le_succ_of_le hskip
                  | false =>
                      rw [collapseMarks_mark he]
                      exact Nat.succ_le_succ hskip

theorem collapse_of_head {keep : α → Bool} (inRun : Bool) {ss : List α}
    (h : ∀ x ∈ ss.head?, keep x = true) :
    collapse keep mark inRun ss = collapse keep mark false ss :=
  congrArg _ (collapseMarks_of_head inRun h)

theorem collapse_ne_of_length {i j : Bool} {ss ss' : List α}
    (h : (collapseMarks e j ss').length < (collapseMarks d i ss).length) :
    collapse d mark i ss ≠ collapse e mark j ss' := by
  intro heq
  have hlen := congrArg List.length heq
  rw [collapse, collapse, List.length_map, List.length_map] at hlen
  omega

/-- Behind an element that only `d` keeps: the run of `e` has to be over. -/
theorem collapse_behind_kept {ss : List α} (hle : ∀ s ∈ ss, e s = true → d s = true) :
    collapse d mark false ss = collapse e mark true ss ↔
      (∀ x ∈ ss.head?, e x = true) ∧ collapse d mark true ss = collapse e mark true ss := by
  by_cases hhead : ∀ x ∈ ss.head?, e x = true
  · have hd : ∀ x ∈ ss.head?, d x = true := fun x hx => hle x (List.mem_of_mem_head? hx) (hhead x hx)
    rw [collapse_of_head true hd, and_iff_right hhead]
  · refine iff_of_false ?_ fun h => hhead h.1
    cases ss with
    | nil => exact absurd nofun hhead
    | cons x ss =>
        have he : e x = false := by
          refine Bool.eq_false_iff.mpr fun hx => hhead fun y hy => ?_
          obtain rfl : x = y := Option.some.inj hy
          exact hx
        have hle' := (List.forall_mem_cons.mp hle).2
        refine collapse_ne_of_length ?_
        rw [collapseMarks_inRun he]
        cases hd : d x with
        | true =>
            rw [collapseMarks_kept hd]
            exact Nat.lt_succ_of_le (length_collapseMarks_le hle' nofun)
        | false =>
            rw [collapseMarks_mark hd]
            exact Nat.lt_succ_of_le (length_collapseMarks_le hle' fun _ => rfl)

/-- When `d` keeps what `e` keeps, the two make the same of a list if and only if what `d` keeps
besides are lone marks. -/
theorem collapse_eq_iff {ss : List α} (hle : ∀ s ∈ ss, e s = true → d s = true) (inRun : Bool) :
    collapse d mark inRun ss = collapse e mark inRun ss ↔ Lone d e mark inRun ss := by
  induction ss generalizing inRun with
  | nil => exact iff_of_true rfl trivial
  | cons s ss ih =>
      obtain ⟨hs, hle'⟩ := List.forall_mem_cons.mp hle
      rw [Lone]
      cases he : e s with
      | true =>
          rw [if_pos rfl, ← ih hle' false, collapse_kept he, collapse_kept (hs he), List.cons_inj_right]
      | false =>
          rw [if_neg Bool.false_ne_true, ← ih hle' true]
          cases hd : d s with
          | false =>
              rw [and_iff_right nofun]
              cases inRun with
              | true =>
                  rw [collapse_inRun he, collapse_inRun hd]
              | false =>
                  rw [collapse_mark he, collapse_mark hd, List.cons_inj_right]
          | true =>
              cases inRun with
              | true =>
                  refine iff_of_false (collapse_ne_of_length ?_) fun h => nomatch (h.1 rfl).2.1
                  rw [collapseMarks_kept hd, collapseMarks_inRun he]
                  exact Nat.lt_succ_of_le (length_collapseMarks_le hle' nofun)
              | false =>
                  rw [collapse_kept hd, collapse_mark he, List.cons_eq_cons]
                  simp only [true_and, forall_true_left, and_assoc]
                  exact and_congr_right fun _ => collapse_behind_kept hle'

end Compare

end AxiomDaemon.Lib

import Mathlib.Data.List.Induction
import Mathlib.Order.Lattice
import Mathlib.Order.Nat

/-!
Voices that override one another.

A list holds voices, each of a rank, and each of them may say yes, say no or be
silent. Among the voices that are not silent those of the highest rank count, and one
of them that is against is enough for a no. This file relates that verdict to the way
programs compute it: the voices are kept in a sorted list, in which voices with equal
keys are merged, and are then applied one after the other, each overriding the result
so far.
-/

namespace AxiomDaemon.Lib

variable {α κ : Type*}

/-! ### The verdict -/

section Verdict

variable (rank : α → ℕ) (vote : α → Option Bool)

/-- What the voices of the highest rank say. -/
def verdict (voices : List α) : Option Bool :=
  match ((voices.filter fun voice => (vote voice).isSome).map rank).max? with
  | none => none
  | some top => some !(voices.any fun voice => rank voice = top ∧ vote voice = some false)

/-- A voice of the rank `n` is not silent. -/
def HeardAt (voices : List α) (n : ℕ) : Prop :=
  ∃ voice ∈ voices, rank voice = n ∧ vote voice ≠ none

/-- A voice of the rank `n` is against. -/
def VetoedAt (voices : List α) (n : ℕ) : Prop :=
  ∃ voice ∈ voices, rank voice = n ∧ vote voice = some false

variable {rank vote} {voices voices' : List α}

theorem mem_heard_ranks {n : ℕ} :
    n ∈ (voices.filter fun voice => (vote voice).isSome).map rank ↔
      HeardAt rank vote voices n := by
  simp only [List.mem_map, List.mem_filter, Option.isSome_iff_ne_none, HeardAt]
  constructor
  · rintro ⟨voice, ⟨hmem, hvote⟩, hrank⟩
    exact ⟨voice, hmem, hrank, hvote⟩
  · rintro ⟨voice, hmem, hrank, hvote⟩
    exact ⟨voice, ⟨hmem, hvote⟩, hrank⟩

theorem any_veto_iff {n : ℕ} :
    (voices.any fun voice => rank voice = n ∧ vote voice = some false) = true ↔
      VetoedAt rank vote voices n := by
  simp only [List.any_eq_true, decide_eq_true_eq, VetoedAt]

theorem verdict_eq_none (h : ∀ n, ¬ HeardAt rank vote voices n) :
    verdict rank vote voices = none := by
  have hnil : (voices.filter fun voice => (vote voice).isSome).map rank = [] :=
    List.eq_nil_iff_forall_not_mem.mpr fun n hn => h n (mem_heard_ranks.mp hn)
  simp only [verdict, hnil, List.max?_nil]

/-- The rank `top` is the highest at which somebody is heard. -/
theorem verdict_eq_some {top : ℕ} (htop : HeardAt rank vote voices top)
    (hle : ∀ n, HeardAt rank vote voices n → n ≤ top) (veto : Bool)
    (hveto : veto = true ↔ VetoedAt rank vote voices top) :
    verdict rank vote voices = some !veto := by
  have hmax : ((voices.filter fun voice => (vote voice).isSome).map rank).max? = some top :=
    List.max?_eq_some_iff.mpr ⟨mem_heard_ranks.mpr htop, fun n hn => hle n (mem_heard_ranks.mp hn)⟩
  have hany : (voices.any fun voice => rank voice = top ∧ vote voice = some false) = veto :=
    Bool.eq_iff_iff.mpr (any_veto_iff.trans hveto.symm)
  simp only [verdict, hmax, hany]

/-- There is no voice, or one rank is the highest at which somebody is heard. -/
theorem heard_cases (rank : α → ℕ) (vote : α → Option Bool) (voices : List α) :
    (∀ n, ¬ HeardAt rank vote voices n) ∨
      ∃ top, HeardAt rank vote voices top ∧ ∀ n, HeardAt rank vote voices n → n ≤ top := by
  cases hmax : ((voices.filter fun voice => (vote voice).isSome).map rank).max? with
  | none =>
      left
      intro n hn
      have hmem := mem_heard_ranks.mpr hn
      rw [List.max?_eq_none_iff.mp hmax] at hmem
      exact List.not_mem_nil hmem
  | some top =>
      right
      obtain ⟨hmem, hle⟩ := List.max?_eq_some_iff.mp hmax
      exact ⟨top, mem_heard_ranks.mp hmem, fun n hn => hle n (mem_heard_ranks.mpr hn)⟩

/-- The verdict depends only on who is heard and who is against at each of the ranks. The
voices on the two sides may be of different types. -/
theorem verdict_congr {β : Type*} {rank' : β → ℕ} {vote' : β → Option Bool} {others : List β}
    (hheard : ∀ n, HeardAt rank vote voices n ↔ HeardAt rank' vote' others n)
    (hveto : ∀ n, VetoedAt rank vote voices n ↔ VetoedAt rank' vote' others n) :
    verdict rank vote voices = verdict rank' vote' others := by
  rcases heard_cases rank vote voices with hnone | ⟨top, htop, hle⟩
  · rw [verdict_eq_none hnone, verdict_eq_none fun n hn => hnone n ((hheard n).mpr hn)]
  · rw [verdict_eq_some htop hle _ any_veto_iff]
    exact (verdict_eq_some ((hheard top).mp htop) (fun n hn => hle n ((hheard n).mpr hn)) _
      (any_veto_iff.trans (hveto top))).symm

theorem verdict_perm (h : voices.Perm voices') :
    verdict rank vote voices = verdict rank vote voices' :=
  verdict_congr (fun _ => exists_congr fun _ => and_congr_left' h.mem_iff)
    (fun _ => exists_congr fun _ => and_congr_left' h.mem_iff)

/-! ### Overriding -/

/-- Every voice that is not silent ranks above those before it. -/
def RankedUp (rank : α → ℕ) (vote : α → Option Bool) (voices : List α) : Prop :=
  voices.Pairwise fun voice later =>
    vote voice ≠ none → vote later ≠ none → rank voice < rank later

theorem verdict_append_silent {voice : α} (h : vote voice = none) :
    verdict rank vote (voices ++ [voice]) = verdict rank vote voices := by
  apply verdict_congr
  · intro n
    simp [HeardAt, or_and_right, exists_or, h]
  · intro n
    simp [VetoedAt, or_and_right, exists_or, h]

/-- A voice at the end that ranks above all others decides alone. -/
theorem verdict_append_heard {voice : α} {answer : Bool}
    (hranked : RankedUp rank vote (voices ++ [voice])) (h : vote voice = some answer) :
    verdict rank vote (voices ++ [voice]) = some answer := by
  have hheard : vote voice ≠ none := by rw [h]; exact Option.some_ne_none answer
  have hbelow : ∀ other ∈ voices, vote other ≠ none → rank other < rank voice := by
    intro other hmem hother
    exact (List.pairwise_append.mp hranked).2.2 other hmem voice (List.mem_singleton_self voice)
      hother hheard
  have hle : ∀ n, HeardAt rank vote (voices ++ [voice]) n → n ≤ rank voice := by
    rintro n ⟨other, hmem, rfl, hother⟩
    rcases List.mem_append.mp hmem with hmem | hmem
    · exact (hbelow other hmem hother).le
    · rw [List.mem_singleton.mp hmem]
  have hveto : (!answer) = true ↔ VetoedAt rank vote (voices ++ [voice]) (rank voice) := by
    constructor
    · intro hno
      refine ⟨voice, List.mem_append_right voices (List.mem_singleton_self voice), rfl, ?_⟩
      rw [h, Bool.not_eq_true' answer |>.mp hno]
    · rintro ⟨other, hmem, hrank, hother⟩
      rcases List.mem_append.mp hmem with hmem | hmem
      · have hlt := hbelow other hmem (by rw [hother]; exact Option.some_ne_none false)
        omega
      · rw [List.mem_singleton.mp hmem, h] at hother
        rw [Option.some.inj hother, Bool.not_false]
  have hself : HeardAt rank vote (voices ++ [voice]) (rank voice) :=
    ⟨voice, List.mem_append_right voices (List.mem_singleton_self voice), rfl, hheard⟩
  rw [verdict_eq_some hself hle _ hveto, Bool.not_not]

/-- Applying the voices one after the other comes to their verdict. -/
theorem foldl_override (hranked : RankedUp rank vote voices) (default : Bool) :
    voices.foldl (fun answer voice => (vote voice).getD answer) default =
      (verdict rank vote voices).getD default := by
  induction voices using List.reverseRecOn with
  | nil => rfl
  | append_singleton voices voice ih =>
      rw [List.foldl_append, List.foldl_cons, List.foldl_nil]
      cases h : vote voice with
      | none =>
          rw [verdict_append_silent h, Option.getD_none]
          exact ih (List.pairwise_append.mp hranked).1
      | some answer => rw [verdict_append_heard hranked h, Option.getD_some, Option.getD_some]

end Verdict

/-! ### Merging -/

section Merging

variable (cmp : κ → κ → Ordering) (key : α → κ) (merge : α → α → α)

/-- Insertion into a sorted list; an element with the same key takes the new one in. -/
def insertMerging (entry : α) : List α → List α
  | [] => [entry]
  | other :: rest =>
      match cmp (key entry) (key other) with
      | .lt => entry :: other :: rest
      | .eq => merge other entry :: rest
      | .gt => other :: insertMerging entry rest

/-- Keys become greater along the list. -/
def SortedBy (entries : List α) : Prop :=
  entries.Pairwise fun entry later => cmp (key entry) (key later) = .lt

variable {cmp key merge} {entries : List α}

theorem key_mem_insertMerging (hkey : ∀ entry other, key (merge entry other) = key entry)
    {entry other : α} (h : other ∈ insertMerging cmp key merge entry entries) :
    key other = key entry ∨ ∃ old ∈ entries, key other = key old := by
  induction entries with
  | nil => exact .inl (congrArg key (List.mem_singleton.mp h))
  | cons first rest ih =>
      rw [insertMerging] at h
      cases hcmp : cmp (key entry) (key first) with
      | lt =>
          simp only [hcmp] at h
          rcases List.mem_cons.mp h with rfl | h
          · exact .inl rfl
          · exact .inr ⟨other, h, rfl⟩
      | eq =>
          simp only [hcmp] at h
          rcases List.mem_cons.mp h with rfl | h
          · exact .inr ⟨first, List.mem_cons_self, hkey first entry⟩
          · exact .inr ⟨other, List.mem_cons_of_mem first h, rfl⟩
      | gt =>
          simp only [hcmp] at h
          rcases List.mem_cons.mp h with rfl | h
          · exact .inr ⟨other, List.mem_cons_self, rfl⟩
          · rcases ih h with hnew | ⟨old, hold, hother⟩
            · exact .inl hnew
            · exact .inr ⟨old, List.mem_cons_of_mem first hold, hother⟩

theorem insertMerging_sorted [Std.TransCmp cmp]
    (hkey : ∀ entry other, key (merge entry other) = key entry)
    (h : SortedBy cmp key entries) (entry : α) :
    SortedBy cmp key (insertMerging cmp key merge entry entries) := by
  induction entries with
  | nil => exact List.pairwise_singleton _ entry
  | cons first rest ih =>
      obtain ⟨hfirst, hrest⟩ := List.pairwise_cons.mp h
      rw [insertMerging]
      cases hcmp : cmp (key entry) (key first) with
      | lt =>
          refine List.pairwise_cons.mpr ⟨fun other hother => ?_, h⟩
          rcases List.mem_cons.mp hother with rfl | hother
          · exact hcmp
          · exact Std.TransCmp.lt_trans hcmp (hfirst other hother)
      | eq =>
          refine List.pairwise_cons.mpr ⟨fun other hother => ?_, hrest⟩
          rw [hkey]
          exact hfirst other hother
      | gt =>
          refine List.pairwise_cons.mpr ⟨fun other hother => ?_, ih hrest⟩
          rcases key_mem_insertMerging hkey hother with hnew | ⟨old, hold, hother⟩
          · rw [hnew]
            exact Std.OrientedCmp.lt_of_gt hcmp
          · rw [hother]
            exact hfirst old hold

/-- A property that merging adds up holds of an element of the list afterwards if it
held of one of its elements, or of the new one. -/
theorem exists_mem_insertMerging {p : α → Prop} {entry : α}
    (hmerge : ∀ other, cmp (key entry) (key other) = .eq →
      (p (merge other entry) ↔ p entry ∨ p other)) :
    (∃ other ∈ insertMerging cmp key merge entry entries, p other) ↔
      p entry ∨ ∃ other ∈ entries, p other := by
  induction entries with
  | nil => simp [insertMerging]
  | cons first rest ih =>
      rw [insertMerging]
      cases hcmp : cmp (key entry) (key first) with
      | lt => simp only [List.mem_cons, or_and_right, exists_or, exists_eq_left]
      | eq =>
          simp only [List.mem_cons, or_and_right, exists_or, exists_eq_left]
          rw [hmerge first hcmp, or_assoc]
      | gt =>
          simp only [List.mem_cons, or_and_right, exists_or, exists_eq_left]
          rw [ih, or_left_comm]

end Merging

end AxiomDaemon.Lib

import Mathlib.Data.List.Basic
import Mathlib.Logic.Basic

/-!
Runs of a labelled transition function, and the two rules every safety proof
of this development goes through.

A system is a function `exec : σ → ι → σ`: nondeterminism, scheduling and the
answers of the environment are all part of the label. A *guard* is a
condition on the state before a step and on the label. The rules relate a
property of every state reached by a run to a guard met by every step of it.
-/

namespace AxiomDaemon.Lib

variable {σ ι : Type*}

/-- The state reached by a list of labels. -/
def runFrom (exec : σ → ι → σ) : σ → List ι → σ
  | s, [] => s
  | s, i :: is => runFrom exec (exec s i) is

/-- Every step of the run meets `guard` in the state it is taken from. -/
def Along (exec : σ → ι → σ) (guard : σ → ι → Prop) : σ → List ι → Prop
  | _, [] => True
  | s, i :: is => guard s i ∧ Along exec guard (exec s i) is

/-- Every state of the run, the first and the last included, satisfies
`inv`. -/
def Throughout (exec : σ → ι → σ) (inv : σ → Prop) : σ → List ι → Prop
  | s, [] => inv s
  | s, i :: is => inv s ∧ Throughout exec inv (exec s i) is

section Runs

variable {exec : σ → ι → σ} {guard : σ → ι → Prop} {inv : σ → Prop}

@[simp] theorem runFrom_nil (s : σ) : runFrom exec s [] = s := rfl

@[simp] theorem runFrom_cons (s : σ) (i : ι) (is : List ι) :
    runFrom exec s (i :: is) = runFrom exec (exec s i) is := rfl

theorem runFrom_append (s : σ) (is js : List ι) :
    runFrom exec s (is ++ js) = runFrom exec (runFrom exec s is) js := by
  induction is generalizing s with
  | nil => rfl
  | cons i is ih => exact ih (exec s i)

theorem Throughout.head {s : σ} {is : List ι} (h : Throughout exec inv s is) : inv s := by
  cases is with
  | nil => exact h
  | cons i is => exact h.1

theorem Throughout.last {s : σ} {is : List ι} (h : Throughout exec inv s is) :
    inv (runFrom exec s is) := by
  induction is generalizing s with
  | nil => exact h
  | cons i is ih => exact ih h.2

theorem Throughout.imp {inv' : σ → Prop} (himp : ∀ s, inv s → inv' s) {s : σ} {is : List ι}
    (h : Throughout exec inv s is) : Throughout exec inv' s is := by
  induction is generalizing s with
  | nil => exact himp s h
  | cons i is ih => exact ⟨himp s h.1, ih h.2⟩

theorem throughout_and_iff {inv' : σ → Prop} {s : σ} {is : List ι} :
    Throughout exec (fun s => inv s ∧ inv' s) s is ↔
      Throughout exec inv s is ∧ Throughout exec inv' s is := by
  induction is generalizing s with
  | nil => exact Iff.rfl
  | cons i is ih =>
      simp only [Throughout, ih]
      exact and_and_and_comm

instance instDecidableAlong [∀ s i, Decidable (guard s i)] : ∀ s is, Decidable (Along exec guard s is)
  | _, [] => inferInstanceAs (Decidable True)
  | s, i :: is =>
      letI := instDecidableAlong (exec s i) is
      inferInstanceAs (Decidable (guard s i ∧ Along exec guard (exec s i) is))

/-- The invariant rule: what one guarded step preserves, a guarded run
preserves. -/
theorem throughout_of_along (hstep : ∀ s i, inv s → guard s i → inv (exec s i))
    {s : σ} {is : List ι} (hs : inv s) (hg : Along exec guard s is) :
    Throughout exec inv s is := by
  induction is generalizing s with
  | nil => exact hs
  | cons i is ih => exact ⟨hs, ih (hstep s i hs hg.1) hg.2⟩

theorem along_and {guard' : σ → ι → Prop} {s : σ} {is : List ι} :
    Along exec (fun s i => guard s i ∧ guard' s i) s is ↔
      Along exec guard s is ∧ Along exec guard' s is := by
  induction is generalizing s with
  | nil => exact ⟨fun _ => ⟨trivial, trivial⟩, fun _ => trivial⟩
  | cons i is ih =>
      simp only [Along, ih]
      exact and_and_and_comm

theorem along_true (s : σ) (is : List ι) : Along exec (fun _ _ => True) s is := by
  induction is generalizing s with
  | nil => trivial
  | cons i is ih => exact ⟨trivial, ih (exec s i)⟩

theorem along_of_forall {fits : ι → Prop} {is : List ι} (h : ∀ i ∈ is, fits i) (s : σ) :
    Along exec (fun _ i => fits i) s is := by
  induction is generalizing s with
  | nil => trivial
  | cons i is ih =>
      obtain ⟨hi, his⟩ := List.forall_mem_cons.mp h
      exact ⟨hi, ih his (exec s i)⟩

/-- A guard that is met wherever another one is, in the states of a run, is met along it. -/
theorem Along.imp_of_throughout {guard' : σ → ι → Prop}
    (himp : ∀ s i, inv s → guard s i → guard' s i) {s : σ} {is : List ι}
    (hg : Along exec guard s is) (hinv : Throughout exec inv s is) : Along exec guard' s is := by
  induction is generalizing s with
  | nil => trivial
  | cons i is ih => exact ⟨himp s i hinv.1 hg.1, ih hg.2 hinv.2⟩

/-- Two guards that agree in the states of a run agree along it. -/
theorem along_iff_along {guard' : σ → ι → Prop} {s : σ} {is : List ι}
    (hinv : Throughout exec inv s is) (hiff : ∀ s i, inv s → (guard s i ↔ guard' s i)) :
    Along exec guard s is ↔ Along exec guard' s is :=
  ⟨fun h => h.imp_of_throughout (fun s i hs => (hiff s i hs).mp) hinv,
    fun h => h.imp_of_throughout (fun s i hs => (hiff s i hs).mpr) hinv⟩

/-- The exact form of the invariant rule, in a run that is known to meet
another guard. -/
theorem throughout_iff_along_of_along {guard' : σ → ι → Prop}
    (hstep : ∀ s i, inv s → guard' s i → (inv (exec s i) ↔ guard s i))
    {s : σ} {is : List ι} (hs : inv s) (hg' : Along exec guard' s is) :
    Throughout exec inv s is ↔ Along exec guard s is := by
  induction is generalizing s with
  | nil => exact ⟨fun _ => trivial, fun _ => hs⟩
  | cons i is ih =>
      have hiff := hstep s i hs hg'.1
      constructor
      · rintro ⟨_, hrest⟩
        have hg : guard s i := hiff.mp hrest.head
        exact ⟨hg, (ih (hiff.mpr hg) hg'.2).mp hrest⟩
      · rintro ⟨hg, hrest⟩
        exact ⟨hs, (ih (hiff.mpr hg) hg'.2).mpr hrest⟩

/-- The exact form of the invariant rule: when a step from a good state
leads to a good state exactly if it meets the guard, a run stays good
exactly if all its steps meet the guard. -/
theorem throughout_iff_along (hstep : ∀ s i, inv s → (inv (exec s i) ↔ guard s i))
    {s : σ} {is : List ι} (hs : inv s) :
    Throughout exec inv s is ↔ Along exec guard s is :=
  throughout_iff_along_of_along (fun s i h _ => hstep s i h) hs (along_true s is)

/-- A map between states that commutes with the steps from sound states carries runs over. -/
theorem throughout_map {τ : Type*} {exec' : τ → ι → τ} {f : σ → τ} {sound : σ → Prop}
    {inv' : τ → Prop} (hf : ∀ s i, sound s → f (exec s i) = exec' (f s) i) {s : σ} {is : List ι}
    (h : Throughout exec sound s is) :
    Throughout exec (fun s => inv' (f s)) s is ↔ Throughout exec' inv' (f s) is := by
  induction is generalizing s with
  | nil => exact Iff.rfl
  | cons i is ih =>
      simp only [Throughout]
      rw [ih h.2, hf s i h.1]

theorem along_map {τ : Type*} {exec' : τ → ι → τ} {f : σ → τ} {sound : σ → Prop}
    {guard' : τ → ι → Prop} (hf : ∀ s i, sound s → f (exec s i) = exec' (f s) i) {s : σ}
    {is : List ι} (h : Throughout exec sound s is) :
    Along exec (fun s => guard' (f s)) s is ↔ Along exec' guard' (f s) is := by
  induction is generalizing s with
  | nil => exact Iff.rfl
  | cons i is ih =>
      simp only [Along]
      rw [ih h.2, hf s i h.1]

end Runs

/-! ### Simulation of an abstract machine

The abstract machine is a relation, because an implementation may be free to
choose among several abstract results. `Refines` says that a concrete run
and the answers it gives are those of some abstract run, the two being
related by `sim` in every state. -/

variable {α ρ : Type*}

inductive Refines (exec : σ → ι → σ) (reply : σ → ι → ρ) (absStep : α → ι → ρ → α → Prop)
    (sim : σ → α → Prop) : σ → α → List ι → Prop
  | nil {s : σ} {a : α} (h : sim s a) : Refines exec reply absStep sim s a []
  | cons {s : σ} {a a' : α} {i : ι} {is : List ι} (h : sim s a)
      (hstep : absStep a i (reply s i) a')
      (hrest : Refines exec reply absStep sim (exec s i) a' is) :
      Refines exec reply absStep sim s a (i :: is)

section Simulation

variable {exec : σ → ι → σ} {reply : σ → ι → ρ} {absStep : α → ι → ρ → α → Prop}
  {sim : σ → α → Prop} {guard : σ → ι → Prop}

theorem Refines.sim_head {s : σ} {a : α} {is : List ι}
    (h : Refines exec reply absStep sim s a is) : sim s a := by
  cases h with
  | nil h => exact h
  | cons h _ _ => exact h

/-- If every guarded step has an abstract counterpart, every guarded run is simulated. -/
theorem refines_of_along
    (hstep : ∀ s a i, sim s a → guard s i → ∃ a', absStep a i (reply s i) a' ∧ sim (exec s i) a')
    {s : σ} {a : α} {is : List ι} (hs : sim s a) (hg : Along exec guard s is) :
    Refines exec reply absStep sim s a is := by
  induction is generalizing s a with
  | nil => exact .nil hs
  | cons i is ih =>
      obtain ⟨a', hrel, hsim⟩ := hstep s a i hs hg.1
      exact .cons hs hrel (ih hsim hg.2)

/-- A run is simulated exactly when all its steps meet the guard, provided a
guarded step has an abstract counterpart and an unguarded one reaches a state
that is related to no abstract state. -/
theorem refines_iff_along
    (hgood : ∀ s a i, sim s a → guard s i → ∃ a', absStep a i (reply s i) a' ∧ sim (exec s i) a')
    (hbad : ∀ s a i, sim s a → ¬ guard s i → ∀ a', ¬ sim (exec s i) a')
    {s : σ} {a : α} {is : List ι} (hs : sim s a) :
    Refines exec reply absStep sim s a is ↔ Along exec guard s is := by
  induction is generalizing s a with
  | nil => exact ⟨fun _ => trivial, fun _ => .nil hs⟩
  | cons i is ih =>
      constructor
      · intro h
        cases h with
        | cons _ _ hrest =>
            have hg : guard s i := by
              by_contra hng
              exact hbad s a i hs hng _ hrest.sim_head
            exact ⟨hg, (ih hrest.sim_head).mp hrest⟩
      · rintro ⟨hg, hrest⟩
        obtain ⟨a', hstep, hsim⟩ := hgood s a i hs hg
        exact .cons hs hstep ((ih hsim).mpr hrest)

end Simulation

end AxiomDaemon.Lib

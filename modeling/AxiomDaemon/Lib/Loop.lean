import Mathlib.Computability.StateTransition

/-!
Loops as transition functions. A loop that is given a number of rounds returns
the state it stops in; whether there are enough of them is whether the
transition function evaluates. Where a measure goes down in every round that
changes the state, a loop can only fail to end by standing still.
-/

namespace AxiomDaemon.Lib

open StateTransition

variable {σ : Type*}

/-- The state a loop stops in, if it does within so many rounds. -/
def loopFor (step : σ → Option σ) : (rounds : ℕ) → σ → Option σ
  | 0, _ => none
  | rounds + 1, s =>
      match step s with
      | none => some s
      | some s' => loopFor step rounds s'

variable {step : σ → Option σ}

theorem loopFor_mem_eval {rounds : ℕ} {s t : σ} (h : loopFor step rounds s = some t) :
    t ∈ eval step s := by
  induction rounds generalizing s with
  | zero => cases h
  | succ rounds ih =>
      rw [loopFor] at h
      cases hs : step s with
      | none =>
          simp only [hs, Option.some.injEq] at h
          exact h ▸ mem_eval.mpr ⟨.refl, hs⟩
      | some s' =>
          simp only [hs] at h
          obtain ⟨hreach, hstop⟩ := mem_eval.mp (ih h)
          exact mem_eval.mpr ⟨.head hs hreach, hstop⟩

/-- A loop that is known to walk along a path stops at the end of it, in as
many rounds as the path has states. -/
theorem loopFor_of_path {p : ℕ → σ} {k rounds : ℕ} (hpath : ∀ i < k, step (p i) = some (p (i + 1)))
    (hstop : step (p k) = none) (hk : k < rounds) :
    loopFor step rounds (p 0) = some (p k) := by
  induction k generalizing p rounds with
  | zero =>
      obtain ⟨n, rfl⟩ := Nat.exists_eq_succ_of_ne_zero (Nat.ne_of_gt hk)
      rw [loopFor, hstop]
  | succ k ih =>
      obtain ⟨n, rfl⟩ := Nat.exists_eq_succ_of_ne_zero (Nat.ne_of_gt (Nat.zero_lt_of_lt hk))
      have htail : ∀ i < k, step (p (i + 1)) = some (p (i + 1 + 1)) :=
        fun i hi => hpath (i + 1) (Nat.succ_lt_succ hi)
      rw [loopFor, hpath 0 (Nat.succ_pos k)]
      exact ih htail hstop (Nat.lt_of_succ_lt_succ hk)

theorem eq_of_reaches_fixed {s t : σ} (hfixed : step s = some s) (hreach : Reaches step s t) :
    t = s := by
  induction hreach with
  | refl => rfl
  | tail _ hlast ih =>
      subst ih
      exact (Option.some.inj (hfixed.symm.trans hlast)).symm

/-- What stands still in a state that is reached does not end. -/
theorem not_dom_eval_of_fixed {s t : σ} (hreach : Reaches step s t) (hfixed : step t = some t) :
    ¬ (eval step s).Dom := by
  intro hdom
  obtain ⟨u, hu⟩ := Part.dom_iff_mem.mp hdom
  rw [reaches_eval hreach] at hu
  obtain ⟨hreach', hstop⟩ := mem_eval.mp hu
  rw [eq_of_reaches_fixed hfixed hreach', hfixed] at hstop
  cases hstop

section Measure

variable {μ : σ → ℕ} {s : σ}

/-- A measure that goes down in every round is a bound on the rounds. -/
theorem loopFor_isSome (hμ : ∀ t u, Reaches step s t → step t = some u → μ u < μ t) {rounds : ℕ}
    (hrounds : μ s < rounds) : (loopFor step rounds s).isSome = true := by
  induction rounds generalizing s with
  | zero => omega
  | succ rounds ih =>
      rw [loopFor]
      cases hs : step s with
      | none => rfl
      | some s' =>
          have hlt : μ s' < μ s := hμ s s' .refl hs
          exact ih (fun t u hreach => hμ t u (.head hs hreach)) (by omega)

/-- If a round makes the measure smaller or leaves the state as it is, a loop ends
exactly if it stands still nowhere. -/
theorem exists_loopFor_iff
    (hμ : ∀ t u, Reaches step s t → step t = some u → u = t ∨ μ u < μ t) :
    (∃ rounds, (loopFor step rounds s).isSome = true) ↔
      ∀ t, Reaches step s t → step t ≠ some t := by
  constructor
  · rintro ⟨rounds, hends⟩ t hreach hfixed
    obtain ⟨u, hu⟩ := Option.isSome_iff_exists.mp hends
    exact not_dom_eval_of_fixed hreach hfixed (Part.dom_iff_mem.mpr ⟨u, loopFor_mem_eval hu⟩)
  · intro hmoves
    refine ⟨μ s + 1, loopFor_isSome (fun t u hreach hstep => ?_) (Nat.lt_succ_self _)⟩
    exact (hμ t u hreach hstep).resolve_left fun heq => hmoves t hreach (heq ▸ hstep)

end Measure

end AxiomDaemon.Lib

import Mathlib.Data.List.Basic

/-!
Traces of lock operations and of changes to what a lock guards.

`heldAfter m` says whether the lock `m` is held after a trace, `Guarded m` that
every change of the trace is made while it is. Both start from whether the lock
is held before.
-/

namespace AxiomDaemon.Lib

inductive LockEvent (μ : Type*)
  | lock (m : μ)
  | unlock (m : μ)
  | change

variable {μ : Type*} [DecidableEq μ]

def heldAfter (m : μ) : Bool → List (LockEvent μ) → Bool
  | held, [] => held
  | held, .lock n :: es => heldAfter m (if n = m then true else held) es
  | held, .unlock n :: es => heldAfter m (if n = m then false else held) es
  | held, .change :: es => heldAfter m held es

def Guarded (m : μ) : Bool → List (LockEvent μ) → Prop
  | _, [] => True
  | held, .lock n :: es => Guarded m (if n = m then true else held) es
  | held, .unlock n :: es => Guarded m (if n = m then false else held) es
  | held, .change :: es => held = true ∧ Guarded m held es

theorem heldAfter_append (m : μ) (held : Bool) (es es' : List (LockEvent μ)) :
    heldAfter m held (es ++ es') = heldAfter m (heldAfter m held es) es' := by
  induction es generalizing held with
  | nil => rfl
  | cons e es ih =>
      cases e with
      | lock n => exact ih _
      | unlock n => exact ih _
      | change => exact ih held

theorem guarded_append {m : μ} {held : Bool} {es es' : List (LockEvent μ)} :
    Guarded m held (es ++ es') ↔ Guarded m held es ∧ Guarded m (heldAfter m held es) es' := by
  induction es generalizing held with
  | nil => exact (true_and _).to_iff.symm
  | cons e es ih =>
      cases e with
      | lock n => exact ih
      | unlock n => exact ih
      | change => exact (and_congr Iff.rfl ih).trans and_assoc.symm

end AxiomDaemon.Lib

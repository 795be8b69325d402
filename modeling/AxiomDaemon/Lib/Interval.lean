import Mathlib.Algebra.BigOperators.Group.List.Basic
import Mathlib.Data.Finset.Card
import Mathlib.Data.Finset.Sort
import Mathlib.Order.Interval.Finset.Nat
import Mathlib.Algebra.Ring.Int.Defs

/-!
Unions of intervals of natural numbers, as a sweep over their endpoints sees
them. A list of half-open intervals covers a finite set of ticks. Cut into
endpoints, the list gives every tick a depth, the number of intervals opened
and not yet closed at that tick, and the covered ticks are those of positive
depth. The depth does not depend on the order of the endpoints, so a sweep
may sort them.
-/

namespace AxiomDaemon.Lib

/-- The ticks of `[a, b)` for the intervals `(a, b)` of the list. -/
def cover (ivs : List (ℕ × ℕ)) : Finset ℕ :=
  ivs.toFinset.biUnion fun iv => Finset.Ico iv.1 iv.2

theorem mem_cover {ivs : List (ℕ × ℕ)} {τ : ℕ} :
    τ ∈ cover ivs ↔ ∃ iv ∈ ivs, iv.1 ≤ τ ∧ τ < iv.2 := by
  simp [cover]

/-- One end of an interval. -/
structure Endpoint where
  time : ℕ
  opens : Bool
  deriving DecidableEq

namespace Endpoint

def sign (e : Endpoint) : ℤ := if e.opens then 1 else -1

/-- What the endpoint adds to the depth at `τ`. -/
def shift (e : Endpoint) (τ : ℕ) : ℤ := if e.time ≤ τ then e.sign else 0

theorem shift_of_lt {e : Endpoint} {τ : ℕ} (h : τ < e.time) : e.shift τ = 0 :=
  if_neg (by omega)

theorem shift_of_le {e : Endpoint} {τ : ℕ} (h : e.time ≤ τ) : e.shift τ = e.sign :=
  if_pos h

/-- The order of a sweep: by time, and intervals open before others close. -/
def Before (a b : Endpoint) : Prop :=
  a.time < b.time ∨ (a.time = b.time ∧ (a.opens = true ∨ b.opens = false))

theorem Before.time_le {a b : Endpoint} (h : a.Before b) : a.time ≤ b.time := by
  rcases h with h | h
  · exact h.le
  · exact h.1.le

end Endpoint

/-- Opened minus closed intervals at the tick `τ`. -/
def depth (es : List Endpoint) (τ : ℕ) : ℤ := (es.map fun e => e.shift τ).sum

/-- Opened minus closed intervals altogether. -/
def balance (es : List Endpoint) : ℤ := (es.map Endpoint.sign).sum

@[simp] theorem depth_nil (τ : ℕ) : depth [] τ = 0 := rfl

@[simp] theorem depth_cons (e : Endpoint) (es : List Endpoint) (τ : ℕ) :
    depth (e :: es) τ = e.shift τ + depth es τ := by
  simp [depth]

@[simp] theorem balance_nil : balance [] = 0 := rfl

@[simp] theorem balance_cons (e : Endpoint) (es : List Endpoint) :
    balance (e :: es) = e.sign + balance es := by
  simp [balance]

theorem depth_perm {es es' : List Endpoint} (h : es.Perm es') (τ : ℕ) :
    depth es τ = depth es' τ :=
  (h.map _).sum_eq

theorem balance_perm {es es' : List Endpoint} (h : es.Perm es') : balance es = balance es' :=
  (h.map _).sum_eq

theorem depth_eq_zero {es : List Endpoint} {τ : ℕ} (h : ∀ e ∈ es, τ < e.time) :
    depth es τ = 0 := by
  induction es with
  | nil => rfl
  | cons e es ih =>
      rw [depth_cons, Endpoint.shift_of_lt (h e (by simp)), ih fun x hx => h x (by simp [hx])]
      rfl

/-- Where an interval is closed first, nothing opens at the same tick any
more. -/
theorem depth_nonpos_of_closing {e : Endpoint} {es : List Endpoint} (hopens : e.opens = false)
    (hsorted : ∀ x ∈ es, e.Before x) : depth es e.time ≤ 0 := by
  induction es with
  | nil => simp
  | cons x es ih =>
      have hx : x.shift e.time ≤ 0 := by
        rcases hsorted x (by simp) with hlt | ⟨heq, hor⟩
        · rw [Endpoint.shift_of_lt hlt]
        · have hclose : x.opens = false := by simpa [hopens] using hor
          rw [Endpoint.shift_of_le heq.ge, Endpoint.sign, hclose]
          decide
      have hrest := ih fun y hy => hsorted y (by simp [hy])
      rw [depth_cons]
      omega

/-- The two ends of every interval of the list. -/
def endpoints (ivs : List (ℕ × ℕ)) : List Endpoint :=
  ivs.flatMap fun iv => [⟨iv.1, true⟩, ⟨iv.2, false⟩]

@[simp] theorem endpoints_nil : endpoints [] = [] := rfl

@[simp] theorem endpoints_cons (iv : ℕ × ℕ) (ivs : List (ℕ × ℕ)) :
    endpoints (iv :: ivs) = ⟨iv.1, true⟩ :: ⟨iv.2, false⟩ :: endpoints ivs := rfl

@[simp] theorem length_endpoints (ivs : List (ℕ × ℕ)) :
    (endpoints ivs).length = 2 * ivs.length := by
  induction ivs with
  | nil => rfl
  | cons iv ivs ih =>
      rw [endpoints_cons, List.length_cons, List.length_cons, List.length_cons, ih]
      omega

theorem balance_endpoints (ivs : List (ℕ × ℕ)) : balance (endpoints ivs) = 0 := by
  induction ivs with
  | nil => rfl
  | cons iv ivs ih => simp [ih, Endpoint.sign]

theorem depth_endpoints {ivs : List (ℕ × ℕ)} (h : ∀ iv ∈ ivs, iv.1 ≤ iv.2) (τ : ℕ) :
    depth (endpoints ivs) τ = (ivs.countP fun iv => decide (iv.1 ≤ τ ∧ τ < iv.2) : ℕ) := by
  induction ivs with
  | nil => rfl
  | cons iv ivs ih =>
      have hiv := h iv (by simp)
      rw [endpoints_cons, depth_cons, depth_cons, ih fun x hx => h x (by simp [hx]),
        List.countP_cons]
      simp only [Endpoint.shift, Endpoint.sign, if_true, Bool.false_eq_true, if_false,
        decide_eq_true_eq]
      split_ifs <;> push_cast <;> omega

theorem depth_endpoints_nonneg {ivs : List (ℕ × ℕ)} (h : ∀ iv ∈ ivs, iv.1 ≤ iv.2) (τ : ℕ) :
    0 ≤ depth (endpoints ivs) τ := by
  rw [depth_endpoints h]
  exact Int.natCast_nonneg _

theorem depth_endpoints_pos_iff {ivs : List (ℕ × ℕ)} (h : ∀ iv ∈ ivs, iv.1 ≤ iv.2) (τ : ℕ) :
    0 < depth (endpoints ivs) τ ↔ τ ∈ cover ivs := by
  rw [depth_endpoints h, mem_cover, Int.natCast_pos, List.countP_pos_iff]
  simp

/-! ### Closed intervals

A sweep that takes the openings at a tick before the closings there sees both
ends of an interval in it. -/

/-- How many of the closed intervals a tick is in. -/
def running (ivs : List (ℕ × ℕ)) (τ : ℕ) : ℕ := ivs.countP fun iv => decide (iv.1 ≤ τ ∧ τ ≤ iv.2)

/-- What the endpoint adds to the number of closed intervals around `τ`. -/
def Endpoint.reach (e : Endpoint) (τ : ℕ) : ℤ :=
  if e.opens then if e.time ≤ τ then 1 else 0 else if e.time < τ then -1 else 0

/-- Opened intervals minus those closed before the tick `τ`. -/
def closedDepth (es : List Endpoint) (τ : ℕ) : ℤ := (es.map fun e => e.reach τ).sum

@[simp] theorem closedDepth_nil (τ : ℕ) : closedDepth [] τ = 0 := rfl

@[simp] theorem closedDepth_cons (e : Endpoint) (es : List Endpoint) (τ : ℕ) :
    closedDepth (e :: es) τ = e.reach τ + closedDepth es τ := by
  rw [closedDepth, List.map_cons, List.sum_cons]
  rfl

theorem closedDepth_perm {es es' : List Endpoint} (h : es.Perm es') (τ : ℕ) :
    closedDepth es τ = closedDepth es' τ :=
  (h.map _).sum_eq

theorem Endpoint.reach_nonneg {e : Endpoint} {τ : ℕ} (h : τ ≤ e.time) : 0 ≤ e.reach τ := by
  rw [Endpoint.reach]
  split_ifs <;> omega

/-- Nothing is closed before a tick that no endpoint is in front of. -/
theorem closedDepth_nonneg {es : List Endpoint} {τ : ℕ} (h : ∀ e ∈ es, τ ≤ e.time) :
    0 ≤ closedDepth es τ := by
  induction es with
  | nil => exact le_rfl
  | cons e es ih =>
      obtain ⟨he, hes⟩ := List.forall_mem_cons.mp h
      rw [closedDepth_cons]
      exact add_nonneg (Endpoint.reach_nonneg he) (ih hes)

theorem closedDepth_eq_zero {es : List Endpoint} {τ : ℕ} (h : ∀ e ∈ es, τ < e.time) :
    closedDepth es τ = 0 := by
  induction es with
  | nil => rfl
  | cons e es ih =>
      obtain ⟨he, hes⟩ := List.forall_mem_cons.mp h
      rw [closedDepth_cons, ih hes, Endpoint.reach, if_neg (Nat.not_le.mpr he),
        if_neg (Nat.not_lt.mpr he.le), ite_self, add_zero]

theorem closedDepth_endpoints {ivs : List (ℕ × ℕ)} (h : ∀ iv ∈ ivs, iv.1 ≤ iv.2) (τ : ℕ) :
    closedDepth (endpoints ivs) τ = running ivs τ := by
  induction ivs with
  | nil => rfl
  | cons iv ivs ih =>
      obtain ⟨hiv, hivs⟩ := List.forall_mem_cons.mp h
      rw [endpoints_cons, closedDepth_cons, closedDepth_cons, ih hivs, running, running,
        List.countP_cons]
      simp only [Endpoint.reach, if_true, Bool.false_eq_true, if_false, decide_eq_true_eq]
      split_ifs <;> push_cast <;> omega

theorem running_le_length (ivs : List (ℕ × ℕ)) (τ : ℕ) : running ivs τ ≤ ivs.length :=
  List.countP_le_length

/-- Intervals that all meet a window are running at once nowhere as much as in the window. -/
theorem running_le_clamp {ivs : List (ℕ × ℕ)} {a b : ℕ} (hab : a ≤ b)
    (h : ∀ iv ∈ ivs, iv.1 ≤ b ∧ a ≤ iv.2) (τ : ℕ) :
    running ivs τ ≤ running ivs (max a (min τ b)) := by
  refine List.countP_mono_left fun iv hiv hτ => ?_
  obtain ⟨hstart, hstop⟩ := h iv hiv
  simp only [decide_eq_true_eq] at hτ ⊢
  omega

end AxiomDaemon.Lib

import Mathlib.Logic.Function.Basic
import Mathlib.Data.List.Basic
import Mathlib.Algebra.Order.Group.Nat

/-!
Goroutines that communicate over unbuffered channels.

A goroutine is a program over its own places: at each place it offers the
statements that may come next, several at a `select`. A send and a receive that
two goroutines offer on one channel happen together or not at all. On a closed
channel a receive yields nothing and a send panics, whether the channel was
closed before the send began or while it waited; so does closing it again.

The clock acts on a goroutine through the channel of its ticker. That channel is
not shared, so it is part of the goroutine's place: a tick moves the goroutine
from one place to another without its taking part.
-/

namespace AxiomDaemon.Lib

section Programs

variable {γ : Type} (κ V : Type) (σ : γ → Type)

/-- A statement that goroutine `i` offers, with the place after it. -/
inductive Action (i : γ)
  | send (c : κ) (v : V) (next : σ i)
  | receive (c : κ) (next : Option V → σ i)
  | close (c : κ) (next : σ i)
  | go (j : γ) (entry : σ j) (next : σ i)
  | move (next : σ i)
  | tick (next : σ i)

/-- The places of all goroutines and which channels are closed. -/
structure Net where
  place : (i : γ) → σ i
  closed : κ → Bool

end Programs

/-- What happens in one step. -/
inductive NetEvent (γ κ V : Type)
  | send (i j : γ) (c : κ) (v : V)
  | drained (i : γ) (c : κ)
  | close (i : γ) (c : κ)
  | go (i j : γ)
  | move (i : γ)
  | tick (i : γ)
  | panic (i : γ) (c : κ)

/-- The steps that are the clock's. -/
def NetEvent.isTick {γ κ V : Type} : NetEvent γ κ V → Bool
  | .tick _ => true
  | _ => false

section Places

variable {γ κ : Type} {σ : γ → Type} [DecidableEq γ]

/-- Goroutine `i` moves to another place. -/
def Net.goto (s : Net κ σ) (i : γ) (p : σ i) : Net κ σ :=
  { s with place := Function.update s.place i p }

@[simp] theorem Net.goto_place_self (s : Net κ σ) (i : γ) (p : σ i) : (s.goto i p).place i = p :=
  Function.update_self i p s.place

@[simp] theorem Net.goto_place_of_ne (s : Net κ σ) {i j : γ} (h : j ≠ i) (p : σ i) :
    (s.goto i p).place j = s.place j :=
  Function.update_of_ne h p s.place

@[simp] theorem Net.goto_closed (s : Net κ σ) (i : γ) (p : σ i) : (s.goto i p).closed = s.closed :=
  rfl

end Places

section Closing

variable {γ κ : Type} {σ : γ → Type} [DecidableEq κ]

def Net.shut (s : Net κ σ) (c : κ) : Net κ σ :=
  { s with closed := Function.update s.closed c true }

@[simp] theorem Net.shut_place (s : Net κ σ) (c : κ) (i : γ) : (s.shut c).place i = s.place i := rfl

@[simp] theorem Net.shut_closed_self (s : Net κ σ) (c : κ) : (s.shut c).closed c = true := by
  simp [Net.shut]

@[simp] theorem Net.shut_closed_of_ne (s : Net κ σ) {c d : κ} (h : d ≠ c) :
    (s.shut c).closed d = s.closed d := by
  simp [Net.shut, h]

end Closing

section Steps

variable {γ κ V : Type} {σ : γ → Type} [DecidableEq γ] [DecidableEq κ]

variable (prog : (i : γ) → σ i → List (Action κ V σ i))

/-- One step of the goroutines, in any order that they allow. -/
inductive Net.Step : Net κ σ → NetEvent γ κ V → Net κ σ → Prop
  | send {s : Net κ σ} {i j : γ} {c : κ} {v : V} {p : σ i} {q : Option V → σ j} (hne : i ≠ j)
      (hsend : .send c v p ∈ prog i (s.place i)) (hreceive : .receive c q ∈ prog j (s.place j))
      (hopen : s.closed c = false) :
      Step s (.send i j c v) ((s.goto i p).goto j (q (some v)))
  | drained {s : Net κ σ} {i : γ} {c : κ} {q : Option V → σ i}
      (hreceive : .receive c q ∈ prog i (s.place i)) (hclosed : s.closed c = true) :
      Step s (.drained i c) (s.goto i (q none))
  | close {s : Net κ σ} {i : γ} {c : κ} {p : σ i} (hclose : .close c p ∈ prog i (s.place i))
      (hopen : s.closed c = false) : Step s (.close i c) ((s.goto i p).shut c)
  | go {s : Net κ σ} {i j : γ} {entry : σ j} {p : σ i} (hgo : .go j entry p ∈ prog i (s.place i)) :
      Step s (.go i j) ((s.goto i p).goto j entry)
  | move {s : Net κ σ} {i : γ} {p : σ i} (hmove : .move p ∈ prog i (s.place i)) :
      Step s (.move i) (s.goto i p)
  | tick {s : Net κ σ} {i : γ} {p : σ i} (htick : .tick p ∈ prog i (s.place i)) :
      Step s (.tick i) (s.goto i p)
  | panicSend {s : Net κ σ} {i : γ} {c : κ} {v : V} {p : σ i}
      (hsend : .send c v p ∈ prog i (s.place i)) (hclosed : s.closed c = true) :
      Step s (.panic i c) s
  | panicClose {s : Net κ σ} {i : γ} {c : κ} {p : σ i} (hclose : .close c p ∈ prog i (s.place i))
      (hclosed : s.closed c = true) : Step s (.panic i c) s

/-- A run with its events in order. -/
inductive Net.Run (s : Net κ σ) : List (NetEvent γ κ V) → Net κ σ → Prop
  | nil : Run s [] s
  | snoc {tr : List (NetEvent γ κ V)} {t u : Net κ σ} {e : NetEvent γ κ V} (h : Run s tr t)
      (hstep : Net.Step prog t e u) : Run s (tr ++ [e]) u

variable {prog}

theorem Net.Run.cons {s t u : Net κ σ} {e : NetEvent γ κ V} {tr : List (NetEvent γ κ V)}
    (hstep : Net.Step prog s e t) (h : Net.Run prog t tr u) : Net.Run prog s (e :: tr) u := by
  induction h with
  | nil => exact Run.nil.snoc hstep
  | snoc _ hlast ih => exact ih.snoc hlast

/-- What holds at the start and is kept by every step holds after a run. -/
theorem Net.Run.invariant {s t : Net κ σ} {tr : List (NetEvent γ κ V)}
    (h : Net.Run prog s tr t) (inv : List (NetEvent γ κ V) → Net κ σ → Prop) (hstart : inv [] s)
    (hkept : ∀ tr' t' e u, inv tr' t' → Net.Step prog t' e u → inv (tr' ++ [e]) u) : inv tr t := by
  induction h with
  | nil => exact hstart
  | snoc _ hstep ih => exact hkept _ _ _ _ ih hstep

/-- A run bounds the number of its steps that are not the clock's, if each of them
takes from a store to which a tick adds `k`. -/
theorem Net.Run.bounded {work : Net κ σ → ℕ} {k : ℕ} {s t : Net κ σ}
    {tr : List (NetEvent γ κ V)} (h : Net.Run prog s tr t) (inv : Net κ σ → Prop) (hinv : inv s)
    (hkept : ∀ t' e u, inv t' → Net.Step prog t' e u → inv u ∧
      work u + (if e.isTick = true then 0 else 1) ≤ work t' + (if e.isTick = true then k else 0)) :
    inv t ∧ work t + tr.countP (fun e => !e.isTick) ≤ work s + k * tr.countP NetEvent.isTick := by
  induction h with
  | nil => exact ⟨hinv, Nat.le_refl _⟩
  | @snoc tr' t' u e _ hstep ih =>
      obtain ⟨hinv', hle⟩ := ih
      obtain ⟨hu, hwork⟩ := hkept t' e u hinv' hstep
      refine ⟨hu, ?_⟩
      simp only [List.countP_append, List.countP_singleton]
      cases hkind : e.isTick with
      | true =>
          simp only [hkind, if_true, Bool.not_true] at hwork ⊢
          simp only [Bool.false_eq_true, if_false, Nat.mul_add, Nat.add_zero, Nat.mul_one]
          omega
      | false =>
          simp only [hkind, Bool.false_eq_true, if_false, Bool.not_false] at hwork ⊢
          simp only [if_true, Nat.add_zero]
          omega

end Steps

end AxiomDaemon.Lib

import Mathlib.Algebra.BigOperators.Group.List.Basic
import Mathlib.Order.Basic
import Mathlib.Algebra.GroupWithZero.Nat
import Mathlib.Algebra.Order.Group.Nat

/-!
Programs on a state that only grows.

`g.Reaches top s m post leaves` is one judgment for what a program does: started in `s`, it
returns, in a state that is not smaller than `s` and not larger than `top`; what it returns
and the state satisfy `post`; and whoever looks at the state later on finds what it
`leaves`. A bound instead of a size lets the rules compose by adding bounds. What was left
once is there in all later views, so that it does not have to be carried through the calls
that follow.
-/

namespace AxiomDaemon.Lib

/-- States with a size, and with what may be seen of them later on. -/
structure Growth (σ β : Type) where
  size : σ → ℕ
  View : σ → β → Prop

namespace Growth

variable {σ β α γ : Type} (g : Growth σ β)

def Reaches (top : ℕ) (s : σ) (m : StateT σ Option α) (post : α → σ → Prop)
    (leaves : α → β → Prop) : Prop :=
  ∃ a s', m s = some (a, s') ∧ g.size s ≤ g.size s' ∧ g.size s' ≤ top ∧ post a s' ∧
    ∀ b, g.View s' b → g.View s b ∧ leaves a b

namespace Reaches

variable {g} {top : ℕ} {s : σ} {m : StateT σ Option α} {post : α → σ → Prop}
  {leaves : α → β → Prop}

theorem pure {a : α} (htop : g.size s ≤ top) (hpost : post a s) (hleaves : ∀ b, leaves a b) :
    g.Reaches top s (pure a) post leaves :=
  ⟨a, s, rfl, le_refl _, htop, hpost, fun b hb => ⟨hb, hleaves b⟩⟩

/-- What the first program leaves may be used for what the second one is to leave. -/
theorem bind {mid : ℕ} {k : α → StateT σ Option γ} {post' : γ → σ → Prop}
    {leaves' : γ → β → Prop} (hm : g.Reaches mid s m post leaves)
    (hk : ∀ a s', post a s' → g.size s ≤ g.size s' → g.size s' ≤ mid →
      g.Reaches top s' (k a) post' fun c b => leaves a b → leaves' c b) :
    g.Reaches top s (m >>= k) post' leaves' := by
  obtain ⟨a, s', hrun, hle, hmid, hpost, hview⟩ := hm
  obtain ⟨c, s'', hrun', hle', htop, hpost', hview'⟩ := hk a s' hpost hle hmid
  refine ⟨c, s'', ?_, hle.trans hle', htop, hpost', fun b hb => ?_⟩
  · show (m s).bind (fun p => k p.1 p.2) = _
    rw [hrun]
    exact hrun'
  · obtain ⟨hb', hleaves'⟩ := hview' b hb
    obtain ⟨hb'', hleaves⟩ := hview b hb'
    exact ⟨hb'', hleaves' hleaves⟩

theorem mono {top' : ℕ} {post' : α → σ → Prop} {leaves' : α → β → Prop}
    (h : g.Reaches top s m post leaves) (htop : top ≤ top')
    (hpost : ∀ a s', g.size s' ≤ top → post a s' → post' a s')
    (hleaves : ∀ a b, leaves a b → leaves' a b) : g.Reaches top' s m post' leaves' := by
  obtain ⟨a, s', hrun, hle, hle', hs', hview⟩ := h
  exact ⟨a, s', hrun, hle, hle'.trans htop, hpost a s' hle' hs',
    fun b hb => ⟨(hview b hb).1, hleaves a b (hview b hb).2⟩⟩

/-- What is left is there already when the program returns. -/
theorem knows (h : g.Reaches top s m post leaves) :
    g.Reaches top s m (fun a s' => post a s' ∧ ∀ b, g.View s' b → leaves a b) leaves := by
  obtain ⟨a, s', hrun, hle, hle', hs', hview⟩ := h
  exact ⟨a, s', hrun, hle, hle', ⟨hs', fun b hb => (hview b hb).2⟩, hview⟩

end Reaches

/-- A program for each element of a list, one after the other. -/
theorem reaches_mapM (inv : σ → Prop) (good : α → ℕ → Prop) {limit : ℕ} {cost : γ → ℕ}
    {f : γ → StateT σ Option α} {leaves : γ → α → β → Prop}
    (hgood : ∀ {a n n'}, good a n → n ≤ n' → good a n') {l : List γ}
    (hf : ∀ x ∈ l, ∀ s, inv s → g.size s + cost x < limit →
      g.Reaches (g.size s + cost x) s (f x) (fun a s' => inv s' ∧ good a (g.size s')) (leaves x))
    {s : σ} (hs : inv s) (hlimit : g.size s + (l.map cost).sum < limit) :
    g.Reaches (g.size s + (l.map cost).sum) s (l.mapM f)
      (fun as s' => inv s' ∧ ∀ a ∈ as, good a (g.size s'))
      fun as b => List.Forall₂ (fun x a => leaves x a b) l as := by
  induction l generalizing s with
  | nil =>
      rw [List.mapM_nil]
      exact Reaches.pure (Nat.le_add_right _ _) ⟨hs, nofun⟩ fun b => List.Forall₂.nil
  | cons x l ih =>
      rw [List.map_cons, List.sum_cons] at hlimit ⊢
      rw [List.mapM_cons]
      have hx := hf x List.mem_cons_self s hs (by omega)
      refine hx.bind fun a s' ⟨hs', ha⟩ _ hle => ?_
      have hrest := ih (fun y hy => hf y (List.mem_cons_of_mem x hy)) hs' (by omega)
      refine hrest.bind fun as s'' ⟨hs'', has⟩ hle' hle'' => ?_
      refine Reaches.pure (by omega) ⟨hs'', ?_⟩ fun b hall hhead => List.Forall₂.cons hhead hall
      intro c hc
      obtain rfl | hc := List.mem_cons.mp hc
      · exact hgood ha hle'
      · exact has c hc

end Growth

end AxiomDaemon.Lib

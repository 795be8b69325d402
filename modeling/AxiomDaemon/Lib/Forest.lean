import Mathlib.Algebra.BigOperators.Group.List.Basic
import Mathlib.Data.List.Nodup

/-!
Ordered forests of labelled trees, in the form first child, next sibling, and
their depth-first walk with one action on entering a node and one on leaving
it.
-/

namespace AxiomDaemon.Lib

/-- A list of trees: either empty, or a tree, given by its label and the list
of its subtrees, followed by the trees after it. -/
inductive Forest (α : Type*)
  | nil
  | node (a : α) (children rest : Forest α)
  deriving DecidableEq

/-- A single tree. -/
structure OrderedTree (α : Type*) where
  root : α
  children : Forest α
  deriving DecidableEq

namespace Forest

variable {α σ : Type*}

/-- The number of trees. -/
def length : Forest α → ℕ
  | nil => 0
  | node _ _ rest => rest.length + 1

/-- The labels of the roots. -/
def roots : Forest α → List α
  | nil => []
  | node a _ rest => a :: rest.roots

/-- All labels, every node before its subtrees. -/
def labels : Forest α → List α
  | nil => []
  | node a children rest => a :: (children.labels ++ rest.labels)

@[simp] theorem labels_nil : (nil : Forest α).labels = [] := rfl

@[simp] theorem labels_node (a : α) (children rest : Forest α) :
    (node a children rest).labels = a :: (children.labels ++ rest.labels) := rfl

@[simp] theorem roots_nil : (nil : Forest α).roots = [] := rfl

@[simp] theorem roots_node (a : α) (children rest : Forest α) :
    (node a children rest).roots = a :: rest.roots := rfl

theorem length_roots (f : Forest α) : f.roots.length = f.length := by
  induction f with
  | nil => rfl
  | node a children rest _ ih => rw [roots_node, List.length_cons, ih, length]

theorem roots_sublist_labels (f : Forest α) : f.roots.Sublist f.labels := by
  induction f with
  | nil => exact List.Sublist.refl _
  | node a children rest _ ih =>
      exact (ih.trans (List.sublist_append_right _ _)).cons_cons a

theorem length_le_labels (f : Forest α) : f.length ≤ f.labels.length := by
  rw [← length_roots]
  exact f.roots_sublist_labels.length_le

/-! ### Contraction

Only the nodes with a property are kept. The trees below a node that is
dropped take its place, so that every node that is kept ends up below its
nearest ancestor that is kept. -/

def append : Forest α → Forest α → Forest α
  | nil, g => g
  | node a children rest, g => node a children (rest.append g)

def keep (p : α → Bool) : Forest α → Forest α
  | nil => nil
  | node a children rest =>
      if p a then node a (children.keep p) (rest.keep p)
      else (children.keep p).append (rest.keep p)

/-- Every node with its parent, if it has one; `q` is the parent of the
roots. -/
def edges (q : Option α) : Forest α → List (Option α × α)
  | nil => []
  | node a children rest => (q, a) :: (children.edges (some a) ++ rest.edges q)

/-- Every node with the property, with its nearest ancestor that has it too;
`q` is that of the roots. -/
def nearestEdges (p : α → Bool) (q : Option α) : Forest α → List (Option α × α)
  | nil => []
  | node a children rest =>
      if p a then (q, a) :: (children.nearestEdges p (some a) ++ rest.nearestEdges p q)
      else children.nearestEdges p q ++ rest.nearestEdges p q

/-- The nodes with the property none of whose ancestors has it. -/
def tops (p : α → Bool) : Forest α → List α
  | nil => []
  | node a children rest =>
      if p a then a :: rest.tops p else children.tops p ++ rest.tops p

theorem edges_append (q : Option α) (f g : Forest α) :
    (f.append g).edges q = f.edges q ++ g.edges q := by
  induction f with
  | nil => rfl
  | node a children rest _ ih => simp [append, edges, ih]

theorem labels_append (f g : Forest α) : (f.append g).labels = f.labels ++ g.labels := by
  induction f with
  | nil => rfl
  | node a children rest _ ih => simp [append, ih]

theorem length_append (f g : Forest α) : (f.append g).length = f.length + g.length := by
  induction f with
  | nil => simp [append, length]
  | node a children rest _ ih =>
      simp only [append, length, ih]
      omega

theorem edges_keep (p : α → Bool) (q : Option α) (f : Forest α) :
    (f.keep p).edges q = f.nearestEdges p q := by
  induction f generalizing q with
  | nil => rfl
  | node a children rest ihc ihr =>
      rw [keep, nearestEdges]
      split
      · rw [edges, ihc, ihr]
      · rw [edges_append, ihc, ihr]

theorem labels_keep (p : α → Bool) (f : Forest α) : (f.keep p).labels = f.labels.filter p := by
  induction f with
  | nil => rfl
  | node a children rest ihc ihr =>
      rw [keep, labels_node, List.filter_cons, List.filter_append]
      split
      · rw [labels_node, ihc, ihr]
      · rw [labels_append, ihc, ihr]

theorem length_keep (p : α → Bool) (f : Forest α) : (f.keep p).length = (f.tops p).length := by
  induction f with
  | nil => rfl
  | node a children rest ihc ihr =>
      rw [keep, tops]
      split
      · rw [length, ihr, List.length_cons]
      · rw [length_append, ihc, ihr, List.length_append]

theorem snd_edges (q : Option α) (f : Forest α) : (f.edges q).map Prod.snd = f.labels := by
  induction f generalizing q with
  | nil => rfl
  | node a children rest ihc ihr =>
      rw [edges, labels_node, List.map_cons, List.map_append, ihc, ihr]

theorem edges_some_fst {q : α} {f : Forest α} {e : Option α × α} (he : e ∈ f.edges (some q)) :
    e.1 ≠ none := by
  induction f generalizing q with
  | nil => cases he
  | node a children rest ihc ihr =>
      rw [edges, List.mem_cons, List.mem_append] at he
      rcases he with rfl | hchild | hrest
      · exact Option.some_ne_none q
      · exact ihc hchild
      · exact ihr hrest

/-- The forest with other labels. -/
def map {β : Type*} (g : α → β) : Forest α → Forest β
  | nil => nil
  | node a children rest => node (g a) (children.map g) (rest.map g)

theorem map_append {β : Type*} (g : α → β) (f f' : Forest α) :
    (f.append f').map g = (f.map g).append (f'.map g) := by
  induction f with
  | nil => rfl
  | node a children rest _ ih => rw [append, map, map, append, ih]

theorem labels_map {β : Type*} (g : α → β) (f : Forest α) :
    (f.map g).labels = f.labels.map g := by
  induction f with
  | nil => rfl
  | node a children rest ihc ihr =>
      rw [map, labels_node, labels_node, ihc, ihr, List.map_cons, List.map_append]

/-! ### Walks -/

/-- The walk. On entering a node `enter` sees its parent, its label and the
number of its subtrees, and says whether `leave` is to be called in the end. -/
def walk (enter : Option α → α → ℕ → σ → σ × Bool) (leave : α → σ → σ) (parent : Option α) :
    Forest α → σ → σ
  | nil, s => s
  | node a children rest, s =>
      let (s, registered) := enter parent a children.length s
      let s := children.walk enter leave (some a) s
      let s := if registered then leave a s else s
      rest.walk enter leave parent s

/-- What entering and leaving a node preserve, the walk preserves. -/
theorem walk_invariant {enter : Option α → α → ℕ → σ → σ × Bool} {leave : α → σ → σ}
    {inv : σ → Prop} (henter : ∀ parent a n s, inv s → inv (enter parent a n s).1)
    (hleave : ∀ a s, inv s → inv (leave a s)) (f : Forest α) (parent : Option α) {s : σ}
    (h : inv s) : inv (f.walk enter leave parent s) := by
  induction f generalizing parent s with
  | nil => exact h
  | node a children rest ihc ihr =>
      rw [walk]
      have hchildren := ihc (some a) (henter parent a children.length s h)
      refine ihr parent ?_
      split
      · exact hleave a _ hchildren
      · exact hchildren

/-- A part of the state that only entering a node changes is folded over the
labels. -/
theorem walk_foldl {τ : Type*} {enter : Option α → α → ℕ → σ → σ × Bool} {leave : α → σ → σ}
    {part : σ → τ} {step : τ → α → τ}
    (henter : ∀ parent a n s, part (enter parent a n s).1 = step (part s) a)
    (hleave : ∀ a s, part (leave a s) = part s) (f : Forest α) (parent : Option α) (s : σ) :
    part (f.walk enter leave parent s) = f.labels.foldl step (part s) := by
  induction f generalizing parent s with
  | nil => rfl
  | node a children rest ihc ihr =>
      have hleft : ∀ registered s', part (if registered = true then leave a s' else s') =
          part s' := by
        intro registered s'
        cases registered with
        | false => rfl
        | true => exact hleave a s'
      rw [walk, labels_node, List.foldl_cons, List.foldl_append, ihr, hleft, ihc, henter]

end Forest

namespace OrderedTree

variable {α : Type*}

def toForest (t : OrderedTree α) : Forest α := .node t.root t.children .nil

def labels (t : OrderedTree α) : List α := t.toForest.labels

theorem mem_labels_iff {t : OrderedTree α} {a : α} :
    a ∈ t.labels ↔ a = t.root ∨ a ∈ t.children.labels := by
  simp [labels, toForest]

end OrderedTree

end AxiomDaemon.Lib

import AxiomDaemon.Axiom.SegmentChildren
import AxiomDaemon.Lib.Transition
import Mathlib.Logic.Function.Basic

/-!
Runs over the children containers of all segments of a transaction, and the
list machine they are meant to implement.

The one place where the containers leave the list machine is a removal that
halves the capacity of a vector to an odd number. Capacities start at twice
the number of packed children and are doubled from there, so halving them
back can reach an odd number as soon as a container with an odd number of
children has been migrated.
-/

namespace AxiomDaemon.Axiom

open AxiomDaemon.Lib AxiomDaemon.Util

/-- The part of a segment that the container functions touch. -/
structure Segment (Seg : Type) where
  parent : Option Seg
  children : NrSegmentChildren Seg

/-- The segments of a transaction, by address. -/
abbrev Segments (Seg : Type) := Seg → Segment Seg

/-- The calls. A container is only ever reparented onto another one. -/
inductive ChildrenOp (Seg : Type)
  | init (s : Seg)
  | add (s : Seg) (child : Option Seg)
  | remove (s : Seg) (child : Option Seg)
  | reparent (s : Seg) (newParent : Option Seg) (other : newParent ≠ some s)
  | get (s : Seg) (i : ℕ)
  | size (s : Seg)

inductive ChildrenReply (Seg : Type)
  | done
  | bool (b : Bool)
  | word (w : Word Seg)
  | size (n : ℕ)

section

variable {Seg : Type} [DecidableEq Seg]

def setChildren (σ : Segments Seg) (s : Seg) (u : NrSegmentChildren Seg) : Segments Seg :=
  Function.update σ s { σ s with children := u }

@[simp] theorem setChildren_children (σ : Segments Seg) (s t : Seg) (u : NrSegmentChildren Seg) :
    (setChildren σ s u t).children = if t = s then u else (σ t).children := by
  by_cases h : t = s
  · subst h; simp [setChildren]
  · simp [setChildren, h]

/-- `child->parent = new_parent` for a word read from a container. -/
def setParent (newParent : Seg) (σ : Segments Seg) : Word Seg → Segments Seg
  | .ptr (some c) => Function.update σ c { σ c with parent := some newParent }
  | _ => σ

theorem setParent_children (newParent : Seg) (σ : Segments Seg) (w : Word Seg) (t : Seg) :
    (setParent newParent σ w t).children = (σ t).children := by
  unfold setParent
  split
  · next c =>
      by_cases h : t = c
      · subst h; simp
      · simp [h]
  · rfl

/-- The loop of `nr_segment_children_reparent` over the children. -/
def setParents (newParent : Seg) (u : NrSegmentChildren Seg) (σ : Segments Seg) : Segments Seg :=
  (List.range (nrSegmentChildrenSize u)).foldl
    (fun σ i => setParent newParent σ (nrSegmentChildrenGet u i)) σ

@[simp] theorem setParents_children (newParent : Seg) (u : NrSegmentChildren Seg)
    (σ : Segments Seg) (t : Seg) : (setParents newParent u σ t).children = (σ t).children := by
  unfold setParents
  generalize List.range (nrSegmentChildrenSize u) = is
  induction is generalizing σ with
  | nil => rfl
  | cons i is ih =>
      rw [List.foldl_cons, ih]
      exact setParent_children ..

/-- `nr_segment_children_reparent (&s->children, new_parent)`. -/
def nrSegmentChildrenReparent (σ : Segments Seg) (s : Seg) (newParent : Option Seg) :
    Segments Seg × Bool :=
  match newParent with
  | none => (σ, false)
  | some p =>
      if nrSegmentChildrenSize (σ s).children = 0 then (σ, true)
      else
        let σ := setParents p (σ s).children σ
        let σ := setChildren σ p (appendChildren (σ s).children (σ p).children)
        (setChildren σ s (nrSegmentChildrenDeinit (σ s).children), true)

def execChildren (σ : Segments Seg) : ChildrenOp Seg → Segments Seg
  | .init s => setChildren σ s (nrSegmentChildrenInit (σ s).children)
  | .add s child => setChildren σ s (nrSegmentChildrenAdd (σ s).children child).1
  | .remove s child => setChildren σ s (nrSegmentChildrenRemove (σ s).children child).1
  | .reparent s newParent _ => (nrSegmentChildrenReparent σ s newParent).1
  | .get _ _ => σ
  | .size _ => σ

def replyChildren (σ : Segments Seg) : ChildrenOp Seg → ChildrenReply Seg
  | .init _ => .done
  | .add s child => .bool (nrSegmentChildrenAdd (σ s).children child).2
  | .remove s child => .bool (nrSegmentChildrenRemove (σ s).children child).2
  | .reparent s newParent _ => .bool (nrSegmentChildrenReparent σ s newParent).2
  | .get s i => .word (nrSegmentChildrenGet (σ s).children i)
  | .size s => .size (nrSegmentChildrenSize (σ s).children)

/-- The list machine. Children are appended, a removal takes out one
occurrence and keeps the others in order, a reparenting appends the whole
list to that of the new parent. -/
inductive ListStep : (Seg → List Seg) → ChildrenOp Seg → ChildrenReply Seg →
    (Seg → List Seg) → Prop
  | init (A : Seg → List Seg) (s : Seg) : ListStep A (.init s) .done (Function.update A s [])
  | addNull (A : Seg → List Seg) (s : Seg) : ListStep A (.add s none) (.bool false) A
  | add (A : Seg → List Seg) (s c : Seg) :
      ListStep A (.add s (some c)) (.bool true) (Function.update A s (A s ++ [c]))
  | removeNull (A : Seg → List Seg) (s : Seg) : ListStep A (.remove s none) (.bool false) A
  | removeMissing (A : Seg → List Seg) (s c : Seg) (h : c ∉ A s) :
      ListStep A (.remove s (some c)) (.bool false) A
  | remove (A : Seg → List Seg) (s c : Seg) (l : List Seg) (h : Removes (A s) c l) :
      ListStep A (.remove s (some c)) (.bool true) (Function.update A s l)
  | reparentNull (A : Seg → List Seg) (s : Seg) (h : none ≠ some s) :
      ListStep A (.reparent s none h) (.bool false) A
  | reparent (A : Seg → List Seg) (s p : Seg) (h : some p ≠ some s) :
      ListStep A (.reparent s (some p) h) (.bool true)
        (Function.update (Function.update A p (A p ++ A s)) s [])
  | get (A : Seg → List Seg) (s : Seg) (i : ℕ) : ListStep A (.get s i) (.word (.ptr (A s)[i]?)) A
  | size (A : Seg → List Seg) (s : Seg) : ListStep A (.size s) (.size (A s).length) A

/-- Every container denotes its list. -/
def ChildrenSim (σ : Segments Seg) (A : Seg → List Seg) : Prop :=
  ∀ s, Denotes (σ s).children (A s)

/-- The step does not halve the capacity of a vector to an odd number. -/
def KeepsTag (σ : Segments Seg) : ChildrenOp Seg → Prop
  | .remove s (some c) => ¬ OddShrink (σ s).children c
  | _ => True

theorem childrenSim_setChildren {σ : Segments Seg} {A : Seg → List Seg} (h : ChildrenSim σ A)
    {s : Seg} {u : NrSegmentChildren Seg} {l : List Seg} (hu : Denotes u l) :
    ChildrenSim (setChildren σ s u) (Function.update A s l) := by
  intro t
  by_cases hts : t = s
  · subst hts
    simpa using hu
  · simpa [hts] using h t

theorem childrenSim_setChildren_self {σ : Segments Seg} {A : Seg → List Seg}
    (h : ChildrenSim σ A) (s : Seg) : ChildrenSim (setChildren σ s (σ s).children) A := by
  intro t
  by_cases hts : t = s
  · subst hts
    simpa using h t
  · simpa [hts] using h t

/-- One step of the containers is one step of the lists, as long as it keeps
the tag readable. -/
theorem listStep_of_keepsTag {σ : Segments Seg} {A : Seg → List Seg} {op : ChildrenOp Seg}
    (h : ChildrenSim σ A) (htag : KeepsTag σ op) :
    ∃ A', ListStep A op (replyChildren σ op) A' ∧ ChildrenSim (execChildren σ op) A' := by
  cases op with
  | init s =>
      exact ⟨_, .init A s, childrenSim_setChildren h (.inl (packedRep_init (h s).width))⟩
  | add s child =>
      cases child with
      | none => exact ⟨A, .addNull A s, childrenSim_setChildren_self h s⟩
      | some c =>
          obtain ⟨hden, hreply⟩ := (h s).add c
          refine ⟨_, ?_, childrenSim_setChildren h hden⟩
          rw [replyChildren, hreply]
          exact .add A s c
  | remove s child =>
      cases child with
      | none => exact ⟨A, .removeNull A s, childrenSim_setChildren_self h s⟩
      | some c =>
          rcases (h s).remove c htag with ⟨l, hrem, hden, hreply⟩ | ⟨hnot, heq⟩
          · refine ⟨_, ?_, childrenSim_setChildren h hden⟩
            rw [replyChildren, hreply]
            exact .remove A s c l hrem
          · refine ⟨A, ?_, ?_⟩
            · rw [replyChildren, heq]
              exact .removeMissing A s c hnot
            · rw [execChildren, heq]
              exact childrenSim_setChildren_self h s
  | reparent s newParent other =>
      cases newParent with
      | none => exact ⟨A, .reparentNull A s other, h⟩
      | some p =>
          refine ⟨Function.update (Function.update A p (A p ++ A s)) s [], ?_, ?_⟩
          · have hreply : (nrSegmentChildrenReparent σ s (some p)).2 = true := by
              simp only [nrSegmentChildrenReparent]
              split <;> rfl
            rw [replyChildren, hreply]
            exact .reparent A s p other
          · simp only [execChildren, nrSegmentChildrenReparent, (h s).size]
            by_cases hnil : A s = []
            · -- Nothing is moved, and appending nothing changes nothing.
              rw [if_pos (by simp [hnil])]
              intro t
              by_cases hts : t = s
              · subst hts; simpa [hnil] using h t
              · by_cases htp : t = p
                · subst htp; simpa [hts, hnil] using h t
                · simpa [hts, htp] using h t
            · rw [if_neg (by simpa using hnil)]
              have hmoved : ChildrenSim (setParents p (σ s).children σ) A := by
                intro t
                simpa using h t
              have happ := childrenSim_setChildren hmoved (s := p)
                ((hmoved s).appendChildren (hmoved p) hnil)
              exact childrenSim_setChildren happ (denotes_deinit (happ s).width)
  | get s i =>
      refine ⟨A, ?_, h⟩
      rw [replyChildren, (h s).get]
      exact .get A s i
  | size s =>
      refine ⟨A, ?_, h⟩
      rw [replyChildren, (h s).size]
      exact .size A s

/-- A step that loses the tag reaches a state in which some container denotes
no list. -/
theorem not_childrenSim_of_not_keepsTag {σ : Segments Seg} {A : Seg → List Seg}
    {op : ChildrenOp Seg} (h : ChildrenSim σ A) (htag : ¬ KeepsTag σ op) (A' : Seg → List Seg) :
    ¬ ChildrenSim (execChildren σ op) A' := by
  cases op with
  | remove s child =>
      cases child with
      | none => simp [KeepsTag] at htag
      | some c =>
          intro hsim
          have hodd : OddShrink (σ s).children c := by
            simpa [KeepsTag] using htag
          apply not_denotes_remove_of_oddShrink (h s) hodd (A' s)
          simpa [execChildren] using hsim s
  | init s | add s child | reparent s newParent other | get s i | size s => simp [KeepsTag] at htag

/-- Freshly initialised containers, over memory with arbitrary contents. -/
def initialSegments (memory : Seg → NrSegmentChildren Seg) : Segments Seg :=
  fun s => { parent := none, children := nrSegmentChildrenInit (memory s) }

omit [DecidableEq Seg] in
theorem initialSegments_sim {memory : Seg → NrSegmentChildren Seg}
    (hmemory : ∀ s, (memory s).words.length = 8) :
    ChildrenSim (initialSegments memory) fun _ => [] := by
  intro s
  exact .inl (packedRep_init (hmemory s))

theorem childrenRefines_iff_along {σ : Segments Seg} {A : Seg → List Seg} (h : ChildrenSim σ A)
    (ops : List (ChildrenOp Seg)) :
    Refines execChildren replyChildren ListStep ChildrenSim σ A ops ↔
      Along execChildren KeepsTag σ ops := by
  apply refines_iff_along _ _ h
  · intro σ A op hsim htag
    exact listStep_of_keepsTag hsim htag
  · intro σ A op hsim htag A'
    exact not_childrenSim_of_not_keepsTag hsim htag A'

/-- The children containers refine the list machine on exactly the runs in
which no removal halves the capacity of a vector to an odd number: there
every container denotes its list in every state (a vector with `is_packed`
reading 0) and every answer is the one the lists give. -/
theorem segmentChildren_refines_iff (memory : Seg → NrSegmentChildren Seg)
    (hmemory : ∀ s, (memory s).words.length = 8) (ops : List (ChildrenOp Seg)) :
    Refines execChildren replyChildren ListStep ChildrenSim (initialSegments memory)
        (fun _ => []) ops ↔
      Along execChildren KeepsTag (initialSegments memory) ops :=
  childrenRefines_iff_along (initialSegments_sim hmemory) ops

end

/-! ### A run that loses the tag

Five children are given to segment 0 and four to segment 1; moving the four
behind the five migrates a container of five to a vector of capacity ten.
Removing children until four are left halves it to five. -/

def addChildren (s : ℕ) (children : List ℕ) : List (ChildrenOp ℕ) :=
  children.map fun c => .add s (some c)

def oddShrinkRun : List (ChildrenOp ℕ) :=
  addChildren 0 [10, 11, 12, 13, 14] ++ addChildren 1 [15, 16, 17, 18] ++
    [.reparent 1 (some 0) (by decide)] ++
    [10, 11, 12, 13, 14].map fun c => .remove 0 (some c)

def zeroedMemory : ℕ → NrSegmentChildren ℕ :=
  fun _ => { header := 0, words := List.replicate 8 (.size 0) }

/-- Nine additions migrate a container to a vector and stay on the lists. -/
theorem segmentChildren_refines_nine_additions :
    Refines execChildren replyChildren ListStep ChildrenSim (initialSegments zeroedMemory)
      (fun _ => []) (addChildren 0 [1, 2, 3, 4, 5, 6, 7, 8, 9]) := by
  apply (segmentChildren_refines_iff zeroedMemory (fun _ => rfl) _).mpr
  simp [addChildren, Along, KeepsTag]

/-- After the run four of the nine children should be left, but the container
reads as packed, with two elements, the first of which is the vector's
`used`. -/
theorem segmentChildren_oddShrinkRun :
    let u := (runFrom execChildren (initialSegments zeroedMemory) oddShrinkRun 0).children
    (u.vector.used = 4 ∧ u.vector.elements.take 4 = [some 15, some 16, some 17, some 18]) ∧
      u.isPacked = true ∧ nrSegmentChildrenSize u = 2 ∧ nrSegmentChildrenGet u 0 = .size 4 ∧
      ¬ Refines execChildren replyChildren ListStep ChildrenSim (initialSegments zeroedMemory)
        (fun _ => []) oddShrinkRun := by
  refine ⟨by decide, by decide, by decide, by decide, ?_⟩
  rw [childrenRefines_iff_along (initialSegments_sim fun _ => rfl)]
  simp [oddShrinkRun, addChildren, Along, KeepsTag]
  decide

end AxiomDaemon.Axiom

import AxiomDaemon.Axiom.Segment
import AxiomDaemon.Lib.Traversal
import Mathlib.Data.List.ReduceOption

/-!
The iteration over segments with its colours, `nr_segment_iterate` of
`nr_segment.c`. What hangs below a segment may be any graph here: the
iteration does not rely on a tree, it goes on where it meets the colour that
the root had at first.

Callbacks work on the data of their caller. They neither colour segments nor
change the children of a segment the iteration has yet to look at.
-/

namespace AxiomDaemon.Axiom

open AxiomDaemon.Lib AxiomDaemon.Lib.Traversal

/-- `nr_segment_color_t`. -/
inductive NrSegmentColor
  | white
  | grey
  deriving DecidableEq

/-- `nr_segment_toggle_color`. -/
def nrSegmentToggleColor : NrSegmentColor → NrSegmentColor
  | .white => .grey
  | .grey => .white

/-- What the iteration changes: the colours and the data of the callbacks. The
calls that were made are kept by the model alone. -/
structure IterState (α σ : Type*) where
  color : α → NrSegmentColor
  userdata : σ
  calls : List (Call α)

/-- The children of the segments, where `α` is the type of pointers to segments
other than `NULL`. -/
structure SegmentGraph (α : Type*) where
  children : α → List (Option α)

namespace SegmentGraph

variable {α σ : Type*}

/-- The segments that are children of a segment. -/
def edges (graph : SegmentGraph α) (segment : α) : List α := (graph.children segment).reduceOption

/-- The callback is called on a segment. -/
def callCallback (callback : Callback α σ) (segment : α) (s : IterState α σ) :
    IterState α σ × Option (α → σ → σ) :=
  let (userdata, postCallback) := callback segment s.userdata
  ({ s with userdata, calls := s.calls ++ [.enter segment postCallback.isSome] }, postCallback)

/-- The post-callback is called, if there is one. -/
def callPostCallback (postCallback : Option (α → σ → σ)) (segment : α) (s : IterState α σ) :
    IterState α σ :=
  match postCallback with
  | none => s
  | some postCallback =>
      { s with
        userdata := postCallback segment s.userdata
        calls := s.calls ++ [.leave segment] }

section

variable [DecidableEq α] (graph : SegmentGraph α)

/-- `nr_segment_iterate_helper`. The fuel bounds how deep it is called; there is
no result where it does not suffice. -/
def nrSegmentIterateHelper (callback : Callback α σ) (resetColor setColor : NrSegmentColor) :
    (fuel : ℕ) → Option α → IterState α σ → Option (IterState α σ)
  | _, none, s => some s
  | 0, some _, _ => none
  | fuel + 1, some root, s =>
      if resetColor = s.color root then
        let s := { s with color := Function.update s.color root setColor }
        let (s, postCallback) := callCallback callback root s
        ((graph.children root).foldlM (fun s child =>
          nrSegmentIterateHelper callback resetColor setColor fuel child s) s).map
            (callPostCallback postCallback root)
      else some s

/-- `nr_segment_iterate`. -/
def nrSegmentIterate (callback : Option (Callback α σ)) (fuel : ℕ) (root : Option α)
    (s : IterState α σ) : Option (IterState α σ) :=
  match callback, root with
  | some callback, some root =>
      nrSegmentIterateHelper graph callback (s.color root) (nrSegmentToggleColor (s.color root))
        fuel (some root) s
  | _, _ => some s

end

/-! ### The iteration is a traversal -/

theorem nrSegmentToggleColor_ne (color : NrSegmentColor) : nrSegmentToggleColor color ≠ color := by
  cases color <;> decide

@[simp] theorem nrSegmentToggleColor_toggle (color : NrSegmentColor) :
    nrSegmentToggleColor (nrSegmentToggleColor color) = color := by
  cases color <;> rfl

section Helper

variable [DecidableEq α] (graph : SegmentGraph α) (callback : Callback α σ)
  {resetColor setColor : NrSegmentColor}

/-- The state after the segments of a forest were iterated over. -/
def iterated (setColor : NrSegmentColor) (f : Forest α) (s : IterState α σ) : IterState α σ where
  color := fun a => if a ∈ f.labels then setColor else s.color a
  userdata := (walkForest callback f s.userdata).1
  calls := s.calls ++ (walkForest callback f s.userdata).2

/-- Pointers that are `NULL` are passed over. -/
theorem foldlM_children (fuel : ℕ) (children : List (Option α)) (s : IterState α σ) :
    children.foldlM (fun s child =>
      nrSegmentIterateHelper graph callback resetColor setColor fuel child s) s =
    children.reduceOption.foldlM (fun s child =>
      nrSegmentIterateHelper graph callback resetColor setColor fuel (some child) s) s := by
  induction children generalizing s with
  | nil => rfl
  | cons child children ih =>
      cases child with
      | none =>
          have hnull : nrSegmentIterateHelper graph callback resetColor setColor fuel none s =
              some s := by
            cases fuel <;> rfl
          rw [List.foldlM_cons, hnull, List.reduceOption_cons_of_none]
          exact ih s
      | some child =>
          rw [List.foldlM_cons, List.reduceOption_cons_of_some, List.foldlM_cons]
          exact congrArg _ (funext fun s' => ih s')

/-- The state in which the children of a segment are iterated over. -/
def entered (setColor : NrSegmentColor) (segment : α) (s : IterState α σ) : IterState α σ :=
  (callCallback callback segment
    { s with color := Function.update s.color segment setColor }).1

/-- The state after the children of a segment and its post-callback. -/
def left (setColor : NrSegmentColor) (segment : α) (f : Forest α) (s : IterState α σ) :
    IterState α σ :=
  callPostCallback (callback segment s.userdata).2 segment
    (iterated callback setColor f (entered callback setColor segment s))

omit [DecidableEq α] in
theorem callPostCallback_eq (postCallback : Option (α → σ → σ)) (segment : α)
    (s : IterState α σ) :
    callPostCallback postCallback segment s =
      { color := s.color
        userdata := (leaveNode segment postCallback s.userdata).1
        calls := s.calls ++ (leaveNode segment postCallback s.userdata).2 } := by
  cases postCallback with
  | none => simp [callPostCallback, leaveNode]
  | some postCallback => rfl

theorem iterated_node (setColor : NrSegmentColor) (v : α) (f g : Forest α) (s : IterState α σ) :
    iterated callback setColor (.node v f g) s =
      iterated callback setColor g (left callback setColor v f s) := by
  have hcolor : (iterated callback setColor (.node v f g) s).color =
      (iterated callback setColor g (left callback setColor v f s)).color := by
    funext a
    simp only [iterated, left, entered, callCallback, callPostCallback_eq, Forest.labels_node,
      List.mem_cons, List.mem_append, Function.update_apply]
    split_ifs <;> tauto
  have hcalls : (iterated callback setColor (.node v f g) s).calls =
      (iterated callback setColor g (left callback setColor v f s)).calls := by
    simp [iterated, left, entered, callCallback, callPostCallback_eq, walkForest]
  have huserdata : (iterated callback setColor (.node v f g) s).userdata =
      (iterated callback setColor g (left callback setColor v f s)).userdata := by
    simp [iterated, left, entered, callCallback, callPostCallback_eq, walkForest]
  rw [IterState.mk.injEq]
  exact ⟨hcolor, huserdata, hcalls⟩

/-- The segments that do not have the first colour any more are those that are
done. Every call below a segment has one segment less to go. -/
theorem helper_of_spans (hcolors : setColor ≠ resetColor) {done done' : Set α} {vs : List α}
    {f : Forest α} (h : Spans graph.edges done vs f done') {s : IterState α σ}
    (hdone : ∀ a, a ∈ done ↔ s.color a ≠ resetColor) {fuel : ℕ} (hfuel : f.labels.length < fuel) :
    vs.foldlM (fun s child =>
      nrSegmentIterateHelper graph callback resetColor setColor fuel (some child) s) s =
        some (iterated callback setColor f s) := by
  induction h generalizing s fuel with
  | nil done => simp [iterated, walkForest]
  | @skip done done' v vs f hentered rest ih =>
      obtain ⟨fuel, rfl⟩ : ∃ n, fuel = n + 1 := ⟨fuel - 1, by omega⟩
      have hpass : nrSegmentIterateHelper graph callback resetColor setColor (fuel + 1) (some v) s =
          some s := if_neg ((hdone v).mp hentered).symm
      rw [List.foldlM_cons, hpass]
      exact ih hdone hfuel
  | @enter done inner done' v vs f g fresh below rest ihBelow ihRest =>
      rw [Forest.labels_node, List.length_cons, List.length_append] at hfuel
      obtain ⟨fuel, rfl⟩ : ∃ n, fuel = n + 1 := ⟨fuel - 1, by omega⟩
      have hreset : resetColor = s.color v := by
        by_contra hne
        exact fresh ((hdone v).mpr (Ne.symm hne))
      have hdoneBelow : ∀ a, a ∈ insert v done ↔
          (entered callback setColor v s).color a ≠ resetColor := by
        intro a
        rw [Set.mem_insert_iff, hdone]
        by_cases heq : a = v
        · simp [entered, callCallback, heq, hcolors]
        · simp [entered, callCallback, heq]
      have hfuelBelow : f.labels.length < fuel := by omega
      have hbelow := ihBelow hdoneBelow hfuelBelow
      have hhelper : nrSegmentIterateHelper graph callback resetColor setColor (fuel + 1) (some v)
          s = some (left callback setColor v f s) := by
        rw [nrSegmentIterateHelper, if_pos hreset]
        simp only [callCallback]
        rw [foldlM_children]
        exact congrArg _ hbelow
      have hdoneRest : ∀ a, a ∈ inner ↔ (left callback setColor v f s).color a ≠ resetColor := by
        intro a
        rw [below.mem_done, left, callPostCallback_eq, iterated]
        by_cases hmem : a ∈ f.labels
        · simp [hmem, hcolors]
        · simp only [hmem, or_false, if_false]
          exact hdoneBelow a
      rw [List.foldlM_cons, hhelper, iterated_node]
      exact ihRest hdoneRest (by omega)

theorem nrSegmentIterate_of_spans {root : α} {f : Forest α} {done' : Set α} {s : IterState α σ}
    (h : Spans graph.edges {a | s.color a ≠ s.color root} [root] f done') {fuel : ℕ}
    (hfuel : f.labels.length < fuel) :
    nrSegmentIterate graph (some callback) fuel (some root) s =
      some (iterated callback (nrSegmentToggleColor (s.color root)) f s) := by
  have hfold := helper_of_spans graph callback (nrSegmentToggleColor_ne (s.color root)) h
    (fun _ => Iff.rfl) hfuel
  rw [List.foldlM_cons] at hfold
  simpa [nrSegmentIterate] using hfold

end Helper

/-! ### Every segment once -/

/-- What one iteration does: the calls of a traversal from the root, after which
the segments that are found from it have the other colour. -/
structure IteratesOnce (graph : SegmentGraph α) [DecidableEq α] (root : α) (color : NrSegmentColor)
    (s s' : IterState α σ) : Prop where
  calls : ∃ calls, s'.calls = s.calls ++ calls ∧ Traverses graph.edges root calls
  recolored : ∀ a, Reaches graph.edges root a → s'.color a = nrSegmentToggleColor color
  others : ∀ a, ¬ Reaches graph.edges root a → s'.color a = s.color a

section Once

variable [DecidableEq α] {graph : SegmentGraph α} {root : α} {f : Forest α}

theorem length_labels (hdistinct : f.labels.Nodup)
    (hlabels : ∀ a, a ∈ f.labels ↔ Reaches graph.edges root a) :
    f.labels.length = {a | Reaches graph.edges root a}.ncard := by
  have hset : {a | Reaches graph.edges root a} = ↑f.labels.toFinset := by
    ext a
    simp [hlabels]
  rw [hset, Set.ncard_coe_finset, List.toFinset_card_of_nodup hdistinct]

omit [DecidableEq α] in
/-- An iteration enters the segments in the same order whichever colour they
have. -/
theorem exists_forest (hfin : {a | Reaches graph.edges root a}.Finite) :
    ∃ f : Forest α, f.labels.Nodup ∧ (∀ a, a ∈ f.labels ↔ Reaches graph.edges root a) ∧
      ∀ done : Set α, (∀ a, Reaches graph.edges root a → a ∉ done) →
        ∃ done', Spans graph.edges done [root] f done' := by
  obtain ⟨f, done', h⟩ := exists_spans_of_finite hfin ∅
  refine ⟨f, h.nodup, h.mem_labels_iff fun a _ => Set.notMem_empty a, fun done hfresh => ?_⟩
  obtain ⟨f₂, done₂', h₂⟩ := exists_spans_of_finite hfin done
  have heq : f₂ = f := h₂.unique h fun v hv a hreach => by
    rw [List.mem_singleton.mp hv] at hreach
    exact iff_of_false (hfresh a hreach) (Set.notMem_empty a)
  exact ⟨done₂', heq ▸ h₂⟩

/-- An iteration over a finite graph of one colour ends, visits every segment
once, and leaves a graph of the other colour, in which the next one does the
same and restores the colours. -/
theorem nrSegmentIterate_visits_once (graph : SegmentGraph α) (root : α)
    (hfin : {a | Reaches graph.edges root a}.Finite) (color : NrSegmentColor)
    (s : IterState α σ) (hcolor : ∀ a, Reaches graph.edges root a → s.color a = color)
    (callback : Callback α σ) :
    ∃ s', (∀ fuel, {a | Reaches graph.edges root a}.ncard < fuel →
        nrSegmentIterate graph (some callback) fuel (some root) s = some s') ∧
      IteratesOnce graph root color s s' ∧
      ∀ (callback' : Callback α σ) (userdata : σ), ∃ s₁ s₂ : IterState α σ,
        (∀ fuel, {a | Reaches graph.edges root a}.ncard < fuel →
          nrSegmentIterate graph (some callback') fuel (some root)
              { s with userdata := userdata } = some s₁ ∧
          nrSegmentIterate graph (some callback') fuel (some root)
              { s' with userdata := userdata, calls := s.calls } = some s₂) ∧
        s₂.userdata = s₁.userdata ∧ s₂.calls = s₁.calls ∧ s₂.color = s.color := by
  obtain ⟨f, hdistinct, hlabels, hspans⟩ := exists_forest hfin
  have hlength := length_labels hdistinct hlabels
  have hroot : s.color root = color := hcolor root .refl
  -- an iteration from a state whose graph has one colour
  have hiterate : ∀ (callback : Callback α σ) (t : IterState α σ),
      (∀ a, Reaches graph.edges root a → t.color a = t.color root) → ∀ fuel,
      {a | Reaches graph.edges root a}.ncard < fuel →
        nrSegmentIterate graph (some callback) fuel (some root) t =
          some (iterated callback (nrSegmentToggleColor (t.color root)) f t) := by
    intro callback t ht fuel hfuel
    obtain ⟨done', h⟩ := hspans {a | t.color a ≠ t.color root} fun a ha hdone => hdone (ht a ha)
    exact nrSegmentIterate_of_spans graph callback h (hlength ▸ hfuel)
  have huniform : ∀ a, Reaches graph.edges root a → s.color a = s.color root :=
    fun a ha => (hcolor a ha).trans hroot.symm
  have hafter : ∀ a, (iterated callback (nrSegmentToggleColor color) f s).color a =
      if a ∈ f.labels then nrSegmentToggleColor color else s.color a := fun _ => rfl
  have hrecolored : ∀ a, Reaches graph.edges root a →
      (iterated callback (nrSegmentToggleColor color) f s).color a =
        nrSegmentToggleColor color :=
    fun a ha => (hafter a).trans (if_pos ((hlabels a).mpr ha))
  refine ⟨iterated callback (nrSegmentToggleColor color) f s,
    fun fuel hfuel => hroot ▸ hiterate callback s huniform fuel hfuel, ⟨?_, hrecolored, ?_⟩, ?_⟩
  · obtain ⟨done', h⟩ := hspans ∅ fun a _ => Set.notMem_empty a
    exact ⟨_, rfl, h.traverses callback (fun a _ => Set.notMem_empty a) s.userdata⟩
  · exact fun a ha => (hafter a).trans (if_neg (mt (hlabels a).mp ha))
  · intro callback' userdata
    have hagain : ∀ a, Reaches graph.edges root a →
        (iterated callback (nrSegmentToggleColor color) f s).color a =
          (iterated callback (nrSegmentToggleColor color) f s).color root :=
      fun a ha => (hrecolored a ha).trans (hrecolored root .refl).symm
    refine ⟨_, _, fun fuel hfuel => ⟨
      hiterate callback' { s with userdata := userdata } huniform fuel hfuel,
      hiterate callback' { iterated callback (nrSegmentToggleColor color) f s with
        userdata := userdata, calls := s.calls } hagain fuel hfuel⟩, rfl, rfl, ?_⟩
    funext a
    simp only [iterated]
    split_ifs with hmem hrootMem
    · rw [nrSegmentToggleColor_toggle, hcolor a ((hlabels a).mp hmem)]
    · exact absurd ((hlabels root).mpr .refl) hrootMem
    · rfl

/-- Three segments, each of which is below the others. -/
def tangled : SegmentGraph (Fin 3) where
  children
    | 0 => [some 1, some 2]
    | 1 => [some 2, none, some 0]
    | 2 => [some 0, some 2]

theorem nrSegmentIterate_visits_tangled :
    {a | Reaches tangled.edges 0 a}.Finite ∧
      (∀ a, Reaches tangled.edges 0 a → (fun _ => NrSegmentColor.white : Fin 3 → _) a = .white) ∧
      ∃ s', (∀ fuel, {a | Reaches tangled.edges 0 a}.ncard < fuel →
        nrSegmentIterate tangled (some fun _ n => (n + 1, none)) fuel (some 0)
          { color := fun _ => .white, userdata := 0, calls := [] } = some s') ∧
        IteratesOnce tangled 0 .white { color := fun _ => .white, userdata := 0, calls := [] } s' := by
  have hfin : {a | Reaches tangled.edges 0 a}.Finite := Set.toFinite _
  obtain ⟨s', hruns, honce, -⟩ := nrSegmentIterate_visits_once tangled 0 hfin .white
    { color := fun _ => .white, userdata := (0 : ℕ), calls := [] } (fun _ _ => rfl)
    fun _ n => (n + 1, none)
  exact ⟨hfin, fun _ _ => rfl, s', hruns, honce⟩

example : (nrSegmentIterate tangled (some fun _ n => (n + 1, some fun _ n => n)) 4 (some 0)
    { color := fun _ => .white, userdata := 0, calls := [] }).map
      (fun s => (s.userdata, s.calls)) =
    some (3, [.enter 0 true, .enter 1 true, .enter 2 true, .leave 2, .leave 1, .leave 0]) := by
  decide

end Once

end SegmentGraph

end AxiomDaemon.Axiom

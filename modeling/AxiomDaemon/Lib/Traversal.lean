import AxiomDaemon.Lib.Forest
import Mathlib.Data.Set.Card
import Mathlib.Logic.Relation

/-!
Depth-first traversal of a graph in which nodes that were entered before are
not entered again. Nodes may be shared and there may be cycles: what bounds
the traversal is the number of nodes that were not entered yet.

The traversal of a graph is the walk of a forest that spans what it enters.
Callbacks are called on entering a node and, where one was registered then, on
leaving it; the calls are told from the forest alone.
-/

namespace AxiomDaemon.Lib

namespace Traversal

variable {α σ : Type*}

/-- The second node is found from the first one along the edges. -/
def Reaches (children : α → List α) : α → α → Prop :=
  Relation.ReflTransGen fun p c => c ∈ children p

/-- The traversal of nodes one after the other, with the nodes that are done
before and after it, and the forest of those it enters. -/
inductive Spans (children : α → List α) : Set α → List α → Forest α → Set α → Prop
  | nil (done : Set α) : Spans children done [] .nil done
  | skip {done done' : Set α} {v : α} {vs : List α} {f : Forest α} (entered : v ∈ done)
      (rest : Spans children done vs f done') : Spans children done (v :: vs) f done'
  | enter {done inner done' : Set α} {v : α} {vs : List α} {f g : Forest α} (fresh : v ∉ done)
      (below : Spans children (insert v done) (children v) f inner)
      (rest : Spans children inner vs g done') : Spans children done (v :: vs) (.node v f g) done'

/-! ### What is entered -/

section Spans

variable {children : α → List α} {done done' : Set α} {vs : List α} {f : Forest α}

/-- What was done stays done, and the nodes of the forest are added. -/
theorem Spans.mem_done (h : Spans children done vs f done') (a : α) :
    a ∈ done' ↔ a ∈ done ∨ a ∈ f.labels := by
  induction h with
  | nil done => simp
  | skip _ _ ih => exact ih
  | enter _ _ _ ihBelow ihRest =>
      rw [ihRest, ihBelow, Set.mem_insert_iff, Forest.labels_node, List.mem_cons,
        List.mem_append]
      tauto

theorem Spans.notMem_done (h : Spans children done vs f done') {a : α} (ha : a ∈ f.labels) :
    a ∉ done := by
  induction h with
  | nil done => simp at ha
  | skip _ _ ih => exact ih ha
  | @enter done inner done' v vs f g fresh below rest ihBelow ihRest =>
      rw [Forest.labels_node, List.mem_cons, List.mem_append] at ha
      rcases ha with rfl | hbelow | hrest
      · exact fresh
      · exact fun hdone => ihBelow hbelow (Set.mem_insert_of_mem _ hdone)
      · exact fun hdone =>
          ihRest hrest ((below.mem_done a).mpr (.inl (Set.mem_insert_of_mem _ hdone)))

theorem Spans.nodup (h : Spans children done vs f done') : f.labels.Nodup := by
  induction h with
  | nil done => exact List.nodup_nil
  | skip _ _ ih => exact ih
  | @enter done inner done' v vs f g fresh below rest ihBelow ihRest =>
      rw [Forest.labels_node, List.nodup_cons, List.nodup_append]
      refine ⟨fun hmem => ?_, ihBelow, ihRest, ?_⟩
      · rcases List.mem_append.mp hmem with hbelow | hrest
        · exact below.notMem_done hbelow (Set.mem_insert v done)
        · exact rest.notMem_done hrest ((below.mem_done v).mpr (.inl (Set.mem_insert v done)))
      · rintro a hbelow b hrest rfl
        exact rest.notMem_done hrest ((below.mem_done a).mpr (.inr hbelow))

theorem Spans.reached (h : Spans children done vs f done') {a : α} (ha : a ∈ f.labels) :
    ∃ v ∈ vs, Reaches children v a := by
  induction h with
  | nil done => simp at ha
  | skip _ _ ih =>
      obtain ⟨v, hv, hreach⟩ := ih ha
      exact ⟨v, List.mem_cons_of_mem _ hv, hreach⟩
  | @enter done inner done' v vs f g fresh below rest ihBelow ihRest =>
      rw [Forest.labels_node, List.mem_cons, List.mem_append] at ha
      rcases ha with rfl | hbelow | hrest
      · exact ⟨a, List.mem_cons_self, .refl⟩
      · obtain ⟨c, hc, hreach⟩ := ihBelow hbelow
        exact ⟨v, List.mem_cons_self, .head hc hreach⟩
      · obtain ⟨w, hw, hreach⟩ := ihRest hrest
        exact ⟨w, List.mem_cons_of_mem _ hw, hreach⟩

theorem Spans.all_done (h : Spans children done vs f done') : ∀ v ∈ vs, v ∈ done' := by
  induction h with
  | nil done => simp
  | @skip done done' v vs f entered rest ih =>
      rw [List.forall_mem_cons]
      exact ⟨(rest.mem_done v).mpr (.inl entered), ih⟩
  | @enter done inner done' v vs f g fresh below rest ihBelow ihRest =>
      rw [List.forall_mem_cons]
      refine ⟨(rest.mem_done v).mpr (.inl ?_), ihRest⟩
      exact (below.mem_done v).mpr (.inl (Set.mem_insert v done))

theorem Spans.closed (h : Spans children done vs f done') {a : α} (ha : a ∈ f.labels) :
    ∀ c ∈ children a, c ∈ done' := by
  induction h with
  | nil done => simp at ha
  | skip _ _ ih => exact ih ha
  | @enter done inner done' v vs f g fresh below rest ihBelow ihRest =>
      rw [Forest.labels_node, List.mem_cons, List.mem_append] at ha
      rcases ha with rfl | hbelow | hrest
      · exact fun c hc => (rest.mem_done c).mpr (.inl (below.all_done c hc))
      · exact fun c hc => (rest.mem_done c).mpr (.inl (ihBelow hbelow c hc))
      · exact ihRest hrest

/-- A traversal that starts at one node, with nothing that is found from it done
yet, enters what is found from it. -/
theorem Spans.mem_labels_iff {root : α} (h : Spans children done [root] f done')
    (hfresh : ∀ a, Reaches children root a → a ∉ done) (a : α) :
    a ∈ f.labels ↔ Reaches children root a := by
  constructor
  · intro ha
    obtain ⟨v, hv, hreach⟩ := h.reached ha
    rwa [List.mem_singleton.mp hv] at hreach
  · intro hreach
    induction hreach with
    | refl =>
        have hdone := (h.mem_done root).mp (h.all_done root (List.mem_singleton_self root))
        exact hdone.resolve_left (hfresh root .refl)
    | @tail b c hb hc ih =>
        have hdone := (h.mem_done c).mp (h.closed ih c hc)
        exact hdone.resolve_left (hfresh c (hb.tail hc))

/-- The forest depends on what is done as far as it is found from the nodes. -/
theorem Spans.unique (h : Spans children done vs f done') {done₂ done₂' : Set α} {f₂ : Forest α}
    (h₂ : Spans children done₂ vs f₂ done₂')
    (hsame : ∀ v ∈ vs, ∀ a, Reaches children v a → (a ∈ done ↔ a ∈ done₂)) : f = f₂ := by
  induction h generalizing done₂ done₂' f₂ with
  | nil done =>
      cases h₂
      rfl
  | @skip done done' v vs f entered rest ih =>
      have hrest : ∀ w ∈ vs, ∀ a, Reaches children w a → (a ∈ done ↔ a ∈ done₂) :=
        fun w hw => hsame w (List.mem_cons_of_mem _ hw)
      have hv := hsame v List.mem_cons_self v .refl
      cases h₂ with
      | skip _ rest₂ => exact ih rest₂ hrest
      | enter fresh₂ _ _ => exact absurd (hv.mp entered) fresh₂
  | @enter done inner done' v vs f g fresh below rest ihBelow ihRest =>
      have hv := hsame v List.mem_cons_self v .refl
      cases h₂ with
      | skip entered₂ _ => exact absurd (hv.mpr entered₂) fresh
      | @enter _ inner₂ _ _ _ f₂ g₂ fresh₂ below₂ rest₂ =>
          have hbelow : f = f₂ := by
            refine ihBelow below₂ fun c hc a hreach => ?_
            rw [Set.mem_insert_iff, Set.mem_insert_iff,
              hsame v List.mem_cons_self a (.head hc hreach)]
          subst hbelow
          have hrest : g = g₂ := by
            refine ihRest rest₂ fun w hw a hreach => ?_
            rw [below.mem_done, below₂.mem_done, Set.mem_insert_iff, Set.mem_insert_iff,
              hsame w (List.mem_cons_of_mem _ hw) a hreach]
          rw [hrest]

/-! ### Termination -/

/-- Within a finite part of the graph that is closed under edges every traversal
ends. The induction is on the number of nodes that are not done. -/
theorem exists_spans {part : Set α} (hfin : part.Finite)
    (hclosed : ∀ a ∈ part, ∀ c ∈ children a, c ∈ part) (done : Set α) {vs : List α}
    (hvs : ∀ v ∈ vs, v ∈ part) : ∃ f done', Spans children done vs f done' := by
  obtain ⟨n, hn⟩ : ∃ n, (part \ done).ncard ≤ n := ⟨_, le_refl _⟩
  induction n generalizing done vs with
  | zero =>
      have hall : ∀ a ∈ part, a ∈ done := by
        have hempty := (Set.ncard_eq_zero (hfin.sdiff)).mp (Nat.le_zero.mp hn)
        exact Set.sdiff_eq_empty.mp hempty
      induction vs with
      | nil => exact ⟨_, _, .nil done⟩
      | cons v vs ih =>
          obtain ⟨f, done', h⟩ := ih fun w hw => hvs w (List.mem_cons_of_mem _ hw)
          exact ⟨f, done', .skip (hall v (hvs v List.mem_cons_self)) h⟩
  | succ n ihCard =>
      induction vs generalizing done with
      | nil => exact ⟨_, _, .nil done⟩
      | cons v vs ihList =>
          have hrest : ∀ w ∈ vs, w ∈ part := fun w hw => hvs w (List.mem_cons_of_mem _ hw)
          have hv := hvs v List.mem_cons_self
          by_cases hentered : v ∈ done
          · obtain ⟨f, done', h⟩ := ihList done hrest hn
            exact ⟨f, done', .skip hentered h⟩
          · have hfewer : (part \ insert v done).ncard < (part \ done).ncard := by
              refine Set.ncard_lt_ncard ⟨?_, fun hsub => ?_⟩ hfin.sdiff
              · exact Set.sdiff_subset_sdiff_right (Set.subset_insert v done)
              · exact (hsub ⟨hv, hentered⟩).2 (Set.mem_insert v done)
            obtain ⟨f, inner, below⟩ := ihCard (insert v done) (hclosed v hv) (by omega)
            have hsub : done ⊆ inner := fun a ha =>
              (below.mem_done a).mpr (.inl (Set.mem_insert_of_mem _ ha))
            have hle := Set.ncard_le_ncard (Set.sdiff_subset_sdiff_right (s := part) hsub) hfin.sdiff
            obtain ⟨g, done', rest⟩ := ihList inner hrest (by omega)
            exact ⟨_, done', .enter hentered below rest⟩

theorem exists_spans_of_finite {root : α} (hfin : {a | Reaches children root a}.Finite)
    (done : Set α) : ∃ f done', Spans children done [root] f done' := by
  refine exists_spans hfin (fun a ha c hc => ?_) done fun v hv => ?_
  · exact Relation.ReflTransGen.tail ha hc
  · rw [List.mem_singleton.mp hv]
    exact Relation.ReflTransGen.refl

end Spans

/-! ### Calls -/

/-- A call on entering a node, which registers one on leaving it or not, and a
call on leaving it. -/
inductive Call (α : Type*)
  | enter (a : α) (registered : Bool)
  | leave (a : α)
  deriving DecidableEq

/-- The node that is entered. -/
def Call.entered : Call α → Option α
  | .enter a _ => some a
  | .leave _ => none

theorem Call.entered_enter (a : α) (registered : Bool) :
    (Call.enter a registered).entered = some a := rfl

/-- What a callback on entering a node does, and the callback on leaving it. -/
abbrev Callback (α σ : Type*) := α → σ → σ × Option (α → σ → σ)

/-- The callback on leaving a node, if it was registered. -/
def leaveNode (a : α) (post : Option (α → σ → σ)) (s : σ) : σ × List (Call α) :=
  match post with
  | none => (s, [])
  | some post => (post a s, [.leave a])

/-- The walk of a forest with a callback: the state afterwards and the calls. -/
def walkForest (callback : Callback α σ) : Forest α → σ → σ × List (Call α)
  | .nil, s => (s, [])
  | .node a children rest, s =>
      let entered := callback a s
      let below := walkForest callback children entered.1
      let left := leaveNode a entered.2 below.1
      let after := walkForest callback rest left.1
      (after.1, .enter a entered.2.isSome :: (below.2 ++ left.2 ++ after.2))

section Calls

variable (callback : Callback α σ)

theorem entered_leaveNode (a : α) (post : Option (α → σ → σ)) (s : σ) :
    (leaveNode a post s).2.filterMap Call.entered = [] := by
  cases post <;> rfl

theorem entered_walkForest (f : Forest α) (s : σ) :
    (walkForest callback f s).2.filterMap Call.entered = f.labels := by
  induction f generalizing s with
  | nil => rfl
  | node a children rest ihChildren ihRest =>
      simp only [walkForest]
      rw [List.filterMap_cons_some (Call.entered_enter a _), List.filterMap_append,
        List.filterMap_append, ihChildren, ihRest, entered_leaveNode, List.append_nil,
        Forest.labels_node]

theorem exists_enter_iff {calls : List (Call α)} {a : α} :
    (∃ registered, Call.enter a registered ∈ calls) ↔ a ∈ calls.filterMap Call.entered := by
  rw [List.mem_filterMap]
  constructor
  · rintro ⟨registered, hmem⟩
    exact ⟨_, hmem, rfl⟩
  · rintro ⟨call, hmem, hentered⟩
    cases call with
    | enter b registered =>
        obtain rfl := Option.some.inj hentered
        exact ⟨registered, hmem⟩
    | leave b => exact absurd hentered (by simp [Call.entered])

variable [DecidableEq α]

/-- Every call on leaving a node was registered, and those that were registered
are made. -/
def Matched (calls : List (Call α)) : Prop :=
  ∀ a, calls.count (.leave a) = calls.count (.enter a true)

theorem Matched.append {calls calls' : List (Call α)} (h : Matched calls) (h' : Matched calls') :
    Matched (calls ++ calls') := by
  intro a
  rw [List.count_append, List.count_append, h a, h' a]

theorem matched_node (a : α) (post : Option (α → σ → σ)) (s : σ) {below : List (Call α)}
    (h : Matched below) : Matched (.enter a post.isSome :: (below ++ (leaveNode a post s).2)) := by
  intro b
  have hb := h b
  cases post with
  | none => simp [leaveNode, hb]
  | some post =>
      by_cases heq : a = b
      · subst heq
        simp [leaveNode, hb]
      · simp [leaveNode, hb, heq]

theorem matched_walkForest (f : Forest α) (s : σ) : Matched (walkForest callback f s).2 := by
  induction f generalizing s with
  | nil => exact fun _ => rfl
  | node a children rest ihChildren ihRest =>
      simp only [walkForest]
      rw [← List.cons_append]
      exact (matched_node a _ _ (ihChildren _)).append (ihRest _)

/-- The calls for a node: what comes before, the call on entering it, the calls
for the nodes first met below it, the call on leaving it, and what comes after.
All children of the node were entered when it is left. -/
structure Nested (children : α → List α) (done : Set α) (calls : List (Call α)) (a : α) : Prop where
  around : ∃ before registered below after,
    calls = before ++ .enter a registered ::
      (below ++ (if registered then [.leave a] else []) ++ after) ∧ Matched below ∧
    ∀ c ∈ children a, c ∈ done ∨
      ∃ r, Call.enter c r ∈ before ++ .enter a registered :: below

omit [DecidableEq α] in
theorem leaveNode_calls (a : α) (post : Option (α → σ → σ)) (s : σ) :
    (leaveNode a post s).2 = if post.isSome then [.leave a] else [] := by
  cases post <;> rfl

theorem Nested.extend {children : α → List α} {done done' : Set α} {calls calls' : List (Call α)}
    {a : α} (h : Nested children done' calls a) (pre post : List (Call α))
    (hcalls : calls' = pre ++ (calls ++ post))
    (hdone : ∀ c ∈ done', c ∈ done ∨ ∃ r, Call.enter c r ∈ pre) :
    Nested children done calls' a := by
  obtain ⟨before, registered, below, after, rfl, hmatched, hchildren⟩ := h.around
  refine ⟨pre ++ before, registered, below, after ++ post, by simp [hcalls], hmatched,
    fun c hc => ?_⟩
  rcases hchildren c hc with hold | ⟨r, hr⟩
  · refine (hdone c hold).imp_right fun ⟨r, hr⟩ => ⟨r, ?_⟩
    exact List.mem_append_left _ (List.mem_append_left _ hr)
  · refine .inr ⟨r, ?_⟩
    rw [List.append_assoc]
    exact List.mem_append_right _ hr

theorem Spans.nested {children : α → List α} {done done' : Set α} {vs : List α} {f : Forest α}
    (h : Spans children done vs f done') (s : σ) {a : α} (ha : a ∈ f.labels) :
    Nested children done (walkForest callback f s).2 a := by
  induction h generalizing s with
  | nil done => simp at ha
  | skip _ _ ih => exact ih s ha
  | @enter done inner done' v vs f g fresh below rest ihBelow ihRest =>
      have hinner : ∀ c ∈ inner, c ∈ insert v done ∨
          ∃ r, Call.enter c r ∈ (walkForest callback f (callback v s).1).2 := by
        intro c hc
        refine ((below.mem_done c).mp hc).imp_right fun hmem => ?_
        rw [exists_enter_iff, entered_walkForest]
        exact hmem
      simp only [walkForest]
      rw [Forest.labels_node, List.mem_cons, List.mem_append] at ha
      rcases ha with rfl | hbelow | hrest
      · refine ⟨[], _, _, _, by rw [leaveNode_calls]; rfl, matched_walkForest callback f _,
          fun c hc => ?_⟩
        rcases hinner c (below.all_done c hc) with hold | ⟨r, hr⟩
        · rcases Set.mem_insert_iff.mp hold with rfl | hdone
          · exact .inr ⟨_, List.mem_cons_self⟩
          · exact .inl hdone
        · exact .inr ⟨r, List.mem_cons_of_mem _ hr⟩
      · refine (ihBelow (callback v s).1 hbelow).extend [.enter v (callback v s).2.isSome] _
          (by rw [List.append_assoc]; rfl) fun c hc => ?_
        rcases Set.mem_insert_iff.mp hc with rfl | hdone
        · exact .inr ⟨_, List.mem_cons_self⟩
        · exact .inl hdone
      · refine (ihRest _ hrest).extend
          (.enter v (callback v s).2.isSome :: ((walkForest callback f (callback v s).1).2 ++
            (leaveNode v (callback v s).2 (walkForest callback f (callback v s).1).1).2)) []
          (by rw [List.append_nil]; rfl) fun c hc => ?_
        rcases hinner c hc with hold | ⟨r, hr⟩
        · rcases Set.mem_insert_iff.mp hold with rfl | hdone
          · exact .inr ⟨_, List.mem_cons_self⟩
          · exact .inl hdone
        · exact .inr ⟨r, List.mem_cons_of_mem _ (List.mem_append_left _ hr)⟩

/-- The calls of a traversal that starts at one node: every node that is found
from it is entered once, the calls that were registered are made once, and those
of a node enclose those of the nodes first met below it. -/
structure Traverses (children : α → List α) (root : α) (calls : List (Call α)) : Prop where
  enters : ∀ a, Reaches children root a → (calls.filterMap Call.entered).count a = 1
  entersOnly : ∀ a, a ∈ calls.filterMap Call.entered → Reaches children root a
  matched : Matched calls
  nested : ∀ a, Reaches children root a → Nested children ∅ calls a

theorem Spans.traverses {children : α → List α} {done done' : Set α} {root : α} {f : Forest α}
    (h : Spans children done [root] f done') (hfresh : ∀ a, Reaches children root a → a ∉ done)
    (s : σ) : Traverses children root (walkForest callback f s).2 where
  enters a hreach := by
    rw [entered_walkForest]
    exact List.count_eq_one_of_mem h.nodup ((h.mem_labels_iff hfresh a).mpr hreach)
  entersOnly a hmem := by
    rw [entered_walkForest] at hmem
    exact (h.mem_labels_iff hfresh a).mp hmem
  matched := matched_walkForest callback f s
  nested a hreach := by
    have hnested := h.nested callback s ((h.mem_labels_iff hfresh a).mpr hreach)
    obtain ⟨before, registered, below, after, hcalls, hmatched, hchildren⟩ := hnested.around
    refine ⟨before, registered, below, after, hcalls, hmatched, fun c hc => ?_⟩
    exact .inr ((hchildren c hc).resolve_left (hfresh c (hreach.tail hc)))

end Calls

end Traversal

end AxiomDaemon.Lib

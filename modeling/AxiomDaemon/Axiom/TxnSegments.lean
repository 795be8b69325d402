import AxiomDaemon.Axiom.ExclusiveTime
import AxiomDaemon.Lib.LinkedForest

/-!
The segments of a transaction while it is running, `nr_segment.c` with what
`nr_txn.c` and `nr_segment_external.c` do to the tree: a segment is started,
timed, moved, ended, discarded and rolled up.

Segments come from a slab and are numbered in the order in which they are
started; memory is taken not to run out, and nothing goes back to the slab.
Metrics and attributes are left out, they do not touch the tree. Times are only
compared and subtracted under a guard. Asynchronous contexts and names are the
indices that the string pool has for them.
-/

namespace AxiomDaemon.Axiom

open AxiomDaemon.Lib

/-- The constants of `nr_segment_type_t`. -/
inductive SegmentTag
  | custom
  | datastore
  | external
  deriving DecidableEq

/-- `nr_segment_t`, while the transaction runs. -/
structure TxnSegment where
  tag : SegmentTag
  startTime : ℕ
  stopTime : ℕ
  name : ℕ
  asyncContext : ℕ
  parent : Option ℕ
  children : List ℕ
  deriving DecidableEq

/-- Memory of the slab that was not used before. -/
def TxnSegment.zero : TxnSegment :=
  { tag := .custom, startTime := 0, stopTime := 0, name := 0, asyncContext := 0, parent := none
    children := [] }

/-- What the functions on segments read and write of `nrtxn_t`. `used` segments
came from the slab. The keys of the hash map of parent stacks are kept apart
from the stacks; stacks have their top in front. -/
structure SegmentTxn where
  recording : Bool
  ignore : Bool
  complete : Bool
  absStartTime : ℕ
  segment : ℕ → TxnSegment
  used : ℕ
  segmentRoot : ℕ
  segmentCount : ℤ
  defaultParentStack : List ℕ
  parentStacks : ℕ → List ℕ
  parentStackKeys : List ℕ

namespace SegmentTxn

def modify (txn : SegmentTxn) (segment : ℕ) (f : TxnSegment → TxnSegment) : SegmentTxn :=
  { txn with segment := Function.update txn.segment segment (f (txn.segment segment)) }

/-- The stack of an asynchronous context; 0 stands for the main context. -/
def stack (txn : SegmentTxn) (context : ℕ) : List ℕ :=
  if context = 0 then txn.defaultParentStack else txn.parentStacks context

def setStack (txn : SegmentTxn) (context : ℕ) (stack : List ℕ) : SegmentTxn :=
  { txn with
    defaultParentStack := if context = 0 then stack else txn.defaultParentStack
    parentStacks :=
      if context = 0 then txn.parentStacks else Function.update txn.parentStacks context stack }

/-- The links between the segments. -/
def links (txn : SegmentTxn) : Links ℕ where
  parent := fun segment => (txn.segment segment).parent
  children := fun segment => (txn.segment segment).children

/-- The segments in the tree. -/
def Reachable (txn : SegmentTxn) (segment : ℕ) : Prop :=
  txn.links.Reachable txn.segmentRoot segment

end SegmentTxn

/-! ### The current segment -/

/-- `nr_txn_get_current_segment`; the context of a string that the pool did not
take is `some 0`. -/
def nrTxnGetCurrentSegment (txn : SegmentTxn) (asyncContext : Option ℕ) : Option ℕ :=
  match asyncContext with
  | some 0 => none
  | some context => (txn.parentStacks context).head?
  | none => txn.defaultParentStack.head?

/-- `nr_txn_set_current_segment`. -/
def nrTxnSetCurrentSegment (txn : SegmentTxn) (segment : ℕ) : SegmentTxn :=
  let context := (txn.segment segment).asyncContext
  let txn :=
    if context ≠ 0 ∧ context ∉ txn.parentStackKeys then
      { txn with
        parentStackKeys := txn.parentStackKeys ++ [context]
        parentStacks := Function.update txn.parentStacks context [] }
    else txn
  txn.setStack context (segment :: txn.stack context)

/-- `nr_txn_retire_current_segment`: the topmost occurrence goes. -/
def nrTxnRetireCurrentSegment (txn : SegmentTxn) (segment : ℕ) : SegmentTxn :=
  let context := (txn.segment segment).asyncContext
  txn.setStack context ((txn.stack context).erase segment)

/-! ### The children of a segment

Children are a list here, as the operations on `nr_segment_children_t` refine it
in `SegmentChildrenRefinement`. -/

def SegmentTxn.nrSegmentChildrenAdd (txn : SegmentTxn) (parent child : ℕ) : SegmentTxn :=
  txn.modify parent fun s => { s with children := s.children ++ [child] }

def SegmentTxn.nrSegmentChildrenRemove (txn : SegmentTxn) (parent child : ℕ) : SegmentTxn :=
  txn.modify parent fun s => { s with children := s.children.erase child }

def SegmentTxn.setParents (txn : SegmentTxn) (parent : ℕ) (children : List ℕ) : SegmentTxn :=
  children.foldl (fun txn child => txn.modify child fun s => { s with parent := some parent }) txn

/-- `nr_segment_children_reparent`, for the children of a segment. -/
def SegmentTxn.nrSegmentChildrenReparent (txn : SegmentTxn) (segment newParent : ℕ) : SegmentTxn :=
  let children := (txn.segment segment).children
  let txn := txn.setParents newParent children
  let txn := txn.modify newParent fun s => { s with children := s.children ++ children }
  txn.modify segment fun s => { s with children := [] }

/-! ### Starting and ending -/

/-- The parent of a segment that is started without one. -/
def defaultParent (txn : SegmentTxn) (asyncContext : Option ℕ) : Option ℕ :=
  match nrTxnGetCurrentSegment txn asyncContext, asyncContext with
  -- the root of a new context hangs below the main one
  | none, some _ => nrTxnGetCurrentSegment txn none
  | current, _ => current

/-- The fields that `nr_segment_init` sets first, on memory from the slab. -/
def initFields (txn : SegmentTxn) (segment : ℕ) (asyncContext : Option ℕ) (now : ℕ) : SegmentTxn :=
  txn.modify segment fun s =>
    { s with
      tag := .custom
      startTime := nrTimeDuration txn.absStartTime now
      asyncContext := asyncContext.getD 0
      children := [] }

/-- The segment gets its parent, and the parent a child. -/
def putUnder (txn : SegmentTxn) (segment : ℕ) (parent : Option ℕ) : SegmentTxn :=
  let txn := txn.modify segment fun s => { s with parent := parent }
  match parent with
  | some parent => txn.nrSegmentChildrenAdd parent segment
  | none => txn

/-- `nr_segment_init`. -/
def nrSegmentInit (txn : SegmentTxn) (segment : ℕ) (parent asyncContext : Option ℕ) (now : ℕ) :
    SegmentTxn :=
  let txn := initFields txn segment asyncContext now
  match parent with
  | some parent => putUnder txn segment (some parent)
  | none =>
      nrTxnSetCurrentSegment (putUnder txn segment (defaultParent txn asyncContext)) segment

/-- `nr_segment_start`. -/
def nrSegmentStart (txn : SegmentTxn) (parent asyncContext : Option ℕ) (now : ℕ) :
    Option ℕ × SegmentTxn :=
  if !txn.recording then (none, txn)
  else
    let segment := txn.used
    (some segment, nrSegmentInit { txn with used := txn.used + 1 } segment parent asyncContext now)

theorem nrSegmentStart_of_recording {txn : SegmentTxn} (h : txn.recording = true)
    (parent asyncContext : Option ℕ) (now : ℕ) :
    nrSegmentStart txn parent asyncContext now =
      (some txn.used,
        nrSegmentInit { txn with used := txn.used + 1 } txn.used parent asyncContext now) := by
  simp only [nrSegmentStart, h, Bool.not_true, Bool.false_eq_true, if_false]

theorem nrSegmentStart_of_not_recording {txn : SegmentTxn} (h : txn.recording = false)
    (parent asyncContext : Option ℕ) (now : ℕ) :
    nrSegmentStart txn parent asyncContext now = (none, txn) := by
  simp only [nrSegmentStart, h, Bool.not_false, if_true]

/-- `nr_segment_set_timing`. -/
def nrSegmentSetTiming (txn : SegmentTxn) (segment start duration : ℕ) : SegmentTxn :=
  txn.modify segment fun s => { s with startTime := start, stopTime := start + duration }

/-- `nr_segment_end`. -/
def nrSegmentEnd (txn : SegmentTxn) (segment now : ℕ) : SegmentTxn :=
  let txn :=
    if (txn.segment segment).stopTime = 0 then
      txn.modify segment fun s => { s with stopTime := nrTimeDuration txn.absStartTime now }
    else txn
  nrTxnRetireCurrentSegment { txn with segmentCount := txn.segmentCount + 1 } segment

/-- `nr_segment_set_name`. -/
def nrSegmentSetName (txn : SegmentTxn) (segment name : ℕ) : SegmentTxn :=
  txn.modify segment fun s => { s with name := name }

/-! ### Moving and removing -/

/-- The loop of `nr_segment_set_parent` that looks for the segment above its new
parent. -/
def isAncestor (txn : SegmentTxn) (segment : ℕ) : ℕ → Option ℕ → Bool
  | 0, _ => false
  | _, none => false
  | fuel + 1, some ancestor =>
      ancestor = segment || isAncestor txn segment fuel (txn.segment ancestor).parent

/-- `nr_segment_set_parent`, for two segments of the transaction. No path up is
longer than the number of segments. -/
def nrSegmentSetParent (txn : SegmentTxn) (segment parent : ℕ) : Bool × SegmentTxn :=
  if (txn.segment segment).parent = some parent then (true, txn)
  else if isAncestor txn segment txn.used (some parent) then (false, txn)
  else
    let txn :=
      match (txn.segment segment).parent with
      | some old => txn.nrSegmentChildrenRemove old segment
      | none => txn
    let txn := txn.nrSegmentChildrenAdd parent segment
    (true, txn.modify segment fun s => { s with parent := some parent })

/-- `nr_segment_add_child`, for two segments of the transaction. -/
def nrSegmentAddChild (txn : SegmentTxn) (parent child : ℕ) : Bool × SegmentTxn :=
  (true, (nrSegmentSetParent txn child parent).2)

/-- `nr_segment_destroy`, what is left of it: every segment of the subtree loses
its children. The colours that stop the walk at a segment it was at before are
left out, the fuel bounds the depth. -/
def nrSegmentDestroy : ℕ → SegmentTxn → ℕ → SegmentTxn
  | 0, txn, _ => txn
  | fuel + 1, txn, segment =>
      let txn := (txn.segment segment).children.foldl (nrSegmentDestroy fuel) txn
      txn.modify segment fun s => { s with children := [] }

/-- `nr_segment_discard`. -/
def nrSegmentDiscard (txn : SegmentTxn) (segment : ℕ) : Bool × SegmentTxn :=
  match (txn.segment segment).parent with
  | none => (false, txn)
  | some parent =>
      let txn := txn.nrSegmentChildrenRemove parent segment
      let txn := txn.nrSegmentChildrenReparent segment parent
      let txn := { txn with segmentCount := txn.segmentCount - 1 }
      (true, nrSegmentDestroy txn.used txn segment)

/-- The loop of `nr_segment_external_rollup` over the siblings. -/
def findRollup (txn : SegmentTxn) (segment : ℕ) : List ℕ → Option ℕ → Option ℕ
  | [], rollup => rollup
  | sibling :: siblings, rollup =>
      let skip :=
        sibling = segment ∨
        (txn.segment sibling).name ≠ (txn.segment segment).name ∨
        0 < (txn.segment sibling).children.length ∨
        ∃ r ∈ rollup, (txn.segment r).stopTime > (txn.segment sibling).stopTime
      findRollup txn segment siblings (if skip then rollup else some sibling)

/-- `nr_segment_external_rollup`. -/
def nrSegmentExternalRollup (txn : SegmentTxn) (segment : ℕ) : Bool × SegmentTxn :=
  match (txn.segment segment).parent with
  | none => (false, txn)
  | some parent =>
      match findRollup txn segment (txn.segment parent).children none with
      | none => (false, txn)
      | some rollup =>
          let stopTime := (txn.segment segment).stopTime
          let txn := txn.modify rollup fun s => { s with stopTime := stopTime }
          let txn := txn.nrSegmentChildrenRemove parent segment
          let txn := nrSegmentDestroy txn.used txn segment
          (true, { txn with segmentCount := txn.segmentCount - 1 })

/-- `nr_segment_external_params_t`, with the index of the name that the metric
of the call gets. -/
structure ExternalParams where
  doRollup : Bool
  name : ℕ

/-- `nr_segment_external_end` up to the roll-up: the attributes make the segment
an external one, and the metric of the call gives it its name. -/
def externalEnded (txn : SegmentTxn) (segment : ℕ) (params : ExternalParams) (now : ℕ) :
    SegmentTxn :=
  let txn := txn.modify segment fun s => { s with tag := .external }
  let txn := nrSegmentEnd txn segment now
  txn.modify segment fun s => { s with name := params.name }

/-- `nr_segment_external_end`, and whether the segment was rolled up. -/
def nrSegmentExternalEnd (txn : SegmentTxn) (segment : ℕ) (params : ExternalParams) (now : ℕ) :
    Bool × SegmentTxn :=
  let txn := externalEnded txn segment params now
  if params.doRollup then nrSegmentExternalRollup txn segment else (false, txn)

/-! ### The transaction -/

/-- What `nr_txn_begin` sets up before it starts the root segment. -/
def emptyTxn (absStartTime : ℕ) : SegmentTxn :=
  { recording := true
    ignore := false
    complete := false
    absStartTime
    segment := fun _ => .zero
    used := 0
    segmentRoot := 0
    segmentCount := 0
    defaultParentStack := []
    parentStacks := fun _ => []
    parentStackKeys := [] }

/-- The part of `nr_txn_begin` that concerns segments. -/
def nrTxnBegin (absStartTime now : ℕ) : SegmentTxn :=
  let txn := (nrSegmentStart (emptyTxn absStartTime) none none now).2
  txn.modify txn.segmentRoot fun s => { s with startTime := 0 }

/-- `nr_txn_set_timing`. -/
def nrTxnSetTiming (txn : SegmentTxn) (start duration : ℕ) : SegmentTxn :=
  { txn with absStartTime := start }.modify txn.segmentRoot fun s => { s with stopTime := duration }

/-- `nr_txn_ignore`. -/
def nrTxnIgnore (txn : SegmentTxn) : SegmentTxn := { txn with ignore := true, recording := false }

/-- The loop of `nr_txn_end_segments_in_stack`; the fuel is the size of the
stack. -/
def endSegmentsInStack (context now : ℕ) : ℕ → SegmentTxn → SegmentTxn
  | 0, txn => txn
  | fuel + 1, txn =>
      match txn.stack context with
      | [] => txn
      | segment :: rest =>
          endSegmentsInStack context now fuel (nrSegmentEnd (txn.setStack context rest) segment now)

/-- `nr_txn_end_segments_in_stack`. -/
def nrTxnEndSegmentsInStack (now : ℕ) (txn : SegmentTxn) (context : ℕ) : SegmentTxn :=
  endSegmentsInStack context now (txn.stack context).length txn

/-- `nr_txn_finalize_parent_stacks`. The order of the keys is that of their first
use, in the source it is that of their hashes. -/
def nrTxnFinalizeParentStacks (txn : SegmentTxn) (now : ℕ) : SegmentTxn :=
  nrTxnEndSegmentsInStack now (txn.parentStackKeys.foldl (nrTxnEndSegmentsInStack now) txn) 0

/-- `nr_txn_end` up to the call of `nr_segment_tree_finalise`, and whether that is
made. `name` is what freezing the name results in, if it succeeds. -/
def nrTxnEnd (txn : SegmentTxn) (name : Option ℕ) (now : ℕ) : Bool × SegmentTxn :=
  if txn.complete then (false, txn)
  else
    let txn := { txn with complete := true, recording := false }
    if txn.ignore then (false, txn)
    else
      match name with
      | none => (false, txn)
      | some name =>
          let txn := nrSegmentSetName txn txn.segmentRoot name
          (true, nrSegmentEnd txn txn.segmentRoot now)

/-! ### What a step changes -/

namespace SegmentTxn

variable (txn : SegmentTxn)

@[simp] theorem modify_segment_self (segment : ℕ) (f : TxnSegment → TxnSegment) :
    (txn.modify segment f).segment segment = f (txn.segment segment) := by
  simp [modify]

theorem modify_segment_of_ne {segment x : ℕ} (h : x ≠ segment) (f : TxnSegment → TxnSegment) :
    (txn.modify segment f).segment x = txn.segment x := by
  simp [modify, h]

theorem field_modify {α : Type} (field : TxnSegment → α) {segment : ℕ}
    {f : TxnSegment → TxnSegment} (h : ∀ s, field (f s) = field s) (x : ℕ) :
    field ((txn.modify segment f).segment x) = field (txn.segment x) := by
  by_cases hx : x = segment
  · subst hx
    rw [modify_segment_self, h]
  · rw [modify_segment_of_ne txn hx]

theorem links_modify {segment : ℕ} {f : TxnSegment → TxnSegment}
    (hparent : ∀ s, (f s).parent = s.parent) (hchildren : ∀ s, (f s).children = s.children) :
    (txn.modify segment f).links = txn.links := by
  apply Links.ext
  · funext x
    exact txn.field_modify TxnSegment.parent hparent x
  · funext x
    exact txn.field_modify TxnSegment.children hchildren x

theorem links_modify_parent (segment : ℕ) (parent : Option ℕ) :
    (txn.modify segment fun s => { s with parent := parent }).links =
      { txn.links with parent := Function.update txn.links.parent segment parent } := by
  apply Links.ext
  · funext x
    by_cases hx : x = segment
    · subst hx
      simp [links]
    · simp [links, modify_segment_of_ne txn hx, hx]
  · funext x
    exact txn.field_modify (f := fun s => { s with parent := parent }) TxnSegment.children
      (fun _ => rfl) x

theorem links_modify_children (segment : ℕ) (g : List ℕ → List ℕ) :
    (txn.modify segment fun s => { s with children := g s.children }).links =
      { txn.links with
        children := Function.update txn.links.children segment (g (txn.links.children segment)) } := by
  apply Links.ext
  · funext x
    exact txn.field_modify (f := fun s => { s with children := g s.children }) TxnSegment.parent
      (fun _ => rfl) x
  · funext x
    by_cases hx : x = segment
    · subst hx
      simp [links]
    · simp [links, modify_segment_of_ne txn hx, hx]

theorem links_childrenAdd (parent child : ℕ) :
    (txn.nrSegmentChildrenAdd parent child).links =
      { txn.links with
        children :=
          Function.update txn.links.children parent (txn.links.children parent ++ [child]) } :=
  txn.links_modify_children parent fun children => children ++ [child]

theorem links_childrenRemove (parent child : ℕ) :
    (txn.nrSegmentChildrenRemove parent child).links = txn.links.detach parent child :=
  txn.links_modify_children parent fun children => children.erase child

theorem links_setParent_childrenAdd (parent child : ℕ) :
    (SegmentTxn.nrSegmentChildrenAdd (txn.modify child fun s => { s with parent := some parent }) parent
      child).links = txn.links.attach parent child := by
  rw [links_childrenAdd, links_modify_parent]
  rfl

theorem stack_setStack (context k : ℕ) (stack : List ℕ) :
    (txn.setStack context stack).stack k = if k = context then stack else txn.stack k := by
  unfold setStack SegmentTxn.stack
  by_cases hcontext : context = 0
  · subst hcontext
    by_cases hk : k = 0 <;> simp [hk]
  · by_cases hk : k = 0
    · simp [hk, hcontext, Ne.symm hcontext]
    · simp [hk, hcontext, Function.update_apply]

end SegmentTxn

/-! ### What stays -/

/-- The transaction is the same but for its segments, its stacks and the count. -/
structure SegmentTxn.Frame (txn txn' : SegmentTxn) : Prop where
  recording : txn'.recording = txn.recording
  ignore : txn'.ignore = txn.ignore
  complete : txn'.complete = txn.complete
  absStartTime : txn'.absStartTime = txn.absStartTime
  used : txn'.used = txn.used
  segmentRoot : txn'.segmentRoot = txn.segmentRoot

theorem SegmentTxn.Frame.rfl {txn : SegmentTxn} : txn.Frame txn :=
  ⟨Eq.refl _, Eq.refl _, Eq.refl _, Eq.refl _, Eq.refl _, Eq.refl _⟩

theorem SegmentTxn.Frame.trans {txn₁ txn₂ txn₃ : SegmentTxn} (h : txn₁.Frame txn₂)
    (h' : txn₂.Frame txn₃) : txn₁.Frame txn₃ where
  recording := h'.recording.trans h.recording
  ignore := h'.ignore.trans h.ignore
  complete := h'.complete.trans h.complete
  absStartTime := h'.absStartTime.trans h.absStartTime
  used := h'.used.trans h.used
  segmentRoot := h'.segmentRoot.trans h.segmentRoot

/-- The segments of the stacks are in the hash map or in the default stack. -/
structure SegmentTxn.StackKeys (txn : SegmentTxn) : Prop where
  nodup : txn.parentStackKeys.Nodup
  ne_zero : 0 ∉ txn.parentStackKeys
  empty : ∀ context, context ∉ txn.parentStackKeys → txn.parentStacks context = []

theorem SegmentTxn.stack_eq_nil {txn : SegmentTxn} (h : txn.StackKeys) {context : ℕ}
    (hzero : context ≠ 0) (hkey : context ∉ txn.parentStackKeys) : txn.stack context = [] := by
  rw [SegmentTxn.stack, if_neg hzero, h.empty context hkey]

section SetCurrent

variable {txn : SegmentTxn}

theorem nrTxnSetCurrentSegment_links (segment : ℕ) :
    (nrTxnSetCurrentSegment txn segment).links = txn.links := by
  simp only [nrTxnSetCurrentSegment]
  split <;> rfl

theorem nrTxnSetCurrentSegment_segment (segment : ℕ) :
    (nrTxnSetCurrentSegment txn segment).segment = txn.segment := by
  simp only [nrTxnSetCurrentSegment]
  split <;> rfl

theorem nrTxnSetCurrentSegment_segmentCount (segment : ℕ) :
    (nrTxnSetCurrentSegment txn segment).segmentCount = txn.segmentCount := by
  simp only [nrTxnSetCurrentSegment]
  split <;> rfl

theorem nrTxnSetCurrentSegment_frame (segment : ℕ) :
    txn.Frame (nrTxnSetCurrentSegment txn segment) := by
  simp only [nrTxnSetCurrentSegment]
  split <;> exact ⟨rfl, rfl, rfl, rfl, rfl, rfl⟩

theorem nrTxnSetCurrentSegment_stack (h : txn.StackKeys) (segment k : ℕ) :
    (nrTxnSetCurrentSegment txn segment).stack k =
      if k = (txn.segment segment).asyncContext then segment :: txn.stack k
      else txn.stack k := by
  simp only [nrTxnSetCurrentSegment]
  split
  · next hnew =>
      obtain ⟨hzero, hkey⟩ := hnew
      rw [SegmentTxn.stack_setStack]
      by_cases hk : k = (txn.segment segment).asyncContext
      · rw [if_pos hk, if_pos hk, hk, SegmentTxn.stack_eq_nil h hzero hkey]
        simp [SegmentTxn.stack, hzero]
      · rw [if_neg hk, if_neg hk]
        simp [SegmentTxn.stack, hk]
  · rw [SegmentTxn.stack_setStack]
    by_cases hk : k = (txn.segment segment).asyncContext
    · rw [if_pos hk, if_pos hk, hk]
    · rw [if_neg hk, if_neg hk]

theorem SegmentTxn.StackKeys.setStack (h : txn.StackKeys) {context : ℕ} (stack : List ℕ)
    (hcontext : context ≠ 0 → context ∈ txn.parentStackKeys) :
    (txn.setStack context stack).StackKeys where
  nodup := h.nodup
  ne_zero := h.ne_zero
  empty := by
    intro k hk
    by_cases hzero : context = 0
    · simp only [SegmentTxn.setStack, hzero, if_true]
      exact h.empty k hk
    · have hne : k ≠ context := fun heq => hk (heq ▸ hcontext hzero)
      simp only [SegmentTxn.setStack, hzero, if_false, Function.update_of_ne hne]
      exact h.empty k hk

theorem SegmentTxn.StackKeys.setCurrentSegment (h : txn.StackKeys) (segment : ℕ) :
    (nrTxnSetCurrentSegment txn segment).StackKeys := by
  simp only [nrTxnSetCurrentSegment]
  split
  · next hnew =>
      obtain ⟨hzero, hkey⟩ := hnew
      have hadded : SegmentTxn.StackKeys { txn with
          parentStackKeys := txn.parentStackKeys ++ [(txn.segment segment).asyncContext]
          parentStacks :=
            Function.update txn.parentStacks (txn.segment segment).asyncContext [] } := by
        refine ⟨List.nodup_append.mpr ⟨h.nodup, List.nodup_singleton _, ?_⟩, ?_, ?_⟩
        · intro x hx y hy heq
          exact hkey (List.mem_singleton.mp hy ▸ heq ▸ hx)
        · intro hmem
          rcases List.mem_append.mp hmem with hold | hnew
          · exact h.ne_zero hold
          · exact hzero (List.mem_singleton.mp hnew).symm
        · intro k hk
          have hold : k ∉ txn.parentStackKeys := fun hmem => hk (List.mem_append_left _ hmem)
          by_cases hk' : k = (txn.segment segment).asyncContext
          · simp [hk']
          · simpa [hk'] using h.empty k hold
      exact hadded.setStack _ fun _ => List.mem_append_right _ (List.mem_singleton_self _)
  · next hold =>
      refine h.setStack _ fun hzero => ?_
      by_contra hkey
      exact hold ⟨hzero, hkey⟩

end SetCurrent

/-- Nothing but the segments and the count has changed, and every segment is on
the context it was on. -/
structure SegmentTxn.Retains (txn txn' : SegmentTxn) : Prop where
  rest : txn' = { txn with segment := txn'.segment, segmentCount := txn'.segmentCount }
  asyncContext : ∀ x, (txn'.segment x).asyncContext = (txn.segment x).asyncContext

namespace SegmentTxn.Retains

variable {txn txn' txn'' : SegmentTxn}

theorem trans (h : txn.Retains txn') (h' : txn'.Retains txn'') : txn.Retains txn'' where
  rest := by
    rw [h'.rest, h.rest]
  asyncContext := fun x => (h'.asyncContext x).trans (h.asyncContext x)

theorem modify (txn : SegmentTxn) (segment : ℕ) {f : TxnSegment → TxnSegment}
    (hf : ∀ s, (f s).asyncContext = s.asyncContext) : txn.Retains (txn.modify segment f) where
  rest := Eq.refl _
  asyncContext := txn.field_modify TxnSegment.asyncContext hf

theorem setCount (txn : SegmentTxn) (n : ℤ) : txn.Retains { txn with segmentCount := n } :=
  ⟨Eq.refl _, fun _ => Eq.refl _⟩

variable (h : txn.Retains txn')

include h

theorem frame : txn.Frame txn' := by
  rw [h.rest]
  exact ⟨Eq.refl _, Eq.refl _, Eq.refl _, Eq.refl _, Eq.refl _, Eq.refl _⟩

theorem stack (k : ℕ) : txn'.stack k = txn.stack k := by
  rw [h.rest]
  exact Eq.refl _

theorem stackKeys (hkeys : txn.StackKeys) : txn'.StackKeys := by
  rw [h.rest]
  exact ⟨hkeys.nodup, hkeys.ne_zero, hkeys.empty⟩

end SegmentTxn.Retains

/-! ### Starting -/

section Start

variable {txn : SegmentTxn} {segment : ℕ} {parent asyncContext : Option ℕ} {now : ℕ}

/-- The segment that a new one is put below. -/
def startParent (txn : SegmentTxn) (parent asyncContext : Option ℕ) : Option ℕ :=
  parent.or (defaultParent txn asyncContext)

/-- While the main context has a current segment, there is always one to start below. -/
theorem exists_startParent {a : ℕ} (ha : a ∈ txn.stack 0) (parent asyncContext : Option ℕ) :
    ∃ p, startParent txn parent asyncContext = some p := by
  obtain ⟨p, hp⟩ : ∃ p, (txn.stack 0).head? = some p :=
    ⟨_, List.head?_eq_some_head (List.ne_nil_of_mem ha)⟩
  have hmain : nrTxnGetCurrentSegment txn none = some p := hp
  cases parent with
  | some q => exact ⟨q, rfl⟩
  | none =>
      show ∃ p, defaultParent txn asyncContext = some p
      cases hcurrent : nrTxnGetCurrentSegment txn asyncContext with
      | some q => exact ⟨q, by simp only [defaultParent, hcurrent]⟩
      | none =>
          cases asyncContext with
          | none => exact ⟨p, by rw [hmain] at hcurrent; cases hcurrent⟩
          | some context => exact ⟨p, by simp only [defaultParent, hcurrent, hmain]⟩

theorem initFields_links (hchildren : txn.links.children segment = []) (asyncContext : Option ℕ)
    (now : ℕ) :
    (initFields txn segment asyncContext now).links = txn.links := by
  apply Links.ext
  · funext x
    by_cases hx : x = segment
    · subst hx
      simp only [initFields, SegmentTxn.links, SegmentTxn.modify_segment_self]
    · simp only [initFields, SegmentTxn.links, SegmentTxn.modify_segment_of_ne _ hx]
  · funext x
    by_cases hx : x = segment
    · subst hx
      simp only [initFields, SegmentTxn.links, SegmentTxn.modify_segment_self]
      exact hchildren.symm
    · simp only [initFields, SegmentTxn.links, SegmentTxn.modify_segment_of_ne _ hx]

theorem putUnder_frame (txn : SegmentTxn) (segment : ℕ) (parent : Option ℕ) :
    txn.Frame (putUnder txn segment parent) := by
  cases parent <;> exact ⟨rfl, rfl, rfl, rfl, rfl, rfl⟩

theorem SegmentTxn.StackKeys.putUnder (h : txn.StackKeys) (segment : ℕ) (parent : Option ℕ) :
    (putUnder txn segment parent).StackKeys := by
  cases parent <;> exact ⟨h.nodup, h.ne_zero, h.empty⟩

theorem putUnder_links (hparent : txn.links.parent segment = none) (parent : Option ℕ) :
    (putUnder txn segment parent).links = txn.links.attachUnder parent segment := by
  cases parent with
  | some p => exact txn.links_setParent_childrenAdd p segment
  | none =>
      have hsame : Function.update txn.links.parent segment none = txn.links.parent := by
        rw [← hparent, Function.update_eq_self]
      simp only [putUnder, SegmentTxn.links_modify_parent, hsame]
      rfl

/-- Putting a segment below another changes the list of children of the other
one only. -/
theorem putUnder_segment (txn : SegmentTxn) (segment : ℕ) (parent : Option ℕ) (x : ℕ) :
    ∃ parent' children, (putUnder txn segment parent).segment x =
        { txn.segment x with parent := parent', children := children } ∧
      (x ≠ segment → parent' = (txn.segment x).parent) := by
  have hmodify : ∀ y, ((txn.modify segment fun s => { s with parent := parent }).segment y) =
      { txn.segment y with
        parent := if y = segment then parent else (txn.segment y).parent } := by
    intro y
    by_cases hy : y = segment
    · subst hy
      rw [SegmentTxn.modify_segment_self, if_pos rfl]
    · rw [SegmentTxn.modify_segment_of_ne _ hy, if_neg hy]
  cases parent with
  | some p =>
      refine ⟨if x = segment then some p else (txn.segment x).parent,
        ((putUnder txn segment (some p)).segment x).children, ?_, fun hx => if_neg hx⟩
      by_cases hx : x = p
      · subst hx
        simp only [putUnder, SegmentTxn.nrSegmentChildrenAdd, SegmentTxn.modify_segment_self, hmodify]
      · simp only [putUnder, SegmentTxn.nrSegmentChildrenAdd, SegmentTxn.modify_segment_of_ne _ hx,
          hmodify]
  | none =>
      refine ⟨if x = segment then none else (txn.segment x).parent, (txn.segment x).children, ?_,
        fun hx => if_neg hx⟩
      exact hmodify x

theorem nrSegmentInit_links (txn : SegmentTxn) {segment : ℕ}
    (hparent : txn.links.parent segment = none)
    (hchildren : txn.links.children segment = []) (parent asyncContext : Option ℕ) (now : ℕ) :
    (nrSegmentInit txn segment parent asyncContext now).links =
      txn.links.attachUnder (startParent txn parent asyncContext) segment := by
  have hinit := initFields_links hchildren asyncContext now
  have hparent' : (initFields txn segment asyncContext now).links.parent segment = none := by
    rw [hinit, hparent]
  cases parent with
  | some p =>
      have hput := putUnder_links hparent' (some p)
      rw [hinit] at hput
      exact hput
  | none =>
      have hcurrent : defaultParent (initFields txn segment asyncContext now) asyncContext =
          defaultParent txn asyncContext := rfl
      have hput := putUnder_links hparent' (defaultParent txn asyncContext)
      rw [hinit] at hput
      simp only [nrSegmentInit, nrTxnSetCurrentSegment_links, hcurrent, hput, startParent,
        Option.none_or]

theorem nrSegmentInit_frame (txn : SegmentTxn) (segment : ℕ) (parent asyncContext : Option ℕ)
    (now : ℕ) : txn.Frame (nrSegmentInit txn segment parent asyncContext now) := by
  have hinit : txn.Frame (initFields txn segment asyncContext now) :=
    ⟨rfl, rfl, rfl, rfl, rfl, rfl⟩
  cases parent with
  | some p => exact hinit.trans (putUnder_frame _ segment (some p))
  | none => exact (hinit.trans (putUnder_frame _ segment _)).trans (nrTxnSetCurrentSegment_frame segment)

theorem nrSegmentInit_segmentCount (txn : SegmentTxn) (segment : ℕ)
    (parent asyncContext : Option ℕ) (now : ℕ) :
    (nrSegmentInit txn segment parent asyncContext now).segmentCount = txn.segmentCount := by
  cases parent with
  | some p => rfl
  | none =>
      simp only [nrSegmentInit, nrTxnSetCurrentSegment_segmentCount]
      cases defaultParent (initFields txn segment asyncContext now) asyncContext <;> rfl

theorem SegmentTxn.StackKeys.init (h : txn.StackKeys) (segment : ℕ)
    (parent asyncContext : Option ℕ) (now : ℕ) :
    (nrSegmentInit txn segment parent asyncContext now).StackKeys := by
  have hinit : (initFields txn segment asyncContext now).StackKeys :=
    ⟨h.nodup, h.ne_zero, h.empty⟩
  cases parent with
  | some p => exact hinit.putUnder segment (some p)
  | none => exact (hinit.putUnder segment _).setCurrentSegment segment

theorem nrSegmentInit_segment_of_ne (txn : SegmentTxn) {segment x : ℕ} (hx : x ≠ segment)
    (parent asyncContext : Option ℕ) (now : ℕ) :
    ∃ children, (nrSegmentInit txn segment parent asyncContext now).segment x =
      { txn.segment x with children := children } := by
  have hinit : (initFields txn segment asyncContext now).segment x = txn.segment x :=
    txn.modify_segment_of_ne hx _
  have hput : ∀ p, ∃ children,
      (putUnder (initFields txn segment asyncContext now) segment p).segment x =
        { txn.segment x with children := children } := by
    intro p
    obtain ⟨parent', children, h, hsame⟩ :=
      putUnder_segment (initFields txn segment asyncContext now) segment p x
    rw [hsame hx, hinit] at h
    exact ⟨children, h⟩
  cases parent with
  | some p => exact hput (some p)
  | none =>
      simp only [nrSegmentInit, nrTxnSetCurrentSegment_segment]
      exact hput _

theorem nrSegmentInit_segment_self (txn : SegmentTxn) (segment : ℕ)
    (parent asyncContext : Option ℕ) (now : ℕ) :
    ∃ parent' children, (nrSegmentInit txn segment parent asyncContext now).segment segment =
      { txn.segment segment with
        tag := .custom
        startTime := nrTimeDuration txn.absStartTime now
        asyncContext := asyncContext.getD 0
        parent := parent'
        children := children } := by
  have hput : ∀ p, ∃ parent' children,
      (putUnder (initFields txn segment asyncContext now) segment p).segment segment =
        { (initFields txn segment asyncContext now).segment segment with
          parent := parent', children := children } := by
    intro p
    obtain ⟨parent', children, h, -⟩ :=
      putUnder_segment (initFields txn segment asyncContext now) segment p segment
    exact ⟨parent', children, h⟩
  have hinit := txn.modify_segment_self segment fun s =>
    { s with
      tag := .custom
      startTime := nrTimeDuration txn.absStartTime now
      asyncContext := asyncContext.getD 0
      children := [] }
  cases parent with
  | some p =>
      obtain ⟨parent', children, h⟩ := hput (some p)
      exact ⟨parent', children, h.trans (by rw [initFields, hinit])⟩
  | none =>
      obtain ⟨parent', children, h⟩ := hput (defaultParent (initFields txn segment asyncContext now)
        asyncContext)
      refine ⟨parent', children, ?_⟩
      simp only [nrSegmentInit, nrTxnSetCurrentSegment_segment, h]
      rw [initFields, hinit]

/-- A segment without an explicit parent becomes the current one of its
context. -/
theorem nrSegmentInit_stack (h : txn.StackKeys) (segment : ℕ) (parent asyncContext : Option ℕ)
    (now k : ℕ) :
    (nrSegmentInit txn segment parent asyncContext now).stack k =
      if parent = none ∧ k = asyncContext.getD 0 then segment :: txn.stack k
      else txn.stack k := by
  have hput : ∀ p, (putUnder (initFields txn segment asyncContext now) segment p).stack k =
      txn.stack k := by
    intro p
    cases p <;> rfl
  cases parent with
  | some p =>
      rw [if_neg (fun hnone => nomatch hnone.1)]
      exact hput (some p)
  | none =>
      have hinit : (initFields txn segment asyncContext now).StackKeys :=
        ⟨h.nodup, h.ne_zero, h.empty⟩
      have hkeys := hinit.putUnder segment
        (defaultParent (initFields txn segment asyncContext now) asyncContext)
      obtain ⟨parent', children, hself⟩ :=
        nrSegmentInit_segment_self txn segment none asyncContext now
      simp only [nrSegmentInit, nrTxnSetCurrentSegment_segment] at hself ⊢
      rw [nrTxnSetCurrentSegment_stack hkeys, congrArg TxnSegment.asyncContext hself, hput]
      simp only [true_and]

end Start

/-! ### Ending -/

section End

variable {txn : SegmentTxn}

theorem nrSegmentEnd_frame (txn : SegmentTxn) (segment now : ℕ) :
    txn.Frame (nrSegmentEnd txn segment now) := by
  simp only [nrSegmentEnd]
  split <;> exact ⟨rfl, rfl, rfl, rfl, rfl, rfl⟩

@[simp] theorem nrSegmentEnd_segmentCount (txn : SegmentTxn) (segment now : ℕ) :
    (nrSegmentEnd txn segment now).segmentCount = txn.segmentCount + 1 := by
  simp only [nrSegmentEnd]
  split <;> rfl

/-- Ending a segment sets the time it stops at, unless that is known. -/
theorem nrSegmentEnd_segment (txn : SegmentTxn) (segment now x : ℕ) :
    (nrSegmentEnd txn segment now).segment x =
      { txn.segment x with
        stopTime :=
          if x = segment ∧ (txn.segment segment).stopTime = 0 then
            nrTimeDuration txn.absStartTime now
          else (txn.segment x).stopTime } := by
  simp only [nrSegmentEnd]
  split
  · next hstop =>
      by_cases hx : x = segment
      · subst hx
        rw [if_pos ⟨rfl, hstop⟩]
        exact txn.modify_segment_self x fun s =>
          { s with stopTime := nrTimeDuration txn.absStartTime now }
      · rw [if_neg fun h => hx h.1]
        exact txn.modify_segment_of_ne hx fun s =>
          { s with stopTime := nrTimeDuration txn.absStartTime now }
  · next hstop =>
      rw [if_neg fun h => hstop h.2]
      rfl

@[simp] theorem nrSegmentEnd_links (txn : SegmentTxn) (segment now : ℕ) :
    (nrSegmentEnd txn segment now).links = txn.links := by
  simp only [SegmentTxn.links, nrSegmentEnd_segment]

theorem nrSegmentEnd_asyncContext (txn : SegmentTxn) (segment now x : ℕ) :
    ((nrSegmentEnd txn segment now).segment x).asyncContext = (txn.segment x).asyncContext := by
  rw [nrSegmentEnd_segment]

theorem nrSegmentEnd_stack (txn : SegmentTxn) (segment now k : ℕ) :
    (nrSegmentEnd txn segment now).stack k =
      if k = (txn.segment segment).asyncContext then (txn.stack k).erase segment
      else txn.stack k := by
  have hretire : ∀ txn' : SegmentTxn, (nrTxnRetireCurrentSegment txn' segment).stack k =
      if k = (txn'.segment segment).asyncContext then (txn'.stack k).erase segment
      else txn'.stack k := by
    intro txn'
    rw [nrTxnRetireCurrentSegment, SegmentTxn.stack_setStack]
    by_cases hk : k = (txn'.segment segment).asyncContext
    · rw [if_pos hk, if_pos hk, hk]
    · rw [if_neg hk, if_neg hk]
  simp only [nrSegmentEnd, hretire]
  split
  · have hsame : ∀ x, ((txn.modify segment fun s =>
        { s with stopTime := nrTimeDuration txn.absStartTime now }).segment x).asyncContext =
        (txn.segment x).asyncContext := txn.field_modify TxnSegment.asyncContext fun _ => rfl
    rw [← hsame]
    rfl
  · rfl

theorem SegmentTxn.StackKeys.end (h : txn.StackKeys) (segment now : ℕ) :
    (nrSegmentEnd txn segment now).StackKeys where
  nodup := by
    simp only [nrSegmentEnd]
    split <;> exact h.nodup
  ne_zero := by
    simp only [nrSegmentEnd]
    split <;> exact h.ne_zero
  empty := by
    intro k hk
    have hkey : k ∉ txn.parentStackKeys := by
      simp only [nrSegmentEnd] at hk
      split at hk <;> exact hk
    by_cases hzero : k = 0
    · have hold := h.empty k hkey
      subst hzero
      have hsame : ∀ txn' : SegmentTxn,
          (nrTxnRetireCurrentSegment txn' segment).parentStacks 0 = txn'.parentStacks 0 := by
        intro txn'
        simp only [nrTxnRetireCurrentSegment, SegmentTxn.setStack]
        split
        · rfl
        · next hne => exact Function.update_of_ne (Ne.symm hne) _ _
      simp only [nrSegmentEnd, hsame]
      split <;> exact hold
    · have hstack := nrSegmentEnd_stack txn segment now k
      rw [SegmentTxn.stack_eq_nil h hzero hkey, List.erase_nil, ite_self, SegmentTxn.stack,
        if_neg hzero] at hstack
      exact hstack

/-- What ending a segment does to the tree, the stacks and the count. -/
structure SegmentTxn.Ended (txn : SegmentTxn) (segment : ℕ) (txn' : SegmentTxn) : Prop where
  frame : txn.Frame txn'
  segmentCount : txn'.segmentCount = txn.segmentCount + 1
  links : txn'.links = txn.links
  asyncContext : ∀ x, (txn'.segment x).asyncContext = (txn.segment x).asyncContext
  stack : ∀ k, txn'.stack k =
    if k = (txn.segment segment).asyncContext then (txn.stack k).erase segment else txn.stack k
  stackKeys : txn.StackKeys → txn'.StackKeys

theorem ended_nrSegmentEnd (txn : SegmentTxn) (segment now : ℕ) :
    txn.Ended segment (nrSegmentEnd txn segment now) where
  frame := nrSegmentEnd_frame txn segment now
  segmentCount := nrSegmentEnd_segmentCount txn segment now
  links := nrSegmentEnd_links txn segment now
  asyncContext := nrSegmentEnd_asyncContext txn segment now
  stack := nrSegmentEnd_stack txn segment now
  stackKeys := fun h => h.end segment now

/-- A segment ends, after a change to fields that no link and no stack is about. -/
theorem SegmentTxn.Ended.of_modify {txn txn' : SegmentTxn} {segment x : ℕ}
    {f : TxnSegment → TxnSegment} (hparent : ∀ s, (f s).parent = s.parent)
    (hchildren : ∀ s, (f s).children = s.children)
    (hcontext : ∀ s, (f s).asyncContext = s.asyncContext)
    (h : (txn.modify x f).Ended segment txn') : txn.Ended segment txn' := by
  have hmodify : txn.Retains (txn.modify x f) := .modify txn x hcontext
  refine ⟨hmodify.frame.trans h.frame, h.segmentCount, ?_, ?_, ?_, ?_⟩
  · rw [h.links, txn.links_modify hparent hchildren]
  · intro y
    rw [h.asyncContext, hmodify.asyncContext]
  · intro k
    rw [h.stack, hmodify.stack, hmodify.asyncContext]
  · exact fun hkeys => h.stackKeys (hmodify.stackKeys hkeys)

theorem ended_externalEnded (txn : SegmentTxn) (segment : ℕ) (params : ExternalParams)
    (now : ℕ) : txn.Ended segment (externalEnded txn segment params now) := by
  set tagged := txn.modify segment fun s => { s with tag := .external } with htagged
  have hend := ended_nrSegmentEnd tagged segment now
  have hname : (nrSegmentEnd tagged segment now).Retains (externalEnded txn segment params now) :=
    .modify _ segment (f := fun s => { s with name := params.name }) fun _ => rfl
  have hnameLinks : (externalEnded txn segment params now).links =
      (nrSegmentEnd tagged segment now).links :=
    SegmentTxn.links_modify _ (f := fun s => { s with name := params.name })
      (fun _ => rfl) (fun _ => rfl)
  have hended : tagged.Ended segment (externalEnded txn segment params now) := by
    refine ⟨hend.frame.trans hname.frame, hend.segmentCount, hnameLinks.trans hend.links, ?_, ?_, ?_⟩
    · intro x
      rw [hname.asyncContext, hend.asyncContext]
    · intro k
      rw [hname.stack, hend.stack]
    · exact fun h => hname.stackKeys (hend.stackKeys h)
  exact .of_modify (f := fun s => { s with tag := .external }) (fun _ => rfl) (fun _ => rfl)
    (fun _ => rfl) hended

end End

/-! ### Removing -/

section Remove

variable {txn : SegmentTxn}

/-- Some segments have lost their children, nothing else has changed. -/
structure SegmentTxn.Pruned (txn txn' : SegmentTxn) : Prop where
  rest : txn' = { txn with segment := txn'.segment }
  segment : ∀ x, txn'.segment x = txn.segment x ∨
    txn'.segment x = { txn.segment x with children := [] }

theorem SegmentTxn.Pruned.rfl : txn.Pruned txn := ⟨Eq.refl _, fun _ => Or.inl (Eq.refl _)⟩

theorem SegmentTxn.Pruned.trans {txn' txn'' : SegmentTxn} (h : txn.Pruned txn')
    (h' : txn'.Pruned txn'') : txn.Pruned txn'' where
  rest := by
    rw [h'.rest, h.rest]
  segment := by
    intro x
    rcases h.segment x with hx | hx <;> rcases h'.segment x with hx' | hx'
    · exact Or.inl (hx'.trans hx)
    · exact Or.inr (hx'.trans (by rw [hx]))
    · exact Or.inr (hx'.trans hx)
    · exact Or.inr (hx'.trans (by rw [hx]))

theorem SegmentTxn.pruned_modify (txn : SegmentTxn) (segment : ℕ) :
    txn.Pruned (txn.modify segment fun s => { s with children := [] }) where
  rest := rfl
  segment := by
    intro x
    by_cases hx : x = segment
    · subst hx
      exact Or.inr (txn.modify_segment_self x _)
    · exact Or.inl (txn.modify_segment_of_ne hx _)

theorem pruned_nrSegmentDestroy (fuel : ℕ) (txn : SegmentTxn) (segment : ℕ) :
    txn.Pruned (nrSegmentDestroy fuel txn segment) := by
  induction fuel generalizing txn segment with
  | zero => exact .rfl
  | succ fuel ih =>
      have hfold : ∀ (children : List ℕ) (txn : SegmentTxn),
          txn.Pruned (children.foldl (nrSegmentDestroy fuel) txn) := by
        intro children
        induction children with
        | nil => exact fun _ => .rfl
        | cons c cs ihcs => exact fun txn => (ih txn c).trans (ihcs _)
      exact (hfold _ txn).trans (SegmentTxn.pruned_modify _ segment)

namespace SegmentTxn.Pruned

variable {txn' : SegmentTxn} (h : txn.Pruned txn')

include h

theorem retains : txn.Retains txn' where
  rest := by
    rw [h.rest]
  asyncContext := by
    intro x
    rcases h.segment x with hx | hx <;> rw [hx]

theorem segmentCount : txn'.segmentCount = txn.segmentCount := by
  rw [h.rest]

theorem parent : txn'.links.parent = txn.links.parent := by
  funext x
  rcases h.segment x with hx | hx <;> simp only [SegmentTxn.links, hx]

theorem children_sublist (x : ℕ) : (txn'.links.children x).Sublist (txn.links.children x) := by
  rcases h.segment x with hx | hx
  · simp only [SegmentTxn.links, hx, List.Sublist.refl]
  · simp only [SegmentTxn.links, hx, List.nil_sublist]

end SegmentTxn.Pruned

theorem nrSegmentDestroy_links {segment : ℕ} (h : txn.links.children segment = []) (fuel : ℕ) :
    (nrSegmentDestroy fuel txn segment).links = txn.links := by
  cases fuel with
  | zero => rfl
  | succ fuel =>
      have hnil : (txn.segment segment).children = [] := h
      simp only [nrSegmentDestroy, hnil, List.foldl_nil]
      apply Links.ext
      · exact (txn.pruned_modify segment).parent
      · funext x
        by_cases hx : x = segment
        · subst hx
          simp only [SegmentTxn.links, SegmentTxn.modify_segment_self, hnil]
        · simp only [SegmentTxn.links, SegmentTxn.modify_segment_of_ne _ hx]

theorem setParents_segment (parent : ℕ) (children : List ℕ) (txn : SegmentTxn) (x : ℕ) :
    (txn.setParents parent children).segment x =
      { txn.segment x with
        parent := if x ∈ children then some parent else (txn.segment x).parent } := by
  induction children generalizing txn with
  | nil => rfl
  | cons c cs ih =>
      have hstep : (txn.setParents parent (c :: cs)).segment x = _ :=
        ih (txn.modify c fun s => { s with parent := some parent })
      rw [hstep]
      by_cases hx : x = c
      · subst hx
        simp only [SegmentTxn.modify_segment_self, List.mem_cons_self, if_true, ite_self]
      · simp only [SegmentTxn.modify_segment_of_ne _ hx, List.mem_cons, hx, false_or]

theorem setParents_rest (parent : ℕ) (children : List ℕ) (txn : SegmentTxn) :
    txn.setParents parent children =
      { txn with segment := (txn.setParents parent children).segment } := by
  induction children generalizing txn with
  | nil => rfl
  | cons c cs ih => exact ih (txn.modify c fun s => { s with parent := some parent })

theorem retains_setParents (txn : SegmentTxn) (parent : ℕ) (children : List ℕ) :
    txn.Retains (txn.setParents parent children) where
  rest := by
    rw [setParents_rest]
  asyncContext := fun x => by rw [setParents_segment]

theorem nrSegmentChildrenReparent_retains (txn : SegmentTxn) (segment newParent : ℕ) :
    txn.Retains (txn.nrSegmentChildrenReparent segment newParent) := by
  have happend := SegmentTxn.Retains.modify (txn.setParents newParent (txn.segment segment).children)
    newParent (f := fun s => { s with children := s.children ++ (txn.segment segment).children })
    (fun _ => rfl)
  exact ((retains_setParents txn newParent _).trans happend).trans
    (SegmentTxn.pruned_modify _ segment).retains

theorem nrSegmentChildrenReparent_links (txn : SegmentTxn) (segment newParent : ℕ) :
    (txn.nrSegmentChildrenReparent segment newParent).links =
      txn.links.splice newParent segment := by
  have hset : (txn.setParents newParent (txn.segment segment).children).links =
      { txn.links with
        parent := fun c => if c ∈ txn.links.children segment then some newParent
          else txn.links.parent c } := by
    apply Links.ext
    · funext x
      simp only [SegmentTxn.links, setParents_segment]
      congr
    · funext x
      simp only [SegmentTxn.links, setParents_segment]
  have happend := (txn.setParents newParent (txn.segment segment).children).links_modify_children
    newParent fun children => children ++ (txn.segment segment).children
  have hclear := SegmentTxn.links_modify_children
    ((txn.setParents newParent (txn.segment segment).children).modify newParent fun s =>
      { s with children := s.children ++ (txn.segment segment).children }) segment fun _ => []
  exact hclear.trans (by rw [happend, hset]; rfl)

theorem retains_childrenRemove (txn : SegmentTxn) (parent child : ℕ) :
    txn.Retains (txn.nrSegmentChildrenRemove parent child) :=
  .modify txn parent (f := fun s => { s with children := s.children.erase child }) fun _ => rfl

theorem nrSegmentDiscard_of_root {segment : ℕ} (hp : txn.links.parent segment = none) :
    nrSegmentDiscard txn segment = (false, txn) := by
  have hparent : (txn.segment segment).parent = none := hp
  simp only [nrSegmentDiscard, hparent]

/-- A segment that is not the root is discarded: its children move up. -/
theorem nrSegmentDiscard_of_parent {segment p : ℕ} (hp : txn.links.parent segment = some p) :
    (nrSegmentDiscard txn segment).1 = true ∧
      txn.Retains (nrSegmentDiscard txn segment).2 ∧
      (nrSegmentDiscard txn segment).2.segmentCount = txn.segmentCount - 1 ∧
      (nrSegmentDiscard txn segment).2.links = (txn.links.detach p segment).splice p segment := by
  have hparent : (txn.segment segment).parent = some p := hp
  set removed := txn.nrSegmentChildrenRemove p segment with hremoved
  set moved := removed.nrSegmentChildrenReparent segment p with hmoved
  set lowered : SegmentTxn := { moved with segmentCount := moved.segmentCount - 1 } with hlowered
  have hdiscard : nrSegmentDiscard txn segment =
      (true, nrSegmentDestroy lowered.used lowered segment) := by
    simp only [nrSegmentDiscard, hparent, ← hremoved, ← hmoved, ← hlowered]
    rfl
  have hretains : txn.Retains moved :=
    (retains_childrenRemove txn p segment).trans
      (nrSegmentChildrenReparent_retains removed segment p)
  have hpruned := pruned_nrSegmentDestroy lowered.used lowered segment
  have hcount : moved.segmentCount = txn.segmentCount := by
    rw [hmoved]
    simp only [SegmentTxn.nrSegmentChildrenReparent, SegmentTxn.modify]
    rw [setParents_rest]
    rfl
  have hlinks : moved.links = (txn.links.detach p segment).splice p segment := by
    rw [hmoved, nrSegmentChildrenReparent_links, hremoved, SegmentTxn.links_childrenRemove]
  have hnil : moved.links.children segment = [] := by
    rw [hlinks]
    simp only [Links.splice, Function.update_self]
  have hnil' : lowered.links.children segment = [] := hnil
  have hretains' : moved.Retains lowered := .setCount moved _
  rw [hdiscard]
  refine ⟨rfl, (hretains.trans hretains').trans hpruned.retains, ?_, ?_⟩
  · rw [hpruned.segmentCount, hlowered, hcount]
  · exact (nrSegmentDestroy_links hnil' _).trans hlinks

/-- What a roll-up does, when there is a segment to roll up into. -/
theorem nrSegmentExternalRollup_cases (txn : SegmentTxn) (segment : ℕ) :
    nrSegmentExternalRollup txn segment = (false, txn) ∨
      ∃ p txn', nrSegmentExternalRollup txn segment = (true, txn') ∧
        txn.links.parent segment = some p ∧ txn.Retains txn' ∧
        txn'.segmentCount = txn.segmentCount - 1 ∧
        txn'.links.parent = txn.links.parent ∧
        (∀ q, (txn'.links.children q).Sublist ((txn.links.detach p segment).children q)) ∧
        (p ≠ segment → txn.links.children segment = [] →
          txn'.links = txn.links.detach p segment) := by
  unfold nrSegmentExternalRollup
  split
  · exact Or.inl rfl
  next p hp =>
    split
    · exact Or.inl rfl
    next rollup _ =>
      right
      set stopped := txn.modify rollup fun s => { s with stopTime := (txn.segment segment).stopTime }
        with hstopped
      set removed := stopped.nrSegmentChildrenRemove p segment with hremoved
      have hlinks : removed.links = txn.links.detach p segment := by
        have hsame : stopped.links = txn.links := txn.links_modify
          (f := fun s => { s with stopTime := (txn.segment segment).stopTime })
          (fun _ => rfl) (fun _ => rfl)
        rw [hremoved, SegmentTxn.links_childrenRemove, hsame]
      have hpruned := pruned_nrSegmentDestroy removed.used removed segment
      have hretains : txn.Retains removed :=
        SegmentTxn.Retains.trans
          (.modify txn rollup (f := fun s => { s with stopTime := (txn.segment segment).stopTime })
            fun _ => rfl)
          (retains_childrenRemove stopped p segment)
      refine ⟨p, _, rfl, hp, (hretains.trans hpruned.retains).trans (.setCount _ _), ?_, ?_, ?_, ?_⟩
      · show (nrSegmentDestroy removed.used removed segment).segmentCount - 1 = _
        rw [hpruned.segmentCount]
        rfl
      · show (nrSegmentDestroy removed.used removed segment).links.parent = _
        rw [hpruned.parent, hlinks]
        rfl
      · intro q
        have hsub := hpruned.children_sublist q
        rw [hlinks] at hsub
        exact hsub
      · intro hne hnil
        have hnil' : removed.links.children segment = [] := by
          rw [hlinks]
          simp only [Links.detach, Function.update_of_ne hne.symm, hnil]
        exact (nrSegmentDestroy_links hnil' removed.used).trans hlinks

end Remove

end AxiomDaemon.Axiom

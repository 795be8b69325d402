import Mathlib.Order.Notation
import Mathlib.Data.List.Nodup

/-!
Search trees that are threaded through an array: the nodes are ordered by the
hashes of their keys, greater hashes to the left, and refer to each other by
position. Keys with equal hashes lie on one search path, so a search compares
the keys themselves wherever the hashes agree.

A node is added behind all others and hung up where the search for its hash
ends. What keeps the tree in order is therefore not a property of subtrees but
one of paths: every node lies on the path of its own hash. Links are added and
never changed, so no path is ever cut.
-/

namespace AxiomDaemon.Lib.HashTree

variable {κ β : Type*} [LT κ] [DecidableLT κ]

structure Node (κ : Type*) where
  hash : κ
  left : Option ℕ
  right : Option ℕ

/-- Where a search for a hash goes on. -/
def Node.next (node : Node κ) (hash : κ) : Option ℕ :=
  if node.hash < hash then node.left else node.right

/-- The node with a link on the side of a hash. -/
def Node.link (node : Node κ) (hash : κ) (i : ℕ) : Node κ :=
  if node.hash < hash then { node with left := some i } else { node with right := some i }

/-- The position after `i` on the search path of a hash. -/
def follow (nodes : List (Node κ)) (hash : κ) (i : ℕ) : Option ℕ :=
  nodes[i]?.bind (·.next hash)

/-- `j` lies on the search path of the hash that starts at `i`. -/
inductive Reaches (nodes : List (Node κ)) (hash : κ) : ℕ → ℕ → Prop
  | refl (i : ℕ) : Reaches nodes hash i i
  | step {i j k : ℕ} (hfollow : follow nodes hash i = some j) (hrest : Reaches nodes hash j k) :
      Reaches nodes hash i k

/-- The first position on the search path that satisfies `found`. -/
def search (nodes : List (Node κ)) (found : ℕ → Bool) (hash : κ) : (fuel i : ℕ) → Option ℕ
  | 0, _ => none
  | fuel + 1, i =>
      if found i then some i
      else
        match follow nodes hash i with
        | none => none
        | some j => search nodes found hash fuel j

/-- The last position on the search path. -/
def descend (nodes : List (Node κ)) (hash : κ) : (fuel i : ℕ) → ℕ
  | 0, i => i
  | fuel + 1, i =>
      match follow nodes hash i with
      | none => i
      | some j => descend nodes hash fuel j

/-- The array with a new node that is linked from `parent`. -/
def insertNode (nodes : List (Node κ)) (hash : κ) (parent : ℕ) : List (Node κ) :=
  nodes.modify parent (·.link hash nodes.length) ++ [⟨hash, none, none⟩]

/-- Links lead forward, and every node lies on the path of its hash. -/
structure Threaded (nodes : List (Node κ)) : Prop where
  links : ∀ i node, nodes[i]? = some node → ∀ j, node.left = some j ∨ node.right = some j →
    i < j ∧ j < nodes.length
  reached : ∀ i node, nodes[i]? = some node → Reaches nodes node.hash 0 i

/-- The nodes are those of distinct keys, in their order. -/
structure Indexes (mkhash : β → κ) (nodes : List (Node κ)) (keys : List β) : Prop where
  threaded : Threaded nodes
  hashes : nodes.map Node.hash = keys.map mkhash
  nodup : keys.Nodup

@[simp] theorem Node.hash_link (node : Node κ) (hash : κ) (i : ℕ) :
    (node.link hash i).hash = node.hash := by
  rw [Node.link]
  split <;> rfl

theorem Reaches.snoc {nodes : List (Node κ)} {hash : κ} {i j k : ℕ} (h : Reaches nodes hash i j)
    (hfollow : follow nodes hash j = some k) : Reaches nodes hash i k := by
  induction h with
  | refl i => exact .step hfollow (.refl k)
  | step hij _ ih => exact .step hij (ih hfollow)

theorem Reaches.mono {nodes nodes' : List (Node κ)} {hash : κ}
    (hmono : ∀ i j, follow nodes hash i = some j → follow nodes' hash i = some j) {i j : ℕ}
    (h : Reaches nodes hash i j) : Reaches nodes' hash i j := by
  induction h with
  | refl i => exact .refl i
  | step hij _ ih => exact .step (hmono _ _ hij) ih

theorem Threaded.forward {nodes : List (Node κ)} (h : Threaded nodes) (hash : κ) (i j : ℕ)
    (hfollow : follow nodes hash i = some j) : i < j ∧ j < nodes.length := by
  rw [follow, Option.bind_eq_some_iff] at hfollow
  obtain ⟨node, hnode, hnext⟩ := hfollow
  rw [Node.next] at hnext
  split at hnext
  · exact h.links i node hnode j (.inl hnext)
  · exact h.links i node hnode j (.inr hnext)

theorem threaded_nil : Threaded ([] : List (Node κ)) where
  links := fun _ _ h => by simp at h
  reached := fun _ _ h => by simp at h

theorem indexes_nil (mkhash : β → κ) : Indexes mkhash [] [] where
  threaded := threaded_nil
  hashes := rfl
  nodup := List.nodup_nil

theorem Indexes.length_eq {mkhash : β → κ} {nodes : List (Node κ)} {keys : List β}
    (h : Indexes mkhash nodes keys) : nodes.length = keys.length := by
  simpa using congrArg List.length h.hashes

/-! ### Searching -/

theorem search_eq_some {nodes : List (Node κ)} {found : ℕ → Bool} {hash : κ} {fuel i j : ℕ}
    (h : search nodes found hash fuel i = some j) : found j = true := by
  induction fuel generalizing i with
  | zero => cases h
  | succ fuel ih =>
      rw [search] at h
      split at h
      · next hfound =>
          obtain rfl := Option.some.inj h
          exact hfound
      · split at h
        · cases h
        · exact ih h

/-- What lies on the path is found, if the fuel covers the rest of the array. -/
theorem search_isSome {nodes : List (Node κ)} (hnodes : Threaded nodes) {found : ℕ → Bool}
    {hash : κ} {i j : ℕ} (h : Reaches nodes hash i j) (hfound : found j = true) {fuel : ℕ}
    (hj : j < nodes.length) (hfuel : nodes.length - i ≤ fuel) :
    (search nodes found hash fuel i).isSome := by
  induction h generalizing fuel with
  | refl i =>
      cases fuel with
      | zero => omega
      | succ fuel =>
          rw [search, if_pos hfound]
          rfl
  | @step i k j hfollow _ ih =>
      obtain ⟨hik, hk⟩ := hnodes.forward _ _ _ hfollow
      cases fuel with
      | zero => omega
      | succ fuel =>
          rw [search]
          split
          · rfl
          · rw [hfollow]
            exact ih hfound hj (by omega)

/-- A search that compares keys finds a key at its position, and only there. -/
theorem Indexes.search_eq {mkhash : β → κ} {nodes : List (Node κ)} {keys : List β}
    (h : Indexes mkhash nodes keys) {found : ℕ → Bool} {key : β}
    (hfound : ∀ i, found i = true ↔ keys[i]? = some key) {fuel : ℕ} (hfuel : keys.length ≤ fuel)
    (i : ℕ) : search nodes found (mkhash key) fuel 0 = some i ↔ keys[i]? = some key := by
  constructor
  · intro hsearch
    exact (hfound i).mp (search_eq_some hsearch)
  · intro hkey
    obtain ⟨hi, _⟩ := List.getElem?_eq_some_iff.mp hkey
    have hilt : i < nodes.length := h.length_eq ▸ hi
    have hhash : nodes[i].hash = mkhash key := by
      have hmap := congrArg (·[i]?) h.hashes
      simpa [hilt, hkey] using hmap
    have hreach := h.threaded.reached i _ (List.getElem?_eq_getElem hilt)
    rw [hhash] at hreach
    have hcovered : nodes.length - 0 ≤ fuel := by
      rw [h.length_eq]
      omega
    have hsome := search_isSome h.threaded hreach ((hfound i).mpr hkey) hilt hcovered
    obtain ⟨j, hj⟩ := Option.isSome_iff_exists.mp hsome
    -- whatever is found has the key, and no two positions have it
    have hkeyj := (hfound j).mp (search_eq_some hj)
    obtain ⟨hjlt, _⟩ := List.getElem?_eq_some_iff.mp hkeyj
    have hij : i = j := (List.getElem?_inj hi h.nodup).mp (hkey.trans hkeyj.symm)
    rw [hij, hj]

theorem Indexes.search_eq_none {mkhash : β → κ} {nodes : List (Node κ)} {keys : List β}
    (h : Indexes mkhash nodes keys) {found : ℕ → Bool} {key : β}
    (hfound : ∀ i, found i = true ↔ keys[i]? = some key) {fuel : ℕ} (hfuel : keys.length ≤ fuel) :
    search nodes found (mkhash key) fuel 0 = none ↔ key ∉ keys := by
  rw [← not_iff_not, not_not, List.mem_iff_getElem?]
  constructor
  · intro hne
    obtain ⟨i, hi⟩ := Option.ne_none_iff_exists'.mp hne
    exact ⟨i, (h.search_eq hfound hfuel i).mp hi⟩
  · rintro ⟨i, hi⟩ hnone
    rw [(h.search_eq hfound hfuel i).mpr hi] at hnone
    cases hnone

/-! ### Adding a node -/

theorem descend_spec {nodes : List (Node κ)} (hnodes : Threaded nodes) (hash : κ) {fuel i : ℕ}
    (hi : i < nodes.length) (hfuel : nodes.length - i ≤ fuel) :
    Reaches nodes hash i (descend nodes hash fuel i) ∧
      follow nodes hash (descend nodes hash fuel i) = none ∧
      descend nodes hash fuel i < nodes.length := by
  induction fuel generalizing i with
  | zero => omega
  | succ fuel ih =>
      rw [descend]
      split
      · next hnone => exact ⟨.refl i, hnone, hi⟩
      · next j hj =>
          obtain ⟨hij, hjlt⟩ := hnodes.forward _ _ _ hj
          obtain ⟨hreach, hend, hlt⟩ := ih hjlt (by omega)
          exact ⟨.step hj hreach, hend, hlt⟩

@[simp] theorem length_insertNode (nodes : List (Node κ)) (hash : κ) (parent : ℕ) :
    (insertNode nodes hash parent).length = nodes.length + 1 := by
  simp [insertNode]

/-- Elements of an array that are nodes: one is put behind the others and linked
from its parent. -/
theorem map_modify_append {α : Type*} {node : α → Node κ} {link : α → κ → ℕ → α}
    (hlink : ∀ a hash i, node (link a hash i) = (node a).link hash i) {elements : List α} {a : α}
    {hash : κ} (ha : node a = ⟨hash, none, none⟩) {parent : ℕ} (hparent : parent < elements.length) :
    ((elements ++ [a]).modify parent (link · hash elements.length)).map node =
      insertNode (elements.map node) hash parent := by
  refine List.ext_getElem? fun i => ?_
  rw [insertNode, List.getElem?_map, List.getElem?_modify, List.length_map]
  rcases Nat.lt_or_ge i elements.length with hi | hi
  · rw [List.getElem?_append_left hi, List.getElem?_append_left (by simpa using hi),
      List.getElem?_modify, List.getElem?_map, List.getElem?_eq_getElem hi]
    show some (node (if _ then _ else _)) = some (if _ then _ else _)
    split
    · exact congrArg some (hlink _ _ _)
    · rfl
  · rw [List.getElem?_append_right hi, List.getElem?_append_right (by simpa using hi)]
    simp only [show parent ≠ i by omega, if_false, List.length_modify, List.length_map, id_map',
      ← ha]
    exact (List.getElem?_map ..).symm

theorem follow_insertNode (nodes : List (Node κ)) (hash hash' : κ) (parent i : ℕ) :
    follow (insertNode nodes hash parent) hash' i =
      if i < nodes.length then
        nodes[i]?.bind fun node =>
          if i = parent then (node.link hash nodes.length).next hash' else node.next hash'
      else none := by
  rw [follow, insertNode]
  split
  · next hi =>
      rw [List.getElem?_append_left (by simpa using hi), List.getElem?_modify]
      simp only [List.getElem?_eq_getElem hi, Option.bind_some]
      by_cases hparent : i = parent
      · simp [hparent]
      · simp [hparent, Ne.symm hparent]
  · next hi =>
      rcases Nat.lt_or_eq_of_le (Nat.not_lt.mp hi) with hlt | rfl
      · rw [List.getElem?_eq_none (by simp; omega)]
        rfl
      · rw [List.getElem?_append_right (by simp)]
        simp [Node.next]

theorem follow_insertNode_mono {nodes : List (Node κ)} {hash : κ} {parent : ℕ}
    (hend : follow nodes hash parent = none) (hash' : κ) {i j : ℕ}
    (h : follow nodes hash' i = some j) :
    follow (insertNode nodes hash parent) hash' i = some j := by
  rw [follow, Option.bind_eq_some_iff] at h
  obtain ⟨node, hnode, hnext⟩ := h
  obtain ⟨hi, _⟩ := List.getElem?_eq_some_iff.mp hnode
  rw [follow_insertNode, if_pos hi, hnode, Option.bind_some]
  split
  · next hparent =>
      subst hparent
      rw [follow, hnode, Option.bind_some] at hend
      rw [Node.next] at hnext hend ⊢
      rw [Node.link]
      split_ifs at hnext hend ⊢ <;> simp_all
  · exact hnext

theorem Threaded.insertNode {nodes : List (Node κ)} (h : Threaded nodes) {hash : κ} {parent : ℕ}
    (hreach : Reaches nodes hash 0 parent) (hend : follow nodes hash parent = none)
    (hparent : parent < nodes.length) : Threaded (insertNode nodes hash parent) := by
  have hmono : ∀ hash' {i j : ℕ}, Reaches nodes hash' i j →
      Reaches (HashTree.insertNode nodes hash parent) hash' i j :=
    fun hash' _ _ hr => hr.mono fun _ _ => follow_insertNode_mono hend hash'
  constructor
  · intro i node hnode j hj
    rw [length_insertNode]
    rcases Nat.lt_or_ge i nodes.length with hi | hi
    · rw [HashTree.insertNode, List.getElem?_append_left (by simpa using hi),
        List.getElem?_modify, List.getElem?_eq_getElem hi] at hnode
      obtain rfl := Option.some.inj hnode
      have hold : ∀ j, nodes[i].left = some j ∨ nodes[i].right = some j →
          i < j ∧ j < nodes.length + 1 := fun j hj => by
        obtain ⟨hij, hjlt⟩ := h.links i _ (List.getElem?_eq_getElem hi) j hj
        exact ⟨hij, by omega⟩
      -- the new link leads to the new node, which is behind all others
      have hnew : i < nodes.length ∧ nodes.length < nodes.length + 1 := ⟨hi, Nat.lt_succ_self _⟩
      split at hj
      · simp only [Node.link] at hj
        split at hj
        · rcases hj with hj | hj
          · exact Option.some.inj hj ▸ hnew
          · exact hold j (.inr hj)
        · rcases hj with hj | hj
          · exact hold j (.inl hj)
          · exact Option.some.inj hj ▸ hnew
      · exact hold j hj
    · rw [HashTree.insertNode, List.getElem?_append_right (by simpa using hi),
        List.getElem?_singleton] at hnode
      split at hnode
      · obtain rfl := Option.some.inj hnode
        rcases hj with hj | hj <;> cases hj
      · cases hnode
  · intro i node hnode
    have hlink : follow (HashTree.insertNode nodes hash parent) hash parent = some nodes.length := by
      rw [follow_insertNode, if_pos hparent, List.getElem?_eq_getElem hparent, Option.bind_some,
        if_pos rfl, Node.link, Node.next]
      split_ifs <;> simp_all
    rcases Nat.lt_or_ge i nodes.length with hi | hi
    · -- an old node: its hash is the same, and its path is still there
      have hhash : node.hash = nodes[i].hash := by
        rw [HashTree.insertNode, List.getElem?_append_left (by simpa using hi),
          List.getElem?_modify, List.getElem?_eq_getElem hi] at hnode
        rw [← Option.some.inj hnode]
        split <;> simp
      rw [hhash]
      exact hmono _ (h.reached i _ (List.getElem?_eq_getElem hi))
    · have hlen : i < (HashTree.insertNode nodes hash parent).length :=
        (List.getElem?_eq_some_iff.mp hnode).1
      rw [length_insertNode] at hlen
      obtain rfl : i = nodes.length := by omega
      rw [HashTree.insertNode, List.getElem?_append_right (by simp)] at hnode
      obtain rfl : ⟨hash, none, none⟩ = node := by simpa using hnode
      exact (hmono hash hreach).snoc hlink

theorem threaded_singleton (hash : κ) : Threaded [(⟨hash, none, none⟩ : Node κ)] where
  links := fun i node h j hj => by
    cases i with
    | zero =>
        obtain rfl := Option.some.inj h
        rcases hj with hj | hj <;> cases hj
    | succ i => simp at h
  reached := fun i node h => by
    cases i with
    | zero => exact .refl 0
    | succ i => simp at h

theorem indexes_singleton (mkhash : β → κ) (key : β) :
    Indexes mkhash [⟨mkhash key, none, none⟩] [key] where
  threaded := threaded_singleton (mkhash key)
  hashes := rfl
  nodup := List.nodup_singleton key

/-- A key that was not there is hung up where the search for its hash ends. -/
theorem Indexes.insertNode {mkhash : β → κ} {nodes : List (Node κ)} {keys : List β}
    (h : Indexes mkhash nodes keys) {key : β} (hkey : key ∉ keys) (hne : 0 < nodes.length)
    {fuel : ℕ} (hfuel : nodes.length ≤ fuel) :
    Indexes mkhash (insertNode nodes (mkhash key) (descend nodes (mkhash key) fuel 0))
      (keys ++ [key]) := by
  obtain ⟨hreach, hend, hlt⟩ := descend_spec h.threaded (mkhash key) hne (by omega : _ ≤ fuel)
  refine ⟨h.threaded.insertNode hreach hend hlt, ?_, ?_⟩
  · have hmodify : (nodes.modify (descend nodes (mkhash key) fuel 0)
        (·.link (mkhash key) nodes.length)).map Node.hash = nodes.map Node.hash := by
      refine List.ext_getElem? fun i => ?_
      rw [List.getElem?_map, List.getElem?_modify, List.getElem?_map]
      cases nodes[i]? with
      | none => rfl
      | some node =>
          show some (Node.hash (if _ then _ else _)) = some node.hash
          split <;> simp
    rw [HashTree.insertNode, List.map_append, hmodify, h.hashes, List.map_append]
    rfl
  · exact h.nodup.append (List.nodup_singleton key) (by simpa using hkey)

/-- A new key in an array whose elements are nodes: its element is put behind the
others and linked from the end of its path. -/
theorem Indexes.append {α : Type*} {node : α → Node κ} {link : α → κ → ℕ → α}
    (hlink : ∀ a hash i, node (link a hash i) = (node a).link hash i) {mkhash : β → κ}
    {elements : List α} {keys : List β} (h : Indexes mkhash (elements.map node) keys) {key : β}
    (hkey : key ∉ keys) (hne : 0 < elements.length) {fuel : ℕ} (hfuel : elements.length ≤ fuel)
    {a : α} (ha : node a = ⟨mkhash key, none, none⟩) :
    Indexes mkhash (((elements ++ [a]).modify
        (descend (elements.map node) (mkhash key) fuel 0)
        (link · (mkhash key) elements.length)).map node) (keys ++ [key]) := by
  have hlen : (elements.map node).length = elements.length := List.length_map node
  have hpos : 0 < (elements.map node).length := hlen.symm ▸ hne
  have hcovered : (elements.map node).length ≤ fuel := hlen.symm ▸ hfuel
  obtain ⟨_, _, hdescend⟩ := descend_spec h.threaded (mkhash key) hpos (by omega : _ ≤ fuel)
  rw [map_modify_append hlink ha (hlen ▸ hdescend)]
  exact h.insertNode hkey hpos hcovered

end AxiomDaemon.Lib.HashTree

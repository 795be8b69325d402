import Mathlib.Data.List.AList
import Mathlib.Data.List.Perm.Basic

/-!
Maps of maps: a value is found by two keys, one after the other. What such a
map stores is a list of pairs of keys, and an iteration over it visits the
outer keys in some order and below each of them the inner keys in some order.
-/

namespace AxiomDaemon.Lib

variable {α β γ : Type} [DecidableEq α] [DecidableEq β]

abbrev NestedMap (α β γ : Type) := AList fun _ : α => AList fun _ : β => γ

/-- The order in which one iteration visits the outer keys, and the inner keys
below an outer one. -/
structure NestedOrder (α β : Type) where
  outer : List α → List α
  inner : α → List β → List β
  outer_perm : ∀ l, (outer l).Perm l
  inner_perm : ∀ a l, (inner a l).Perm l

/-- The order that visits the keys as they are stored. -/
def NestedOrder.stored : NestedOrder α β where
  outer := id
  inner := fun _ => id
  outer_perm := List.Perm.refl
  inner_perm := fun _ => List.Perm.refl

namespace NestedMap

def find (m : NestedMap α β γ) (key : α × β) : Option γ := (m.lookup key.1).bind (·.lookup key.2)

/-- The inner map is made if there is none. -/
def put (m : NestedMap α β γ) (key : α × β) (c : γ) : NestedMap α β γ :=
  m.insert key.1 (((m.lookup key.1).getD ∅).insert key.2 c)

def storedBelow (a : α) (s : AList fun _ : β => γ) : List ((α × β) × γ) :=
  s.entries.map fun e => ((a, e.1), e.2)

/-- All that is stored, with its keys. -/
def stored (m : NestedMap α β γ) : List ((α × β) × γ) :=
  m.entries.flatMap fun e => storedBelow e.1 e.2

/-- What an iteration visits below one outer key. -/
def visitedBelow (order : NestedOrder α β) (a : α) (s : AList fun _ : β => γ) :
    List ((α × β) × γ) :=
  (order.inner a s.keys).filterMap fun b => (s.lookup b).map fun c => ((a, b), c)

/-- What an iteration visits. -/
def visited (order : NestedOrder α β) (m : NestedMap α β γ) : List ((α × β) × γ) :=
  (order.outer m.keys).flatMap fun a => ((m.lookup a).map (visitedBelow order a)).getD []

theorem find_put (m : NestedMap α β γ) (key key' : α × β) (c : γ) :
    (m.put key c).find key' = if key' = key then some c else m.find key' := by
  rw [find, put]
  by_cases houter : key'.1 = key.1
  · rw [houter, AList.lookup_insert, Option.bind_some]
    by_cases hinner : key'.2 = key.2
    · rw [hinner, AList.lookup_insert, if_pos (Prod.ext houter hinner)]
    · rw [AList.lookup_insert_ne hinner, if_neg fun h => hinner (congrArg Prod.snd h), find, houter]
      cases m.lookup key.1 <;> rfl
  · rw [AList.lookup_insert_ne houter, if_neg fun h => houter (congrArg Prod.fst h)]
    rfl

theorem mem_entries_iff {α : Type} [DecidableEq α] {δ : Type} {s : AList fun _ : α => δ} {a : α}
    {d : δ} : (⟨a, d⟩ : Sigma fun _ : α => δ) ∈ s.entries ↔ s.lookup a = some d :=
  AList.mem_lookup_iff.symm

omit [DecidableEq α] in
theorem mem_storedBelow {a a' : α} {b : β} {c : γ} {s : AList fun _ : β => γ} :
    ((a', b), c) ∈ storedBelow a s ↔ a' = a ∧ s.lookup b = some c := by
  rw [storedBelow, List.mem_map, ← mem_entries_iff]
  constructor
  · rintro ⟨e, he, heq⟩
    cases heq
    exact ⟨rfl, he⟩
  · rintro ⟨rfl, he⟩
    exact ⟨⟨b, c⟩, he, rfl⟩

theorem mem_stored {m : NestedMap α β γ} {key : α × β} {c : γ} :
    (key, c) ∈ m.stored ↔ m.find key = some c := by
  obtain ⟨a, b⟩ := key
  rw [stored, List.mem_flatMap, find, Option.bind_eq_some_iff]
  constructor
  · rintro ⟨e, he, hmem⟩
    obtain ⟨rfl, hlookup⟩ := mem_storedBelow.mp hmem
    exact ⟨e.2, mem_entries_iff.mp he, hlookup⟩
  · rintro ⟨s, hs, hlookup⟩
    exact ⟨⟨a, s⟩, mem_entries_iff.mpr hs, mem_storedBelow.mpr ⟨rfl, hlookup⟩⟩

/-! ### What putting does to the stored list -/

theorem perm_entries_of_lookup {α : Type} [DecidableEq α] {δ : Type} {s : AList fun _ : α => δ}
    {a : α} {d : δ} (h : s.lookup a = some d) :
    s.entries.Perm (⟨a, d⟩ :: (s.erase a).entries) := by
  have hkeys : a ∈ s.entries.keys := AList.mem_keys.mp (AList.lookup_isSome.mp (by rw [h]; rfl))
  obtain ⟨d', l₁, l₂, hnot, hentries, hkerase⟩ := List.exists_of_kerase hkeys
  have hd : d' = d := by
    have hmem : (⟨a, d'⟩ : Sigma fun _ : α => δ) ∈ s.entries := by
      rw [hentries]
      simp
    exact Option.some.inj ((mem_entries_iff.mp hmem).symm.trans h)
  show s.entries.Perm (_ :: s.entries.kerase a)
  rw [hkerase, hentries, hd]
  exact List.perm_middle

theorem entries_insert_of_lookup_none {α : Type} [DecidableEq α] {δ : Type}
    {s : AList fun _ : α => δ} {a : α} (h : s.lookup a = none) (d : δ) :
    (s.insert a d).entries = ⟨a, d⟩ :: s.entries :=
  AList.entries_insert_of_notMem (AList.lookup_eq_none.mp h)

omit [DecidableEq β] in
theorem stored_perm_erase (m : NestedMap α β γ) (a : α) :
    m.stored.Perm (storedBelow a ((m.lookup a).getD ∅) ++ stored (m.erase a)) := by
  cases h : m.lookup a with
  | none =>
      have herase : m.erase a = m := by
        apply AList.ext
        exact List.kerase_of_notMem_keys (AList.lookup_eq_none.mp h)
      rw [herase]
      exact List.Perm.refl _
  | some s => exact (perm_entries_of_lookup h).flatMap_right _

theorem stored_put (m : NestedMap α β γ) (key : α × β) (c : γ) :
    (m.put key c).stored =
      storedBelow key.1 (((m.lookup key.1).getD ∅).insert key.2 c) ++ stored (m.erase key.1) := by
  rw [stored, put, AList.entries_insert]
  rfl

theorem stored_put_of_none {m : NestedMap α β γ} {key : α × β} (h : m.find key = none) (c : γ) :
    (m.put key c).stored.Perm ((key, c) :: m.stored) := by
  have hinner : ((m.lookup key.1).getD ∅).lookup key.2 = none := by
    rw [find] at h
    cases hs : m.lookup key.1 with
    | none => rfl
    | some s =>
        rw [hs] at h
        exact h
  rw [stored_put, storedBelow, entries_insert_of_lookup_none hinner, List.map_cons]
  exact ((stored_perm_erase m key.1).cons _).symm

theorem stored_put_of_some {m : NestedMap α β γ} {key : α × β} {old : γ}
    (h : m.find key = some old) (c : γ) :
    ∃ rest, m.stored.Perm ((key, old) :: rest) ∧ (m.put key c).stored.Perm ((key, c) :: rest) := by
  rw [find, Option.bind_eq_some_iff] at h
  obtain ⟨s, hs, hold⟩ := h
  refine ⟨storedBelow key.1 (s.erase key.2) ++ stored (m.erase key.1), ?_, ?_⟩
  · refine (stored_perm_erase m key.1).trans ?_
    rw [hs]
    exact ((perm_entries_of_lookup hold).map _).append_right _
  · rw [stored_put, hs]
    exact List.Perm.refl _

omit [DecidableEq α] in
theorem nodup_stored (m : NestedMap α β γ) : (m.stored.map Prod.fst).Nodup := by
  have hbelow : ∀ (a : α) (s : AList fun _ : β => γ), ((storedBelow a s).map Prod.fst).Nodup := by
    intro a s
    have hmap : (storedBelow a s).map Prod.fst = s.keys.map (Prod.mk a) := by
      rw [storedBelow, List.map_map, AList.keys, List.keys, List.map_map]
      rfl
    rw [hmap]
    exact s.keys_nodup.map fun b b' h => congrArg Prod.snd h
  rw [stored, List.map_flatMap, List.nodup_flatMap]
  refine ⟨fun e _ => hbelow e.1 e.2, ?_⟩
  refine (List.pairwise_map.mp m.keys_nodup).imp ?_
  rintro e e' hne key hkey hkey'
  obtain ⟨⟨⟨a, b⟩, c⟩, hmem, rfl⟩ := List.mem_map.mp hkey
  obtain ⟨⟨⟨a', b'⟩, c'⟩, hmem', heq⟩ := List.mem_map.mp hkey'
  obtain ⟨rfl, rfl⟩ := Prod.mk.inj heq
  exact hne ((mem_storedBelow.mp hmem).1.symm.trans (mem_storedBelow.mp hmem').1)

/-! ### What an iteration visits -/

omit [DecidableEq α] in
theorem visitedBelow_perm (order : NestedOrder α β) (a : α) (s : AList fun _ : β => γ) :
    (visitedBelow order a s).Perm (storedBelow a s) := by
  refine ((order.inner_perm a s.keys).filterMap _).trans ?_
  have heq : s.keys.filterMap (fun b => (s.lookup b).map fun c => ((a, b), c)) =
      storedBelow a s := by
    rw [AList.keys, List.keys, List.filterMap_map, storedBelow]
    refine List.filterMap_eq_map_iff_forall_eq_some.mpr fun e he => ?_
    show (s.lookup e.1).map _ = _
    rw [mem_entries_iff.mp he]
    rfl
  rw [heq]

theorem visited_perm (order : NestedOrder α β) (m : NestedMap α β γ) :
    (visited order m).Perm m.stored := by
  refine ((order.outer_perm m.keys).flatMap_right _).trans ?_
  rw [AList.keys, List.keys, List.flatMap_map]
  refine List.Perm.flatMap_left _ fun e he => ?_
  rw [mem_entries_iff.mp he]
  exact visitedBelow_perm order e.1 e.2

theorem mem_visited {order : NestedOrder α β} {m : NestedMap α β γ} {key : α × β} {c : γ} :
    (key, c) ∈ visited order m ↔ m.find key = some c := by
  rw [(visited_perm order m).mem_iff, mem_stored]

theorem nodup_visited (order : NestedOrder α β) (m : NestedMap α β γ) :
    ((visited order m).map Prod.fst).Nodup :=
  ((visited_perm order m).map _).nodup_iff.mpr (nodup_stored m)

theorem flatMap_split {δ ε : Type} {f : δ → List ε} {l : List δ} {before after : List ε} {e : ε}
    (h : l.flatMap f = before ++ e :: after) :
    ∃ l₁ x l₂ before' after', l = l₁ ++ x :: l₂ ∧ before = l₁.flatMap f ++ before' ∧
      f x = before' ++ e :: after' := by
  induction l generalizing before with
  | nil => simp at h
  | cons x l ih =>
      rw [List.flatMap_cons, List.append_eq_append_iff] at h
      rcases h with ⟨more, rfl, hrest⟩ | ⟨more, hx, hrest⟩
      · obtain ⟨l₁, y, l₂, before', after', rfl, rfl, hy⟩ := ih hrest
        exact ⟨x :: l₁, y, l₂, before', after', rfl, by simp, hy⟩
      · cases more with
        | nil =>
            have hempty : l.flatMap f = [] ++ e :: after := hrest.symm
            obtain ⟨l₁, y, l₂, before', after', rfl, hbefore, hy⟩ := ih hempty
            rw [List.append_nil] at hx
            refine ⟨x :: l₁, y, l₂, before', after', rfl, ?_, hy⟩
            rw [List.flatMap_cons, List.append_assoc, ← hbefore, List.append_nil, hx]
        | cons e' more =>
            obtain ⟨rfl, _⟩ := List.cons.inj hrest
            exact ⟨[], x, l, before, more, rfl, rfl, hx⟩

/-- An iteration comes to an entry after all entries of the outer keys it has
visited: below other outer keys it has visited all entries or none. -/
theorem visited_split {order : NestedOrder α β} {m : NestedMap α β γ}
    {before after : List ((α × β) × γ)} {entry : (α × β) × γ}
    (h : visited order m = before ++ entry :: after) {visitedEntry other : (α × β) × γ}
    (hvisited : visitedEntry ∈ before) (hne : visitedEntry.1.1 ≠ entry.1.1)
    (hother : m.find other.1 = some other.2) (hsame : other.1.1 = visitedEntry.1.1) :
    other ∈ before := by
  obtain ⟨l₁, x, l₂, before', after', hkeys, rfl, hx⟩ := flatMap_split h
  have hbelow : ∀ e ∈ before' ++ entry :: after', e.1.1 = x := by
    intro e he
    rw [← hx] at he
    cases hs : m.lookup x with
    | none =>
        rw [hs] at he
        cases he
    | some s =>
        rw [hs] at he
        exact (mem_storedBelow.mp ((visitedBelow_perm order x s).mem_iff.mp he)).1
  have hentry : entry.1.1 = x := hbelow entry (by simp)
  rcases List.mem_append.mp hvisited with hfirst | hlast
  · refine List.mem_append_left _ ?_
    rw [List.mem_flatMap] at hfirst ⊢
    obtain ⟨a, ha, hmem⟩ := hfirst
    refine ⟨a, ha, ?_⟩
    rw [find, Option.bind_eq_some_iff] at hother
    obtain ⟨s, hs, hlookup⟩ := hother
    cases hs' : m.lookup a with
    | none =>
        rw [hs'] at hmem
        cases hmem
    | some s' =>
        rw [hs'] at hmem
        have hname := (mem_storedBelow.mp ((visitedBelow_perm order a s').mem_iff.mp hmem)).1
        rw [hsame, hname, hs'] at hs
        obtain rfl := Option.some.inj hs
        refine (visitedBelow_perm order a s').mem_iff.mpr ?_
        exact mem_storedBelow.mpr ⟨hsame.trans hname, hlookup⟩
  · exact absurd ((hbelow _ (List.mem_append_left _ hlast)).trans hentry.symm) hne

/-- The order that puts some outer keys first, then one outer key, and below
each outer key one inner key last. -/
def orderTo (early : α → Prop) [DecidablePred early] (key : α × β) : NestedOrder α β where
  outer := fun l => l.filter (fun a => early a) ++
    ((l.filter fun a => !early a).filter (fun a => a = key.1) ++
      (l.filter fun a => !early a).filter fun a => !decide (a = key.1))
  inner := fun _ l => l.filter (fun b => !decide (b = key.2)) ++ l.filter fun b => decide (b = key.2)
  outer_perm := fun l =>
    ((List.filter_append_perm _ _).append_left _).trans (List.filter_append_perm _ l)
  inner_perm := fun _ l => by
    have hperm := List.filter_append_perm (fun b => decide (b = key.2)) l
    exact List.perm_append_comm.trans hperm

theorem filter_eq_singleton {δ : Type} [DecidableEq δ] {l : List δ} (hl : l.Nodup) {d : δ}
    (hd : d ∈ l) : l.filter (fun e => decide (e = d)) = [d] := by
  rw [List.filter_eq, List.count_eq_one_of_mem hl hd]
  rfl

omit [DecidableEq α] in
theorem mem_visitedBelow {order : NestedOrder α β} {a : α} {s : AList fun _ : β => γ}
    {entry : (α × β) × γ} :
    entry ∈ visitedBelow order a s ↔ entry.1.1 = a ∧ s.lookup entry.1.2 = some entry.2 := by
  rw [(visitedBelow_perm order a s).mem_iff]
  exact mem_storedBelow

/-- An iteration can come to an entry after all entries of some other outer keys
and those of its own. -/
theorem exists_visited (m : NestedMap α β γ) {entry : (α × β) × γ}
    (hentry : m.find entry.1 = some entry.2) (early : α → Prop) [DecidablePred early]
    (hearly : ¬ early entry.1.1) :
    ∃ before after, visited (orderTo early entry.1) m = before ++ entry :: after ∧
      ∀ other, m.find other.1 = some other.2 →
        (other ∈ before ↔ early other.1.1 ∨ other.1.1 = entry.1.1 ∧ other.1.2 ≠ entry.1.2) := by
  obtain ⟨s, hs, hlookup⟩ := Option.bind_eq_some_iff.mp hentry
  have hkey : entry.1.1 ∈ m.keys.filter fun a => !early a := by
    rw [List.mem_filter]
    exact ⟨AList.mem_keys.mp (AList.lookup_isSome.mp (by rw [hs]; rfl)), by simpa using hearly⟩
  have hinner : entry.1.2 ∈ s.keys :=
    AList.mem_keys.mp (AList.lookup_isSome.mp (by rw [hlookup]; rfl))
  set f : α → List ((α × β) × γ) := fun a =>
    ((m.lookup a).map (visitedBelow (orderTo early entry.1) a)).getD [] with hf
  set own := (s.keys.filter fun b => !decide (b = entry.1.2)).filterMap fun b =>
    (s.lookup b).map fun c => ((entry.1.1, b), c) with hown
  have hbelow : f entry.1.1 = own ++ [entry] := by
    rw [hf]
    simp only [hs, Option.map_some, Option.getD_some]
    rw [visitedBelow]
    show (_ ++ _ : List β).filterMap _ = _
    rw [filter_eq_singleton s.keys_nodup hinner, List.filterMap_append]
    simp [hlookup, hown]
  refine ⟨(m.keys.filter fun a => early a).flatMap f ++ own,
    ((m.keys.filter fun a => !early a).filter fun a => !decide (a = entry.1.1)).flatMap f, ?_, ?_⟩
  · show (_ ++ (_ ++ _) : List α).flatMap f = _
    rw [filter_eq_singleton (m.keys_nodup.filter _) hkey, List.flatMap_append, List.flatMap_append,
      List.flatMap_singleton, hbelow]
    simp
  · intro other hother
    obtain ⟨s', hs', hlookup'⟩ := Option.bind_eq_some_iff.mp hother
    rw [List.mem_append]
    refine or_congr ?_ ?_
    · rw [List.mem_flatMap]
      constructor
      · rintro ⟨a, ha, hmem⟩
        simp only [hf] at hmem
        cases hsa : m.lookup a with
        | none =>
            rw [hsa] at hmem
            cases hmem
        | some sa =>
            rw [hsa] at hmem
            rw [(mem_visitedBelow.mp hmem).1]
            exact of_decide_eq_true (List.mem_filter.mp ha).2
      · intro hother'
        refine ⟨other.1.1, List.mem_filter.mpr ⟨?_, decide_eq_true hother'⟩, ?_⟩
        · exact AList.mem_keys.mp (AList.lookup_isSome.mp (by rw [hs']; rfl))
        · simp only [hf, hs', Option.map_some, Option.getD_some]
          exact mem_visitedBelow.mpr ⟨rfl, hlookup'⟩
    · rw [hown, List.mem_filterMap]
      constructor
      · rintro ⟨b, hb, heq⟩
        obtain ⟨c, _, rfl⟩ := Option.map_eq_some_iff.mp heq
        exact ⟨rfl, by simpa using (List.mem_filter.mp hb).2⟩
      · rintro ⟨hname, hne⟩
        rw [hname, hs] at hs'
        obtain rfl := Option.some.inj hs'
        refine ⟨other.1.2, List.mem_filter.mpr ⟨?_, by simpa using hne⟩, ?_⟩
        · exact AList.mem_keys.mp (AList.lookup_isSome.mp (by rw [hlookup']; rfl))
        · rw [hlookup', ← hname]
          rfl

end NestedMap

end AxiomDaemon.Lib

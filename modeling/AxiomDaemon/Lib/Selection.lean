import Mathlib.Data.List.Nodup
import Mathlib.Data.List.Count
import Mathlib.Order.Lattice

/-!
Choosing the greatest elements of a list, up to a bound. Which of several
elements of equal rank are chosen is left open. An element may be left out if
there are more elements of its rank or above than the bound allows, and may be
chosen if there are fewer above it than the bound allows.
-/

namespace AxiomDaemon.Lib

variable {α β γ : Type*} [LinearOrder β]

/-- The elements `kept` are `k` of the greatest of `l`, or all of them if there
are no more than that; the others are `dropped`. -/
structure Selects (rank : α → β) (k : ℕ) (l kept dropped : List α) : Prop where
  perm : (kept ++ dropped).Perm l
  length : kept.length = min l.length k
  greatest : ∀ x ∈ dropped, ∀ y ∈ kept, rank x ≤ rank y

/-- Some choice leaves the element out. -/
def MayDrop (rank : α → β) (k : ℕ) (l : List α) (x : α) : Prop :=
  k < l.countP fun z => rank x ≤ rank z

/-- Some choice has the element. -/
def MayKeep (rank : α → β) (k : ℕ) (l : List α) (y : α) : Prop :=
  l.countP (fun z => rank y < rank z) < k

namespace Selects

variable {rank : α → β} {k : ℕ} {l kept dropped : List α}

theorem mem_iff (h : Selects rank k l kept dropped) {x : α} :
    x ∈ l ↔ x ∈ kept ∨ x ∈ dropped := by
  rw [← h.perm.mem_iff, List.mem_append]

theorem length_le (h : Selects rank k l kept dropped) : kept.length ≤ k :=
  h.length ▸ Nat.min_le_right _ _

theorem countP_eq (h : Selects rank k l kept dropped) (p : α → Bool) :
    l.countP p = kept.countP p + dropped.countP p := by
  rw [← h.perm.countP_eq, List.countP_append]

theorem length_eq (h : Selects rank k l kept dropped) {x : α} (hx : x ∈ dropped) :
    kept.length = k := by
  have hpos := List.length_pos_of_mem hx
  have hlen := h.perm.length_eq
  have hmin := h.length
  rw [List.length_append] at hlen
  omega

theorem mayDrop (h : Selects rank k l kept dropped) {x : α} (hx : x ∈ dropped) :
    MayDrop rank k l x := by
  have hkept : kept.countP (fun z => rank x ≤ rank z) = kept.length := by
    refine List.countP_eq_length.mpr fun y hy => ?_
    exact decide_eq_true (h.greatest x hx y hy)
  have hdropped : 0 < dropped.countP fun z => rank x ≤ rank z :=
    List.countP_pos_iff.mpr ⟨x, hx, decide_eq_true le_rfl⟩
  have hfull := h.length_eq hx
  rw [MayDrop, h.countP_eq]
  omega

theorem mayKeep (h : Selects rank k l kept dropped) {x y : α} (hx : x ∈ dropped) (hy : y ∈ kept) :
    MayKeep rank k l y := by
  have hdropped : dropped.countP (fun z => rank y < rank z) = 0 := by
    refine List.countP_eq_zero.mpr fun z hz => ?_
    simpa using h.greatest z hz y hy
  have hkept : kept.countP (fun z => rank y < rank z) < kept.length := by
    rw [List.countP_lt_length_iff]
    exact ⟨y, hy, by simp⟩
  have hfull := h.length_eq hx
  rw [MayKeep, h.countP_eq]
  omega

theorem exists_dropped (h : Selects rank k l kept dropped) {x : α} (hx : x ∈ l)
    (hmay : MayDrop rank k l x) : ∃ x' ∈ dropped, rank x' = rank x := by
  rcases h.mem_iff.mp hx with hkept | hdropped
  · have hle : kept.countP (fun z => rank x ≤ rank z) ≤ k :=
      List.countP_le_length.trans h.length_le
    rw [MayDrop, h.countP_eq] at hmay
    obtain ⟨x', hx', hrank⟩ := List.countP_pos_iff.mp
      (show 0 < dropped.countP fun z => rank x ≤ rank z by omega)
    exact ⟨x', hx', le_antisymm (h.greatest x' hx' x hkept) (of_decide_eq_true hrank)⟩
  · exact ⟨x, hdropped, rfl⟩

theorem exists_kept (h : Selects rank k l kept dropped) {y : α} (hy : y ∈ l)
    (hmay : MayKeep rank k l y) : ∃ y' ∈ kept, rank y' = rank y := by
  rcases h.mem_iff.mp hy with hkept | hdropped
  · exact ⟨y, hkept, rfl⟩
  · have hfull := h.length_eq hdropped
    rw [MayKeep, h.countP_eq] at hmay
    have hlt : kept.countP (fun z => rank y < rank z) < kept.length := by omega
    obtain ⟨y', hy', hrank⟩ := List.countP_lt_length_iff.mp hlt
    exact ⟨y', hy', le_antisymm (by simpa using hrank) (h.greatest y hdropped y' hy')⟩

section

variable [LE γ] {value : α → γ}

/-- Values are in order between what is left out and what is chosen, if they
are for all that may be. -/
theorem le_of_may (h : Selects rank k l kept dropped)
    (hmay : ∀ x ∈ l, MayDrop rank k l x → ∀ y ∈ l, MayKeep rank k l y → value x ≤ value y)
    {x y : α} (hx : x ∈ dropped) (hy : y ∈ kept) : value x ≤ value y :=
  hmay x (h.mem_iff.mpr (Or.inr hx)) (h.mayDrop hx) y (h.mem_iff.mpr (Or.inl hy)) (h.mayKeep hx hy)

/-- And only then, if elements of equal rank have equal values. -/
theorem le_iff_may (h : Selects rank k l kept dropped)
    (hvalue : ∀ x ∈ l, ∀ y ∈ l, rank x = rank y → value x = value y) :
    (∀ x ∈ dropped, ∀ y ∈ kept, value x ≤ value y) ↔
      ∀ x ∈ l, MayDrop rank k l x → ∀ y ∈ l, MayKeep rank k l y → value x ≤ value y := by
  constructor
  · intro hle x hx hdrop y hy hkeep
    obtain ⟨x', hx', hrankx⟩ := h.exists_dropped hx hdrop
    obtain ⟨y', hy', hranky⟩ := h.exists_kept hy hkeep
    rw [← hvalue x' (h.mem_iff.mpr (Or.inr hx')) x hx hrankx,
      ← hvalue y' (h.mem_iff.mpr (Or.inl hy')) y hy hranky]
    exact hle x' hx' y' hy'
  · exact fun hmay x hx y hy => h.le_of_may hmay hx hy

end

theorem mem_map_kept_iff {ι : Type*} {key : α → ι} (h : Selects rank k l kept dropped)
    (hnodup : (l.map key).Nodup) {x : α} (hx : x ∈ l) : key x ∈ kept.map key ↔ x ∈ kept := by
  refine ⟨fun hmem => ?_, fun hmem => List.mem_map_of_mem hmem⟩
  obtain ⟨y, hy, hkey⟩ := List.mem_map.mp hmem
  exact List.inj_on_of_nodup_map hnodup (h.mem_iff.mpr (Or.inl hy)) hx hkey ▸ hy

theorem notMem_map_kept_iff {ι : Type*} {key : α → ι} (h : Selects rank k l kept dropped)
    (hnodup : (l.map key).Nodup) {x : α} (hx : x ∈ l) : key x ∉ kept.map key ↔ x ∈ dropped := by
  have happend : (kept ++ dropped).Nodup := h.perm.nodup_iff.mpr (List.Nodup.of_map key hnodup)
  rw [h.mem_map_kept_iff hnodup hx]
  constructor
  · exact (h.mem_iff.mp hx).resolve_left
  · exact fun hd hk => (List.nodup_append.mp happend).2.2 x hk x hd rfl

end Selects

end AxiomDaemon.Lib

import AxiomDaemon.Util.Flatbuffers
import Mathlib.Algebra.Order.Ring.Nat

/-!
What the functions of the builder do to a buffer: they put bytes in front of it,
and nothing that was written before changes.

Padding makes addresses multiples of a size, while a reader counts from the
start of what was written. The two agree on what is aligned as long as memory
starts and ends at multiples of four: then neither the entries of a vtable nor
the elements of a vector are moved apart, also when the buffer grows among them.
-/

namespace AxiomDaemon.Util

open AxiomDaemon.Lib AxiomDaemon.Lib.Flatbuffers

/-- Memory starts and ends at multiples of four. It may be smaller than that only
when it is about to grow. -/
structure Flatbuffer.Aligned (fb : Flatbuffer) : Prop where
  front : 4 ∣ fb.front
  capacity : 4 ∣ fb.capacity ∨ fb.capacity ≤ 2
  minAlign : 0 < fb.minAlign

/-- Bytes were put in front. -/
structure Extends (fb fb' : Flatbuffer) (front : Bytes) : Prop where
  bytes : fb'.bytes = front ++ fb.bytes
  insideObject : fb'.insideObject = fb.insideObject
  vtable : fb'.vtable = fb.vtable
  vtables : fb'.vtables = fb.vtables
  aligned : fb.Aligned → fb'.Aligned

namespace Extends

variable {fb fb₁ fb₂ : Flatbuffer} {a b : Bytes}

theorem refl (fb : Flatbuffer) : Extends fb fb [] := ⟨rfl, rfl, rfl, rfl, id⟩

theorem trans (h : Extends fb fb₁ a) (h' : Extends fb₁ fb₂ b) : Extends fb fb₂ (b ++ a) where
  bytes := by
    rw [h'.bytes, h.bytes, List.append_assoc]
  insideObject := h'.insideObject.trans h.insideObject
  vtable := h'.vtable.trans h.vtable
  vtables := h'.vtables.trans h.vtables
  aligned := fun ha => h'.aligned (h.aligned ha)

theorem length (h : Extends fb fb₁ a) : fb₁.bytes.length = a.length + fb.bytes.length := by
  rw [h.bytes, List.length_append]

theorem length_le (h : Extends fb fb₁ a) : fb.bytes.length ≤ fb₁.bytes.length := by
  rw [h.length]
  exact Nat.le_add_left _ _

theorem at_front (h : Extends fb fb₁ a) : At fb₁.bytes fb₁.bytes.length a := by
  rw [h.bytes]
  exact Flatbuffers.at_front a fb.bytes

end Extends

theorem foldlM_extends {α : Type*} {f : Flatbuffer → α → Option Flatbuffer}
    (hf : ∀ fb fb' x, f fb x = some fb' → ∃ front, Extends fb fb' front) {l : List α}
    {fb fb' : Flatbuffer} (h : l.foldlM f fb = some fb') : ∃ front, Extends fb fb' front := by
  induction l generalizing fb with
  | nil =>
      obtain rfl := Option.some.inj h
      exact ⟨[], .refl fb⟩
  | cons x l ih =>
      rw [List.foldlM_cons] at h
      obtain ⟨next, hnext, hrest⟩ := Option.bind_eq_some_iff.mp h
      obtain ⟨_, hextends⟩ := hf fb next x hnext
      obtain ⟨_, hextends'⟩ := ih hrest
      exact ⟨_, hextends.trans hextends'⟩

theorem put_spec {fb fb' : Flatbuffer} {bytes : Bytes} (h : fb.put bytes = some fb') :
    Extends fb fb' bytes ∧ fb'.front = fb.front ∧ fb'.room + bytes.length = fb.room := by
  unfold Flatbuffer.put at h
  split at h
  · next hle =>
      obtain rfl := Option.some.inj h
      have hroom : fb.room - bytes.length + bytes.length = fb.room := Nat.sub_add_cancel hle
      refine ⟨⟨rfl, rfl, rfl, rfl, fun ha => ⟨ha.front, ?_, ha.minAlign⟩⟩, rfl, hroom⟩
      have hcapacity := ha.capacity
      simp only [Flatbuffer.capacity, List.length_append] at hcapacity ⊢
      omega
  · cases h

theorem Flatbuffer.Aligned.dvd_end {fb : Flatbuffer} (h : fb.Aligned) (hcapacity : 2 < fb.capacity)
    {m : ℕ} (hm : m ∣ 4) : m ∣ fb.pos + fb.bytes.length := by
  have hfour : 4 ∣ fb.capacity := h.capacity.resolve_right (Nat.not_le.mpr hcapacity)
  have hsum : fb.pos + fb.bytes.length = fb.front + fb.capacity := by
    simp only [Flatbuffer.pos, Flatbuffer.capacity]
    omega
  rw [hsum]
  exact hm.trans (Nat.dvd_add h.front hfour)

section Prep

variable {malloc : ℕ → ℕ} (hmalloc : ∀ n, 4 ∣ malloc n) {fb fb' : Flatbuffer}

include hmalloc

theorem nrFlatbuffersGrow_spec (h : nrFlatbuffersGrow malloc fb = some fb') :
    Extends fb fb' [] ∧ fb.room < fb'.room := by
  unfold nrFlatbuffersGrow at h
  simp only at h
  split at h
  · cases h
  · obtain rfl := Option.some.inj h
    by_cases hzero : fb.capacity * 2 = 0
    · rw [if_pos hzero]
      simp only [Flatbuffer.capacity] at hzero
      refine ⟨⟨rfl, rfl, rfl, rfl, fun ha => ⟨hmalloc _, .inr ?_, ha.minAlign⟩⟩, ?_⟩
      · simp only [Flatbuffer.capacity]
        omega
      · show fb.room < 1 - fb.bytes.length
        omega
    · rw [if_neg hzero]
      refine ⟨⟨rfl, rfl, rfl, rfl, fun ha => ⟨hmalloc _, ?_, ha.minAlign⟩⟩, ?_⟩
      · have hcapacity := ha.capacity
        simp only [Flatbuffer.capacity] at hcapacity hzero ⊢
        omega
      · simp only [Flatbuffer.capacity] at hzero ⊢
        omega

theorem growWhile_spec {need fuel : ℕ} (hfuel : need < fb.room + fuel)
    (h : growWhile malloc need fuel fb = some fb') : Extends fb fb' [] ∧ need < fb'.room := by
  induction fuel generalizing fb with
  | zero =>
      obtain rfl := Option.some.inj h
      exact ⟨.refl fb, hfuel⟩
  | succ fuel ih =>
      rw [growWhile] at h
      split at h
      · obtain ⟨grown, hgrown, hrest⟩ := Option.bind_eq_some_iff.mp h
        obtain ⟨hextends, hroom⟩ := nrFlatbuffersGrow_spec hmalloc hgrown
        obtain ⟨hextends', hroom'⟩ := ih (by omega) hrest
        exact ⟨hextends.trans hextends', hroom'⟩
      · obtain rfl := Option.some.inj h
        exact ⟨.refl fb, by omega⟩

theorem nrFlatbuffersPrep_cases {size additionalBytes : ℕ}
    (h : nrFlatbuffersPrep malloc fb size additionalBytes = some fb') :
    ∃ grown, Extends fb grown [] ∧ 2 * size + additionalBytes < grown.room ∧
      nrFlatbuffersPad grown ((grown.pos - additionalBytes - size) % size) = some fb' := by
  unfold nrFlatbuffersPrep at h
  set aligned := if size > fb.minAlign then { fb with minAlign := size } else fb with haligned
  have hstart : Extends fb aligned [] := by
    rw [haligned]
    split
    · next hlt =>
        exact ⟨rfl, rfl, rfl, rfl, fun ha => ⟨ha.front, ha.capacity, Nat.zero_lt_of_lt hlt⟩⟩
    · exact .refl fb
  obtain ⟨grown, hgrown, hpad⟩ := Option.bind_eq_some_iff.mp h
  obtain ⟨hextends, hroom⟩ := growWhile_spec hmalloc (by omega) hgrown
  exact ⟨grown, hstart.trans hextends, hroom, hpad⟩

theorem nrFlatbuffersPrep_extends {size additionalBytes : ℕ}
    (h : nrFlatbuffersPrep malloc fb size additionalBytes = some fb') :
    ∃ front, Extends fb fb' front := by
  obtain ⟨grown, hextends, _, hpad⟩ := nrFlatbuffersPrep_cases hmalloc h
  exact ⟨_, hextends.trans (put_spec hpad).1⟩

/-- After less padding than the size, there is room, and what comes before the additional
bytes is aligned. -/
theorem nrFlatbuffersPrep_spec {size additionalBytes : ℕ} (hsize : 0 < size)
    (h : nrFlatbuffersPrep malloc fb size additionalBytes = some fb') :
    ∃ pad < size, Extends fb fb' (List.replicate pad 0) ∧
      2 * size + additionalBytes < fb'.room + pad ∧
      (fb.Aligned → size ∣ 4 → size ∣ fb'.bytes.length + additionalBytes) := by
  obtain ⟨grown, hextends, hroom, hpad⟩ := nrFlatbuffersPrep_cases hmalloc h
  obtain ⟨hput, hfront, hleft⟩ := put_spec hpad
  rw [List.length_replicate] at hleft
  have hlt : (grown.pos - additionalBytes - size) % size < size := Nat.mod_lt _ hsize
  have hall : Extends fb fb'
      (List.replicate ((grown.pos - additionalBytes - size) % size) 0) := by
    have hall := hextends.trans hput
    rwa [List.append_nil] at hall
  refine ⟨_, hlt, hall, by omega, fun ha hdvd => ?_⟩
  -- the padding is what the address is too high
  have hpos : fb'.pos - additionalBytes - size =
      (grown.pos - additionalBytes - size) - (grown.pos - additionalBytes - size) % size := by
    simp only [Flatbuffer.pos, hfront] at hleft ⊢
    omega
  have hsub : size ∣ fb'.pos - additionalBytes - size := by
    rw [hpos]
    exact Nat.dvd_sub_mod _
  have hcapacity : 2 < fb'.capacity := by
    have hlength := hput.length
    rw [List.length_replicate] at hlength
    simp only [Flatbuffer.capacity]
    omega
  have hend := (hall.aligned ha).dvd_end hcapacity hdvd
  have hsplit : fb'.pos + fb'.bytes.length =
      (fb'.pos - additionalBytes - size) + (fb'.bytes.length + additionalBytes + size) := by
    simp only [Flatbuffer.pos]
    omega
  rw [hsplit] at hend
  exact Nat.dvd_add_self_right.mp ((Nat.dvd_add_right hsub).mp hend)

theorem prep_put_spec {size : ℕ} {prepared : Flatbuffer} {bytes : Bytes} (hsize : 0 < size)
    (hbytes : bytes.length = size) (hprep : nrFlatbuffersPrep malloc fb size 0 = some prepared)
    (hput : prepared.put bytes = some fb') :
    ∃ pad < size, Extends fb fb' (bytes ++ List.replicate pad 0) ∧
      (fb.Aligned → size ∣ 4 → size ∣ fb'.bytes.length) := by
  obtain ⟨pad, hpad, hextends, _, hdvd⟩ := nrFlatbuffersPrep_spec hmalloc hsize hprep
  obtain ⟨hextends', _, _⟩ := put_spec hput
  refine ⟨pad, hpad, hextends.trans hextends', fun ha hfour => ?_⟩
  rw [hextends'.length, hbytes]
  exact Nat.dvd_add (Nat.dvd_refl size) (hdvd ha hfour)

theorem nrFlatbuffersPrep_spec_of_dvd {size : ℕ} (hsize : 0 < size)
    (h : nrFlatbuffersPrep malloc fb size 0 = some fb') (ha : fb.Aligned) (hfour : size ∣ 4)
    (hdvd : size ∣ fb.bytes.length) : Extends fb fb' [] ∧ 2 * size < fb'.room := by
  obtain ⟨pad, hpad, hextends, hroom, haligned⟩ := nrFlatbuffersPrep_spec hmalloc hsize h
  have hzero : pad = 0 := by
    have hdvd' := haligned ha hfour
    rw [Nat.add_zero, hextends.length, List.length_replicate] at hdvd'
    exact Nat.eq_zero_of_dvd_of_lt ((Nat.dvd_add_left hdvd).mp hdvd') hpad
  subst hzero
  exact ⟨hextends, hroom⟩

theorem prep_put_spec_of_dvd {size : ℕ} {prepared : Flatbuffer} {bytes : Bytes} (hsize : 0 < size)
    (hbytes : bytes.length = size) (hprep : nrFlatbuffersPrep malloc fb size 0 = some prepared)
    (hput : prepared.put bytes = some fb') (ha : fb.Aligned) (hfour : size ∣ 4)
    (hdvd : size ∣ fb.bytes.length) :
    Extends fb fb' bytes ∧ size ∣ fb'.bytes.length ∧ size < fb'.room := by
  obtain ⟨hextends, hroom⟩ := nrFlatbuffersPrep_spec_of_dvd hmalloc hsize hprep ha hfour hdvd
  obtain ⟨hextends', _, hleft⟩ := put_spec hput
  have hall := hextends.trans hextends'
  rw [List.append_nil] at hall
  refine ⟨hall, ?_, by omega⟩
  rw [hall.length, hbytes]
  exact Nat.dvd_add (Nat.dvd_refl size) hdvd

theorem nrFlatbuffersPrepend_spec {ty : ScalarType} {x : ty.Value}
    (h : nrFlatbuffersPrepend malloc ty fb x = some fb') :
    ∃ pad < ty.size, Extends fb fb' (uintLE ty.size x.toNat ++ List.replicate pad 0) ∧
      (fb.Aligned → ty.size ∣ 4 → ty.size ∣ fb'.bytes.length) := by
  obtain ⟨prepared, hprep, hput⟩ := Option.bind_eq_some_iff.mp h
  exact prep_put_spec hmalloc ty.size_pos (length_uintLE _ _) hprep hput

theorem nrFlatbuffersPrependU16_extends {x : ℕ}
    (h : nrFlatbuffersPrependU16 malloc fb x = some fb') : ∃ front, Extends fb fb' front := by
  obtain ⟨prepared, hprep, hput⟩ := Option.bind_eq_some_iff.mp h
  obtain ⟨pad, _, hextends, _⟩ :=
    prep_put_spec hmalloc Nat.two_pos (length_uintLE 2 x) hprep hput
  exact ⟨_, hextends⟩

theorem nrFlatbuffersPrependU16_spec {x : ℕ} (h : nrFlatbuffersPrependU16 malloc fb x = some fb')
    (ha : fb.Aligned) (hdvd : 2 ∣ fb.bytes.length) :
    Extends fb fb' (uintLE 2 x) ∧ 2 ∣ fb'.bytes.length := by
  obtain ⟨prepared, hprep, hput⟩ := Option.bind_eq_some_iff.mp h
  obtain ⟨hextends, hdvd', _⟩ := prep_put_spec_of_dvd hmalloc Nat.two_pos (length_uintLE _ _)
    hprep hput ha (by decide) hdvd
  exact ⟨hextends, hdvd'⟩

theorem nrFlatbuffersPrependUoffset_spec {x : ℕ}
    (h : nrFlatbuffersPrependUoffset malloc fb x = some fb') :
    RefAt fb'.bytes fb'.bytes.length x ∧
      ∃ pad < 4, Extends fb fb' (uintLE 4 (fb'.bytes.length - x) ++ List.replicate pad 0) ∧
        (fb.Aligned → 4 ∣ fb'.bytes.length) := by
  obtain ⟨prepared, hprep, hrest⟩ := Option.bind_eq_some_iff.mp h
  split at hrest
  · next hle =>
      obtain ⟨hextends, _, _⟩ := put_spec hrest
      have hlength := hextends.length
      rw [length_uintLE] at hlength
      have hvalue : nrFlatbuffersLen prepared - x + 4 = fb'.bytes.length - x := by
        unfold nrFlatbuffersLen at hle ⊢
        omega
      unfold nrFlatbuffersPutU32 at hrest
      rw [hvalue] at hrest
      obtain ⟨pad, hpad, hall, hdvd⟩ :=
        prep_put_spec hmalloc (by decide) (length_uintLE _ _) hprep hrest
      refine ⟨⟨?_, hall.at_front.left⟩, pad, hpad, hall, fun ha => hdvd ha (Nat.dvd_refl 4)⟩
      unfold nrFlatbuffersLen at hle
      omega
  · cases hrest

theorem nrFlatbuffersPrependUoffset_extends {x : ℕ}
    (h : nrFlatbuffersPrependUoffset malloc fb x = some fb') :
    ∃ front, Extends fb fb' front := by
  obtain ⟨_, _, _, hextends, _⟩ := nrFlatbuffersPrependUoffset_spec hmalloc h
  exact ⟨_, hextends⟩

theorem nrFlatbuffersPrependUoffset_spec_of_dvd {x : ℕ}
    (h : nrFlatbuffersPrependUoffset malloc fb x = some fb') (ha : fb.Aligned)
    (hdvd : 4 ∣ fb.bytes.length) :
    ∃ word, word.length = 4 ∧ Extends fb fb' word ∧ 4 ∣ fb'.bytes.length ∧ 4 < fb'.room := by
  obtain ⟨prepared, hprep, hrest⟩ := Option.bind_eq_some_iff.mp h
  split at hrest
  · exact ⟨_, length_uintLE _ _, prep_put_spec_of_dvd hmalloc (by decide) (length_uintLE _ _)
      hprep hrest ha (Nat.dvd_refl 4) hdvd⟩
  · cases hrest

end Prep

/-! ### Texts, bytes and vectors -/

theorem nrFlatbuffersVectorEnd_spec {fb fb' : Flatbuffer} {numElems offset : ℕ}
    (h : nrFlatbuffersVectorEnd fb numElems = some (offset, fb')) :
    Extends fb fb' (uintLE 4 numElems) ∧ offset = fb'.bytes.length % 2 ^ 32 := by
  obtain ⟨ended, hput, hrest⟩ := Option.bind_eq_some_iff.mp h
  obtain ⟨rfl, rfl⟩ := Prod.mk.inj (Option.some.inj hrest)
  exact ⟨(put_spec hput).1, rfl⟩

section Pieces

variable {malloc : ℕ → ℕ} (hmalloc : ∀ n, 4 ∣ malloc n) {fb fb' : Flatbuffer} {offset : ℕ}

include hmalloc

theorem nrFlatbuffersPrependString_spec {s : Bytes}
    (h : nrFlatbuffersPrependString malloc fb (some s) = some (offset, fb')) :
    offset = fb'.bytes.length % 2 ^ 32 ∧
      ∃ pad, pad.length < 4 ∧ Extends fb fb' (uintLE 4 s.length ++ (s ++ [0]) ++ pad) := by
  obtain ⟨prepared, hprep, hrest⟩ := Option.bind_eq_some_iff.mp h
  obtain ⟨filled, hput, hend⟩ := Option.bind_eq_some_iff.mp hrest
  obtain ⟨pad, hpad, hextends, _, _⟩ := nrFlatbuffersPrep_spec hmalloc (by decide) hprep
  obtain ⟨hextends', hoffset⟩ := nrFlatbuffersVectorEnd_spec hend
  have hall := (hextends.trans (put_spec hput).1).trans hextends'
  rw [← List.append_assoc] at hall
  refine ⟨hoffset, _, ?_, hall⟩
  rw [List.length_replicate]
  exact hpad

/-- The elements of a vector follow each other, the last one written first. -/
theorem foldlM_prependUoffset_spec {offsets : List ℕ} (ha : fb.Aligned)
    (hdvd : 4 ∣ fb.bytes.length)
    (h : offsets.reverse.foldlM (nrFlatbuffersPrependUoffset malloc) fb = some fb') :
    RefsAt fb'.bytes fb'.bytes.length offsets ∧
      ∃ words, Extends fb fb' words ∧ 4 ∣ fb'.bytes.length := by
  induction offsets generalizing fb' with
  | nil =>
      obtain rfl := Option.some.inj h
      exact ⟨refsAt_nil, [], .refl fb, hdvd⟩
  | cons offset offsets ih =>
      rw [List.reverse_cons, List.foldlM_append] at h
      obtain ⟨behind, hbehind, hlast⟩ := Option.bind_eq_some_iff.mp h
      have hlast : nrFlatbuffersPrependUoffset malloc behind offset = some fb' := by
        simpa using hlast
      obtain ⟨hrefs, words, hextends, hdvd'⟩ := ih hbehind
      obtain ⟨word, hword, hextends', hdvd'', _⟩ :=
        nrFlatbuffersPrependUoffset_spec_of_dvd hmalloc hlast (hextends.aligned ha) hdvd'
      have hplace : fb'.bytes.length - 4 = behind.bytes.length := by
        rw [hextends'.length, hword, Nat.add_sub_cancel_left]
      refine ⟨?_, _, hextends.trans hextends', hdvd''⟩
      apply RefsAt.cons (nrFlatbuffersPrependUoffset_spec hmalloc hlast).1
      rw [hplace, hextends'.bytes]
      exact hrefs.prepend word

theorem nrFlatbuffersVectorBegin_spec {numElems : ℕ}
    (h : nrFlatbuffersVectorBegin malloc fb 4 numElems 4 = some fb') :
    ∃ pad, Extends fb fb' pad ∧ (fb.Aligned → 4 ∣ fb'.bytes.length) := by
  obtain ⟨prepared, hprep, hprep'⟩ := Option.bind_eq_some_iff.mp h
  obtain ⟨_, _, hextends, _, _⟩ := nrFlatbuffersPrep_spec hmalloc (by decide) hprep
  obtain ⟨_, _, hextends', _, hdvd⟩ := nrFlatbuffersPrep_spec hmalloc (by decide) hprep'
  refine ⟨_, hextends.trans hextends', fun ha => ?_⟩
  exact (Nat.dvd_add_left (Nat.dvd_mul_right 4 numElems)).mp
    (hdvd (hextends.aligned ha) (Nat.dvd_refl 4))

theorem prependOffsets_extends {offsets : List ℕ}
    (h : prependOffsets malloc fb offsets = some (offset, fb')) :
    offset = fb'.bytes.length % 2 ^ 32 ∧ ∃ front, Extends fb fb' front := by
  obtain ⟨begun, hbegin, hrest⟩ := Option.bind_eq_some_iff.mp h
  obtain ⟨filled, hfill, hend⟩ := Option.bind_eq_some_iff.mp hrest
  obtain ⟨_, hextends, _⟩ := nrFlatbuffersVectorBegin_spec hmalloc hbegin
  obtain ⟨_, hextends'⟩ :=
    foldlM_extends (fun _ _ _ => nrFlatbuffersPrependUoffset_extends hmalloc) hfill
  obtain ⟨hextends'', hoffset⟩ := nrFlatbuffersVectorEnd_spec hend
  exact ⟨hoffset, _, (hextends.trans hextends').trans hextends''⟩

theorem prependOffsets_spec {offsets : List ℕ} (ha : fb.Aligned)
    (h : prependOffsets malloc fb offsets = some (offset, fb')) :
    (Piece.vector offsets).Holds fb'.bytes fb'.bytes.length := by
  obtain ⟨begun, hbegin, hrest⟩ := Option.bind_eq_some_iff.mp h
  obtain ⟨filled, hfill, hend⟩ := Option.bind_eq_some_iff.mp hrest
  obtain ⟨_, hextends, hdvd⟩ := nrFlatbuffersVectorBegin_spec hmalloc hbegin
  obtain ⟨hrefs, _⟩ := foldlM_prependUoffset_spec hmalloc (hextends.aligned ha) (hdvd ha) hfill
  obtain ⟨hextends', _⟩ := nrFlatbuffersVectorEnd_spec hend
  have hplace : fb'.bytes.length - 4 = filled.bytes.length := by
    rw [hextends'.length, length_uintLE, Nat.add_sub_cancel_left]
  refine ⟨hextends'.at_front, ?_⟩
  rw [hplace, hextends'.bytes]
  exact hrefs.prepend _

theorem nrFlatbuffersFinish_spec {root : ℕ} (h : nrFlatbuffersFinish malloc fb root = some fb') :
    RefAt fb'.bytes fb'.bytes.length root ∧ ∃ front, Extends fb fb' front := by
  obtain ⟨prepared, hprep, hrest⟩ := Option.bind_eq_some_iff.mp h
  obtain ⟨_, hextends⟩ := nrFlatbuffersPrep_extends hmalloc hprep
  obtain ⟨href, _, _, hextends', _⟩ := nrFlatbuffersPrependUoffset_spec hmalloc hrest
  exact ⟨href, _, hextends.trans hextends'⟩

end Pieces

end AxiomDaemon.Util

import Mathlib.Data.List.Basic

/-!
Blocks of memory cells as lists, with the three operations C code performs on
them: `memmove` inside a block, `memcpy` into a block, and `realloc`. What a
client wants to know about a block is the prefix it has filled, so each lemma
says what a prefix of the result is.
-/

namespace AxiomDaemon.Lib

variable {α : Type*}

/-- `memmove (b + dst, b + src, n)`. -/
def blockMove (b : List α) (dst src n : ℕ) : List α :=
  b.take dst ++ (b.drop src).take n ++ b.drop (dst + n)

/-- `memcpy (b + dst, source, length source)`. -/
def blockCopy (b : List α) (dst : ℕ) (source : List α) : List α :=
  b.take dst ++ source ++ b.drop (dst + source.length)

/-- `realloc` to `n` cells; cells that did not exist before hold `fill`. -/
def blockResize (b : List α) (n : ℕ) (fill : α) : List α :=
  b.take n ++ List.replicate (n - b.length) fill

@[simp] theorem length_blockMove {b : List α} {dst src n : ℕ}
    (hdst : dst + n ≤ b.length) (hsrc : src + n ≤ b.length) :
    (blockMove b dst src n).length = b.length := by
  simp [blockMove]
  omega

@[simp] theorem length_blockCopy {b source : List α} {dst : ℕ}
    (h : dst + source.length ≤ b.length) :
    (blockCopy b dst source).length = b.length := by
  simp [blockCopy]
  omega

@[simp] theorem length_blockResize (b : List α) (n : ℕ) (fill : α) :
    (blockResize b n fill).length = n := by
  simp [blockResize]
  omega

theorem take_blockCopy (b source : List α) (dst : ℕ)
    (h : dst + source.length ≤ b.length) :
    (blockCopy b dst source).take (dst + source.length) = b.take dst ++ source := by
  have hlen : (b.take dst ++ source).length = dst + source.length := by
    simp; omega
  rw [blockCopy, ← hlen, List.take_left]

theorem take_blockCopy_front {b source : List α} {dst : ℕ} (h : dst ≤ b.length) :
    (blockCopy b dst source).take dst = b.take dst := by
  rw [blockCopy, List.append_assoc]
  exact List.take_left' (List.length_take_of_le h)

theorem length_le_blockCopy (b source : List α) (dst : ℕ) :
    b.length ≤ (blockCopy b dst source).length := by
  simp only [blockCopy, List.length_append, List.length_take, List.length_drop]
  omega

theorem blockCopy_append {a b c source : List α} (h : source.length = b.length) :
    blockCopy (a ++ (b ++ c)) a.length source = a ++ (source ++ c) := by
  rw [blockCopy, List.take_left, h, ← List.drop_drop, List.drop_left, List.drop_left,
    List.append_assoc]

/-- Closing a gap of one cell at `i` in the filled prefix of length `n`. -/
theorem take_blockMove_erase {b : List α} {i n : ℕ} (hi : i < n) (hn : n ≤ b.length) :
    (blockMove b i (i + 1) (n - i - 1)).take (n - 1) = (b.take n).eraseIdx i := by
  have hlen : (b.take i ++ (b.drop (i + 1)).take (n - i - 1)).length = n - 1 := by
    simp; omega
  rw [blockMove, ← hlen, List.take_left, List.eraseIdx_eq_take_drop_succ, List.take_take,
    List.drop_take, Nat.min_eq_left (by omega), Nat.sub_sub]

theorem insertIdx_append_length (p s : List α) (x : α) :
    (p ++ s).insertIdx p.length x = p ++ x :: s := by
  induction p with
  | nil => exact List.insertIdx_zero
  | cons y p ih => rw [List.cons_append, List.length_cons, List.insertIdx_succ_cons, ih]; rfl

/-- Opening a gap of one cell at `i` in the filled prefix of length `n` and
filling it. -/
theorem take_blockMove_insert {b : List α} {i n : ℕ} {x : α} (hi : i ≤ n) (hn : n < b.length) :
    ((blockMove b (i + 1) i (n - i)).set i x).take (n + 1) = (b.take n).insertIdx i x := by
  have hlen : (b.take i).length = i := List.length_take_of_le (by omega)
  have hpre : b.take (i + 1) = b.take i ++ [b[i]] := by
    rw [List.take_add_one, List.getElem?_eq_getElem (by omega)]
    rfl
  have hset : (blockMove b (i + 1) i (n - i)).set i x =
      b.take i ++ x :: (b.drop i).take (n - i) ++ b.drop (i + 1 + (n - i)) := by
    rw [blockMove, hpre, List.append_assoc, List.append_assoc, List.set_append_right i x
      (Nat.le_of_eq hlen), hlen, Nat.sub_self]
    simp
  have hfull : (b.take i ++ x :: (b.drop i).take (n - i)).length = n + 1 := by
    simp
    omega
  have hsplit : b.take n = b.take i ++ (b.drop i).take (n - i) := by
    rw [← List.take_add, Nat.add_sub_cancel' hi]
  have hins := insertIdx_append_length (b.take i) ((b.drop i).take (n - i)) x
  rw [hset, ← hfull, List.take_left, hsplit, ← hins, hlen]

/-- A reallocation keeps the prefix that fits into the new block. -/
theorem take_blockResize {b : List α} {n k : ℕ} {fill : α} (hk : k ≤ n) (hb : k ≤ b.length) :
    (blockResize b n fill).take k = b.take k := by
  rw [blockResize, List.take_append_of_le_length (by simp; omega), List.take_take,
    Nat.min_eq_left hk]

/-- A part of a block is in the new block where it was if that reaches so far. -/
theorem take_drop_blockResize {b : List α} {m p n : ℕ} {fill : α} (hm : p + n ≤ m)
    (hb : p + n ≤ b.length) : ((blockResize b m fill).drop p).take n = (b.drop p).take n := by
  have hslice : ∀ c : List α, (c.drop p).take n = (c.take (p + n)).drop p := by
    intro c
    rw [List.drop_take, Nat.add_sub_cancel_left]
  rw [hslice, hslice, take_blockResize hm hb]

theorem take_blockMove_front {b : List α} {src n : ℕ} (h : src + n ≤ b.length) :
    (blockMove b 0 src n).take n = (b.drop src).take n := by
  have hlen : ((b.drop src).take n).length = n := by
    simp
    omega
  rw [blockMove, List.take_zero, List.nil_append]
  exact List.take_left' hlen

theorem take_set_of_le {b : List α} {i k : ℕ} {x : α} (h : k ≤ i) :
    (b.set i x).take k = b.take k := by
  rw [List.take_set, List.set_eq_of_length_le (by simp; omega)]

theorem take_succ_set {b : List α} {n : ℕ} {x : α} (h : n < b.length) :
    (b.set n x).take (n + 1) = b.take n ++ [x] := by
  rw [List.take_add_one, take_set_of_le (Nat.le_refl n)]
  simp [h]

/-! ### Texts with a terminator -/

theorem drop_blockCopy {b source : List α} {dst : ℕ} (h : dst ≤ b.length) :
    (blockCopy b dst source).drop dst = source ++ b.drop (dst + source.length) := by
  have hlen : (b.take dst).length = dst := List.length_take_of_le h
  rw [blockCopy, List.append_assoc, List.drop_append_of_le_length (Nat.le_of_eq hlen.symm),
    List.drop_of_length_le (Nat.le_of_eq hlen), List.nil_append]

theorem drop_blockCopy_of_le {b source : List α} {k dst : ℕ} (hk : k ≤ dst)
    (h : dst ≤ b.length) :
    (blockCopy b dst source).drop k = blockCopy (b.drop k) (dst - k) source := by
  have hlen : k ≤ (b.take dst).length := by
    rw [List.length_take]
    omega
  rw [blockCopy, List.append_assoc, List.drop_append_of_le_length hlen, List.drop_take,
    blockCopy, List.append_assoc, List.drop_drop]
  congr 3
  omega

variable [DecidableEq α]

/-- The text that starts at `k`: the cells up to the terminator. -/
def textAt (zero : α) (b : List α) (k : ℕ) : List α := (b.drop k).takeWhile (· ≠ zero)

theorem not_mem_textAt (zero : α) (b : List α) (k : ℕ) : zero ∉ textAt zero b k := by
  intro h
  have hall : ((b.drop k).takeWhile (· ≠ zero)).all (· ≠ zero) = true := List.all_takeWhile
  exact of_decide_eq_true (List.all_eq_true.mp hall zero h) rfl

theorem textAt_of_drop {zero : α} {b s rest : List α} {k : ℕ} (hs : zero ∉ s)
    (h : b.drop k = s ++ zero :: rest) : textAt zero b k = s := by
  have hall : ∀ x ∈ s, (decide (x ≠ zero)) = true := by
    intro x hx
    exact decide_eq_true fun heq => hs (heq ▸ hx)
  rw [textAt, h, List.takeWhile_append_of_pos hall]
  simp

/-- A text with its terminator is read back from where it was copied to. -/
theorem textAt_blockCopy {zero : α} {b s : List α} {dst : ℕ} (hs : zero ∉ s)
    (h : dst ≤ b.length) : textAt zero (blockCopy b dst (s ++ [zero])) dst = s := by
  have hdrop : (blockCopy b dst (s ++ [zero])).drop dst =
      s ++ zero :: b.drop (dst + (s ++ [zero]).length) := by
    rw [drop_blockCopy h, List.append_assoc]
    rfl
  exact textAt_of_drop hs hdrop

/-- A copy behind a text and its terminator leaves the text alone. -/
theorem textAt_blockCopy_behind {zero : α} {b s source rest : List α} {k dst : ℕ}
    (hs : zero ∉ s) (hb : b.drop k = s ++ zero :: rest) (hdst : k + s.length < dst)
    (h : dst ≤ b.length) : textAt zero (blockCopy b dst source) k = s := by
  have hfit : (s ++ [zero]).length ≤ dst - k := by
    rw [List.length_append, List.length_singleton]
    omega
  have hsplit : b.drop k = (s ++ [zero]) ++ rest := by
    rw [hb, List.append_assoc]
    rfl
  have hdrop : (blockCopy b dst source).drop k =
      s ++ zero :: (rest.take (dst - k - (s ++ [zero]).length) ++ source ++
        (b.drop k).drop (dst - k + source.length)) := by
    rw [drop_blockCopy_of_le (by omega) h, blockCopy]
    conv_lhs => rw [hsplit, List.take_append, List.take_of_length_le hfit, ← hsplit]
    simp only [List.append_assoc, List.nil_append, List.cons_append]
  exact textAt_of_drop hs hdrop

/-! ### Linear search -/

/-- The first of the `fuel` positions from `i` on that satisfies `p`. -/
def findFrom (p : ℕ → Prop) [DecidablePred p] : (fuel i : ℕ) → Option ℕ
  | 0, _ => none
  | fuel + 1, i => if p i then some i else findFrom p fuel (i + 1)

theorem findFrom_eq_some {p : ℕ → Prop} [DecidablePred p] {fuel i j : ℕ}
    (h : findFrom p fuel i = some j) : i ≤ j ∧ j < i + fuel ∧ p j := by
  induction fuel generalizing i with
  | zero => simp [findFrom] at h
  | succ fuel ih =>
      simp only [findFrom] at h
      split at h
      · next hp =>
          obtain rfl := Option.some.inj h
          exact ⟨Nat.le_refl i, by omega, hp⟩
      · obtain ⟨hle, hlt, hp⟩ := ih h
        exact ⟨by omega, by omega, hp⟩

theorem findFrom_eq_none {p : ℕ → Prop} [DecidablePred p] {fuel i : ℕ}
    (h : findFrom p fuel i = none) {j : ℕ} (hi : i ≤ j) (hj : j < i + fuel) : ¬ p j := by
  induction fuel generalizing i with
  | zero => omega
  | succ fuel ih =>
      simp only [findFrom] at h
      split at h
      · cases h
      · next hp =>
          by_cases hij : i = j
          · exact hij ▸ hp
          · exact ih h (by omega) (by omega)

/-- The last index of a list whose element satisfies `p`. -/
def lastIdx? {β : Type*} (p : β → Bool) : List β → Option ℕ
  | [] => none
  | x :: l =>
      match lastIdx? p l with
      | some i => some (i + 1)
      | none => if p x then some 0 else none

theorem lastIdx?_eq_none_iff {β : Type*} {p : β → Bool} {l : List β} :
    lastIdx? p l = none ↔ ∀ x ∈ l, p x = false := by
  induction l with
  | nil => simp [lastIdx?]
  | cons x l ih =>
      rw [List.forall_mem_cons, ← ih, lastIdx?]
      cases lastIdx? p l with
      | some i => simp
      | none => simp

theorem lastIdx?_cons_eq_zero_iff {β : Type*} {p : β → Bool} {x : β} {l : List β} :
    lastIdx? p (x :: l) = some 0 ↔ p x = true ∧ lastIdx? p l = none := by
  rw [lastIdx?]
  cases lastIdx? p l with
  | some k => simp
  | none => simp

theorem lastIdx?_cons_eq_succ_iff {β : Type*} {p : β → Bool} {x : β} {l : List β} {i : ℕ} :
    lastIdx? p (x :: l) = some (i + 1) ↔ lastIdx? p l = some i := by
  rw [lastIdx?]
  cases lastIdx? p l with
  | some k => simp
  | none => simp

/-- The last index satisfies `p` and no index behind it does. -/
theorem lastIdx?_eq_some_iff {β : Type*} {p : β → Bool} {l : List β} {i : ℕ} :
    lastIdx? p l = some i ↔
      (∃ x, l[i]? = some x ∧ p x = true) ∧ ∀ j x, i < j → l[j]? = some x → p x = false := by
  induction l generalizing i with
  | nil => simp [lastIdx?]
  | cons y l ih =>
      cases i with
      | zero =>
          rw [lastIdx?_cons_eq_zero_iff, lastIdx?_eq_none_iff]
          constructor
          · rintro ⟨hy, hl⟩
            refine ⟨⟨y, rfl, hy⟩, fun j x hj hx => ?_⟩
            cases j with
            | zero => exact absurd hj (Nat.lt_irrefl 0)
            | succ j => exact hl x (List.mem_of_getElem? hx)
          · rintro ⟨⟨x, hx, hpx⟩, hlast⟩
            obtain rfl := Option.some.inj hx
            refine ⟨hpx, fun z hz => ?_⟩
            obtain ⟨j, hj⟩ := List.getElem?_of_mem hz
            exact hlast (j + 1) z (Nat.succ_pos j) hj
      | succ i =>
          rw [lastIdx?_cons_eq_succ_iff, ih]
          refine and_congr_right fun _ => ⟨fun h j x hj hx => ?_, fun h j x hj hx => ?_⟩
          · cases j with
            | zero => exact absurd hj (Nat.not_lt_zero (i + 1))
            | succ j => exact h j x (Nat.lt_of_succ_lt_succ hj) hx
          · exact h (j + 1) x (Nat.succ_lt_succ hj) hx

end AxiomDaemon.Lib

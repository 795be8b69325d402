import Mathlib.Data.List.Nodup
import Mathlib.Data.Nat.Notation

/-!
Bytes as symbols of an alphabet of 64: three bytes become four symbols, and the
last group is filled up with a symbol that is not of the alphabet.
-/

namespace AxiomDaemon.Lib

/-- The values of the four symbols for three bytes. -/
def quantum (a b c : UInt8) : List ℕ :=
  [a.toNat / 4, a.toNat % 4 * 16 + b.toNat / 16, b.toNat % 16 * 4 + c.toNat / 64, c.toNat % 64]

theorem quantum_lt {a b c : UInt8} {v : ℕ} (h : v ∈ quantum a b c) : v < 64 := by
  have ha := a.toNat_lt
  have hb := b.toNat_lt
  have hc := c.toNat_lt
  simp only [quantum, List.mem_cons, List.not_mem_nil, or_false] at h
  omega

/-- The three bytes of a number of 24 bits. -/
def bytesOf (x : ℕ) : List UInt8 :=
  [UInt8.ofNat (x / 65536), UInt8.ofNat (x / 256), UInt8.ofNat x]

theorem bytesOf_quantum (a b c : UInt8) :
    bytesOf ((quantum a b c).foldl (fun x v => x * 64 + v) 0) = [a, b, c] := by
  have ha := a.toNat_lt
  have hb := b.toNat_lt
  have hc := c.toNat_lt
  have hx : (quantum a b c).foldl (fun x v => x * 64 + v) 0 =
      a.toNat * 65536 + b.toNat * 256 + c.toNat := by
    simp only [quantum, List.foldl_cons, List.foldl_nil]
    omega
  have hbyte : ∀ {x : ℕ} {d : UInt8}, x % 256 = d.toNat → UInt8.ofNat x = d := by
    intro x d h
    rw [← UInt8.toNat_inj, UInt8.toNat_ofNat']
    exact h
  rw [hx, bytesOf, hbyte (d := a) (by omega), hbyte (d := b) (by omega), hbyte (d := c) (by omega)]

structure Alphabet (α : Type*) where
  symbols : List α
  pad : α
  length_eq : symbols.length = 64
  nodup : symbols.Nodup
  pad_notMem : pad ∉ symbols

namespace Alphabet

variable {α : Type*} (alphabet : Alphabet α)

def symbol (v : ℕ) : α := alphabet.symbols.getD v alphabet.pad

theorem symbol_eq {v : ℕ} (h : v < 64) :
    alphabet.symbol v = alphabet.symbols.get ⟨v, alphabet.length_eq ▸ h⟩ := by
  rw [symbol, List.getD_eq_getElem?_getD, List.getElem?_eq_getElem, Option.getD_some]
  rfl

theorem symbol_mem {v : ℕ} (h : v < 64) : alphabet.symbol v ∈ alphabet.symbols := by
  rw [alphabet.symbol_eq h]
  exact List.get_mem _ _

theorem symbol_ne_pad {v : ℕ} (h : v < 64) : alphabet.symbol v ≠ alphabet.pad :=
  fun heq => alphabet.pad_notMem (heq ▸ alphabet.symbol_mem h)

/-! ### Writing -/

def encode : List UInt8 → List α
  | [] => []
  | [a] => ((quantum a 0 0).take 2).map alphabet.symbol ++ [alphabet.pad, alphabet.pad]
  | [a, b] => ((quantum a b 0).take 3).map alphabet.symbol ++ [alphabet.pad]
  | a :: b :: c :: bytes => (quantum a b c).map alphabet.symbol ++ encode bytes

theorem mem_encode {s : α} {bytes : List UInt8} (h : s ∈ alphabet.encode bytes) :
    s ∈ alphabet.symbols ∨ s = alphabet.pad := by
  have hmap : ∀ {a b c : UInt8} {vs : List ℕ}, vs ⊆ quantum a b c →
      s ∈ vs.map alphabet.symbol → s ∈ alphabet.symbols := by
    intro a b c vs hvs hs
    obtain ⟨v, hv, rfl⟩ := List.mem_map.mp hs
    exact alphabet.symbol_mem (quantum_lt (hvs hv))
  fun_induction encode alphabet bytes with
  | case1 => cases h
  | case2 a =>
      rcases List.mem_append.mp h with h | h
      · exact Or.inl (hmap (List.take_subset 2 (quantum a 0 0)) h)
      · exact Or.inr (by simpa using h)
  | case3 a b =>
      rcases List.mem_append.mp h with h | h
      · exact Or.inl (hmap (List.take_subset 3 (quantum a b 0)) h)
      · exact Or.inr (by simpa using h)
  | case4 a b c bytes ih =>
      rcases List.mem_append.mp h with h | h
      · exact Or.inl (hmap (List.Subset.refl _) h)
      · exact ih h

/-- How many symbols fill up the last group. -/
def pads (n : ℕ) : ℕ := (3 - n % 3) % 3

/-- The symbols of the alphabet come first, and the groups are full. -/
theorem exists_encode_eq (bytes : List UInt8) :
    ∃ body, alphabet.encode bytes = body ++ List.replicate (pads bytes.length) alphabet.pad ∧
      (∀ s ∈ body, s ≠ alphabet.pad) ∧
      body.length + pads bytes.length = 4 * ((bytes.length + 2) / 3) := by
  have hbody : ∀ {a b c : UInt8} {vs : List ℕ}, vs ⊆ quantum a b c →
      ∀ s ∈ vs.map alphabet.symbol, s ≠ alphabet.pad := by
    intro a b c vs hvs s hs
    obtain ⟨v, hv, rfl⟩ := List.mem_map.mp hs
    exact alphabet.symbol_ne_pad (quantum_lt (hvs hv))
  fun_induction encode alphabet bytes with
  | case1 => exact ⟨[], rfl, nofun, rfl⟩
  | case2 a =>
      exact ⟨_, rfl, hbody (List.take_subset 2 (quantum a 0 0)), by simp [quantum, pads]⟩
  | case3 a b =>
      exact ⟨_, rfl, hbody (List.take_subset 3 (quantum a b 0)), by simp [quantum, pads]⟩
  | case4 a b c bytes ih =>
      obtain ⟨body, heq, hne, hlength⟩ := ih
      have hpads : pads (a :: b :: c :: bytes).length = pads bytes.length := by
        simp only [pads, List.length_cons]
        omega
      refine ⟨(quantum a b c).map alphabet.symbol ++ body, ?_, ?_, ?_⟩
      · rw [heq, hpads, List.append_assoc]
      · intro s hs
        rcases List.mem_append.mp hs with hs | hs
        · exact hbody (List.Subset.refl _) s hs
        · exact hne s hs
      · rw [hpads, List.length_append, Nat.add_assoc, hlength]
        simp only [quantum, List.map_cons, List.map_nil, List.length_cons, List.length_nil]
        omega

/-! ### Reading -/

variable [DecidableEq α]

def value (s : α) : ℕ := alphabet.symbols.idxOf s

theorem value_symbol {v : ℕ} (h : v < 64) : alphabet.value (alphabet.symbol v) = v := by
  rw [value, alphabet.symbol_eq h, List.get_eq_getElem]
  exact alphabet.nodup.idxOf_getElem v _

/-- One more symbol; what is neither of the alphabet nor fills up is passed
over. -/
def readSymbol (x : ℕ) (s : α) : ℕ :=
  if s ∈ alphabet.symbols then x * 64 + alphabet.value s
  else if s = alphabet.pad then x * 64
  else x

theorem readSymbol_symbol {v : ℕ} (h : v < 64) (x : ℕ) :
    alphabet.readSymbol x (alphabet.symbol v) = x * 64 + v := by
  rw [readSymbol, if_pos (alphabet.symbol_mem h), alphabet.value_symbol h]

theorem readSymbol_pad (x : ℕ) : alphabet.readSymbol x alphabet.pad = x * 64 := by
  rw [readSymbol, if_neg alphabet.pad_notMem, if_pos rfl]

/-- The three bytes of four symbols. -/
def decodeQuantum (src : List α) : List UInt8 :=
  bytesOf ((src.take 4).foldl alphabet.readSymbol 0)

theorem foldl_readSymbol {vs : List ℕ} (h : ∀ v ∈ vs, v < 64) (x : ℕ) :
    (vs.map alphabet.symbol).foldl alphabet.readSymbol x = vs.foldl (fun x v => x * 64 + v) x := by
  induction vs generalizing x with
  | nil => rfl
  | cons v vs ih =>
      rw [List.map_cons, List.foldl_cons, List.foldl_cons,
        alphabet.readSymbol_symbol (h v List.mem_cons_self)]
      exact ih (fun u hu => h u (List.mem_cons_of_mem v hu)) _

/-- Four symbols for three bytes are read back, whatever follows. -/
theorem decodeQuantum_append (a b c : UInt8) (rest : List α) :
    alphabet.decodeQuantum ((quantum a b c).map alphabet.symbol ++ rest) = [a, b, c] := by
  have htake : ((quantum a b c).map alphabet.symbol ++ rest).take 4 =
      (quantum a b c).map alphabet.symbol := rfl
  rw [decodeQuantum, htake, alphabet.foldl_readSymbol fun v hv => quantum_lt hv, bytesOf_quantum]

/-- A group that is filled up is read as the values that are missing were zero. -/
theorem decodeQuantum_padded {vs : List ℕ} (h : ∀ v ∈ vs, v < 64) {n : ℕ}
    (hlength : vs.length + n = 4) :
    alphabet.decodeQuantum (vs.map alphabet.symbol ++ List.replicate n alphabet.pad) =
      bytesOf ((vs ++ List.replicate n 0).foldl (fun x v => x * 64 + v) 0) := by
  have hpads : ∀ (n x : ℕ), (List.replicate n alphabet.pad).foldl alphabet.readSymbol x =
      (List.replicate n 0).foldl (fun x v => x * 64 + v) x := by
    intro n
    induction n with
    | zero => exact fun _ => rfl
    | succ n ih =>
        intro x
        rw [List.replicate_succ, List.replicate_succ, List.foldl_cons, List.foldl_cons,
          alphabet.readSymbol_pad]
        exact ih _
  have htake : (vs.map alphabet.symbol ++ List.replicate n alphabet.pad).take 4 =
      vs.map alphabet.symbol ++ List.replicate n alphabet.pad := by
    have hfour : (vs.map alphabet.symbol ++ List.replicate n alphabet.pad).length = 4 := by
      rw [List.length_append, List.length_map, List.length_replicate, hlength]
    exact List.take_of_length_le (Nat.le_of_eq hfour)
  rw [decodeQuantum, htake, List.foldl_append, List.foldl_append, alphabet.foldl_readSymbol h,
    hpads]

/-- `n` groups are read whole, and of the group behind them the first `last`
bytes. -/
def decodeQuanta (last : ℕ) : ℕ → List α → List UInt8
  | 0, src => (alphabet.decodeQuantum src).take last
  | n + 1, src => alphabet.decodeQuantum src ++ decodeQuanta last n (src.drop 4)

/-! ### Reading what was written -/

theorem decodeQuanta_encode {bytes : List UInt8} (hne : bytes ≠ []) :
    alphabet.decodeQuanta (3 - pads bytes.length) ((bytes.length + 2) / 3 - 1)
      (alphabet.encode bytes) = bytes := by
  have hlt : ∀ {a b c : UInt8} (n : ℕ), ∀ v ∈ (quantum a b c).take n, v < 64 :=
    fun n v hv => quantum_lt (List.take_subset n _ hv)
  fun_induction encode alphabet bytes with
  | case1 => exact absurd rfl hne
  | case2 a =>
      have hlast := alphabet.decodeQuantum_padded (n := 2) (hlt (a := a) (b := 0) (c := 0) 2) rfl
      have hgroup : (quantum a 0 0).take 2 ++ List.replicate 2 0 = quantum a 0 0 := rfl
      rw [hgroup, bytesOf_quantum] at hlast
      have hpads : 3 - pads [a].length = 1 := by simp [pads]
      have hgroups : ([a].length + 2) / 3 - 1 = 0 := by simp
      rw [hpads, hgroups]
      exact congrArg (List.take 1) hlast
  | case3 a b =>
      have hlast := alphabet.decodeQuantum_padded (n := 1) (hlt (a := a) (b := b) (c := 0) 3) rfl
      have hgroup : (quantum a b 0).take 3 ++ List.replicate 1 0 = quantum a b 0 := rfl
      rw [hgroup, bytesOf_quantum] at hlast
      have hpads : 3 - pads [a, b].length = 2 := by simp [pads]
      have hgroups : ([a, b].length + 2) / 3 - 1 = 0 := by simp
      rw [hpads, hgroups]
      exact congrArg (List.take 2) hlast
  | case4 a b c bytes ih =>
      have hpads : pads (a :: b :: c :: bytes).length = pads bytes.length := by
        simp only [pads, List.length_cons]
        omega
      have hgroups : ((a :: b :: c :: bytes).length + 2) / 3 - 1 = (bytes.length + 2) / 3 := by
        simp only [List.length_cons]
        omega
      rw [hpads, hgroups]
      cases hbytes : bytes with
      | nil =>
          show (alphabet.decodeQuantum _).take 3 = [a, b, c]
          rw [alphabet.decodeQuantum_append]
          rfl
      | cons d ds =>
          have hpos : (bytes.length + 2) / 3 = (bytes.length + 2) / 3 - 1 + 1 := by
            rw [hbytes, List.length_cons]
            omega
          have hrest := ih (by rw [hbytes]; exact List.cons_ne_nil d ds)
          rw [← hbytes, hpos, decodeQuanta, alphabet.decodeQuantum_append]
          show [a, b, c] ++ alphabet.decodeQuanta _ _ (alphabet.encode bytes) = _
          rw [hrest]
          rfl

end Alphabet

end AxiomDaemon.Lib

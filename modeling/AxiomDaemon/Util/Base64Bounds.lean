import AxiomDaemon.Lib.CMemory
import AxiomDaemon.Util.Base64

/-!
Base 64 and the hiding of texts with a key in memory: which bytes are read and
written, with the sizes of the buffers that are allocated for them, and the
limit on the length of the key. Lengths are `int`s.
-/

namespace AxiomDaemon.Util

open AxiomDaemon.Lib AxiomDaemon.Lib.CText AxiomDaemon.Lib.CMemory

namespace Memory

/-! ### Encoding -/

/-- `obuf` of `nr_b64_encode`. -/
def obuf (a b c : UInt8) : List UInt8 :=
  [(a &&& 0xfc) >>> 2, ((a &&& 0x03) <<< 4) ||| ((b &&& 0xf0) >>> 4),
    ((b &&& 0x0f) <<< 2) ||| ((c &&& 0xc0) >>> 6), c &&& 0x3f]

/-- What is printed for a group of so many bytes. -/
def quantumText (isegments : ℕ) (a b c : UInt8) : Bytes :=
  let symbols := (obuf a b c).map fun v => table64.getD v.toNat 0
  match isegments with
  | 1 => symbols.take 2 ++ [equalsSign, equalsSign]
  | 2 => symbols.take 3 ++ [equalsSign]
  | _ => symbols

/-- The loop of `nr_b64_encode`, with the zero behind it: `len` bytes from
`indata` on are written behind `output`, which lies in a block of so many cells. -/
def encodeLoop (capacity len : ℕ) (indata output : Bytes) : Checked Bytes :=
  if len = 0 then store capacity output [0]
  else
    let isegments := min len 3
    if indata.length < isegments then .error .read
    else do
      let ibuf := fun i => if i < isegments then indata.getD i 0 else 0
      let output ← sprintf capacity output (quantumText isegments (ibuf 0) (ibuf 1) (ibuf 2))
      encodeLoop capacity (len - isegments) (indata.drop isegments) output
termination_by len

/-- `nr_b64_encode`: the block that is returned and its length without the zero. -/
def nrB64Encode (data : Option Bytes) (len : ℤ) : Checked (Option (Bytes × ℤ)) :=
  match data with
  | none => .ok none
  | some data =>
      if len ≤ 0 then .ok none
      else do
        let times ← int (len * 4)
        let size ← int (times.tdiv 3 + 4)
        let output ← encodeLoop size.toNat len.toNat data []
        .ok (some (output, output.length - 1))

/-! ### Decoding -/

/-- A symbol in `decodeQuantum`. The search through the table stops at the zero
behind it, which a zero is equal to. -/
def decodeSymbol (x : ℕ) (s : UInt8) : ℕ :=
  if s ∈ terminated table64 then x * 64 + (terminated table64).idxOf s
  else if s = equalsSign then x * 64
  else x

/-- `decodeQuantum`: the three bytes for the four that are read. -/
def decodeQuantum (src : Bytes) : Checked Bytes :=
  if src.length < 4 then .error .read else .ok (bytesOf ((src.take 4).foldl decodeSymbol 0))

/-- Whether all characters are valid, as the loop at the beginning of
`nr_b64_decode` finds out. -/
def checkLoop (i : ℤ) : Bytes → Checked Bool
  | [] => .error .read
  | b :: src =>
      if b = 0 then .ok true
      else if nrB64IsValidCharacter b = false then .ok false
      else do
        let i ← int (i + 1)
        checkLoop i src

/-- The number of characters in front of the first sign of equality. -/
def lengthLoop (length : ℤ) : Bytes → Checked ℤ
  | [] => .error .read
  | b :: src =>
      if b ≠ equalsSign ∧ b ≠ 0 then do
        let length ← int (length + 1)
        lengthLoop length src
      else .ok length

/-- The number of signs of equality, of which there may be two. -/
def countEquals (src : Bytes) (length : ℤ) : Checked ℤ := do
  let b ← load (src.drop length.toNat)
  if b = equalsSign then do
    let b ← load (src.drop (length + 1).toNat)
    if b = equalsSign then .ok 2 else .ok 1
  else .ok 0

/-- The groups but the last, the part of the last that counts, and the zero. -/
def decodeQuanta (capacity last : ℕ) : ℕ → Bytes → Bytes → Checked Bytes
  | 0, src, newstr => do
      let lastQuantum ← decodeQuantum src
      let newstr ← store capacity newstr (lastQuantum.take last)
      store capacity newstr [0]
  | n + 1, src, newstr => do
      let quantum ← decodeQuantum src
      let newstr ← store capacity newstr quantum
      decodeQuanta capacity last n (src.drop 4) newstr

/-- `nr_b64_decode`: the block that is returned and the length that is stored. -/
def nrB64Decode (src : Option Bytes) : Checked (Option (Bytes × ℤ)) :=
  match src with
  | none => .ok none
  | some src => do
      let valid ← checkLoop 0 src
      if valid = false then .ok none
      else do
        let length ← lengthLoop 0 src
        let equalsTerm ← countEquals src length
        let terms ← int (length + equalsTerm)
        if terms.tdiv 4 = 0 then .ok none
        else do
          let times ← int (terms.tdiv 4 * 3)
          let rawlen ← int (times - equalsTerm)
          let size ← int (rawlen + 4)
          let newstr ←
            decodeQuanta size.toNat (3 - equalsTerm).toNat (terms.tdiv 4 - 1).toNat src []
          .ok (some (newstr, rawlen))

/-! ### Obfuscation -/

/-- The loop over `n` bytes from the `i`th on, each of which is taken with one
of the key; no remainder is defined for a key of no length. -/
def xorLoop (key : Bytes) (klen : ℤ) (str : Bytes) : (n i : ℕ) → Checked Bytes
  | 0, _ => .ok []
  | n + 1, i =>
      if klen = 0 then .error .range
      else do
        let c ← load (str.drop i)
        let k ← load (key.drop ((i : ℤ).tmod klen).toNat)
        let rest ← xorLoop key klen str n (i + 1)
        .ok ((c ^^^ k) :: rest)

/-- Whether a string is `NULL` or empty. -/
def isEmpty (str : Option Bytes) : Checked Bool :=
  match str with
  | none => .ok true
  | some str => (· = 0) <$> load str

/-- The length of the key that counts. -/
def keyLength (key : Bytes) (keylen : ℤ) : Checked ℤ :=
  if keylen = 0 then nrStrlenAt key else .ok keylen

/-- `nr_obfuscate`: the string that is returned. -/
def nrObfuscate (str key : Option Bytes) (keylen : ℤ) : Checked (Option Bytes) := do
  if (← isEmpty str) || (← isEmpty key) || keylen < 0 then .ok none
  else do
    let klen ← keyLength (key.getD []) keylen
    let slen ← nrStrlenAt (str.getD [])
    let xored ← xorLoop (key.getD []) klen (str.getD []) slen.toNat 0
    let encoded ← nrB64Encode (some (terminated xored)) slen
    .ok (encoded.map Prod.fst)

/-- `nr_deobfuscate`. -/
def nrDeobfuscate (str key : Option Bytes) (keylen : ℤ) : Checked (Option Bytes) := do
  if (← isEmpty str) || (← isEmpty key) || keylen < 0 then .ok none
  else do
    match ← nrB64Decode str with
    | none => .ok none
    | some (decoded, slen) =>
        if slen ≤ 0 then .ok none
        else do
          let klen ← keyLength (key.getD []) keylen
          let xored ← xorLoop (key.getD []) klen decoded slen.toNat 0
          .ok (some (blockCopy decoded 0 xored))

end Memory

/-! ### What the encoder writes -/

theorem toNat_and_shiftRight (b mask : UInt8) {k : ℕ} (hk : k < 8)
    (hmask : mask.toNat >>> k = 2 ^ (8 - k) - 1) :
    ((b &&& mask) >>> UInt8.ofNat k).toNat = b.toNat / 2 ^ k := by
  have hshift : (UInt8.ofNat k).toNat % 8 = k := by
    rw [UInt8.toNat_ofNat']
    omega
  have hlt : b.toNat / 2 ^ k < 2 ^ (8 - k) := by
    apply Nat.div_lt_of_lt_mul
    rw [← Nat.pow_add, Nat.add_sub_cancel' (Nat.le_of_lt hk)]
    exact b.toNat_lt
  rw [UInt8.toNat_shiftRight, UInt8.toNat_and, hshift, Nat.shiftRight_and_distrib, hmask,
    Nat.and_two_pow_sub_one_eq_mod, Nat.shiftRight_eq_div_pow, Nat.mod_eq_of_lt hlt]

/-- The lower bits of a byte in front of the upper bits of another. -/
theorem toNat_shiftLeft_or (x y : UInt8) {k : ℕ} (hk : k < 8) (hx : x.toNat * 2 ^ k < 256)
    (hy : y.toNat < 2 ^ k) :
    ((x <<< UInt8.ofNat k) ||| y).toNat = x.toNat * 2 ^ k + y.toNat := by
  have hshift : (UInt8.ofNat k).toNat % 8 = k := by
    rw [UInt8.toNat_ofNat']
    omega
  have hleft : x.toNat <<< k % 2 ^ 8 = x.toNat <<< k := by
    rw [Nat.shiftLeft_eq]
    exact Nat.mod_eq_of_lt hx
  rw [UInt8.toNat_or, UInt8.toNat_shiftLeft, hshift, hleft, ← Nat.shiftLeft_add_eq_or_of_lt hy,
    Nat.shiftLeft_eq]

theorem toNat_obuf (a b c : UInt8) : (Memory.obuf a b c).map UInt8.toNat = quantum a b c := by
  have ha := a.toNat_lt
  have hb := b.toNat_lt
  have hlow : ∀ (x : UInt8) (k : ℕ), x.toNat &&& (2 ^ k - 1) = x.toNat % 2 ^ k :=
    fun x k => Nat.and_two_pow_sub_one_eq_mod _ _
  have ha3 : (a &&& 0x03).toNat = a.toNat % 4 := hlow a 2
  have hb15 : (b &&& 0x0f).toNat = b.toNat % 16 := hlow b 4
  have hc63 : (c &&& 0x3f).toNat = c.toNat % 64 := hlow c 6
  have ha252 : ((a &&& 0xfc) >>> 2).toNat = a.toNat / 4 :=
    toNat_and_shiftRight a 0xfc (show 2 < 8 by decide) rfl
  have hb240 : ((b &&& 0xf0) >>> 4).toNat = b.toNat / 16 :=
    toNat_and_shiftRight b 0xf0 (show 4 < 8 by decide) rfl
  have hc192 : ((c &&& 0xc0) >>> 6).toNat = c.toNat / 64 :=
    toNat_and_shiftRight c 0xc0 (show 6 < 8 by decide) rfl
  have hc := c.toNat_lt
  have hsecond := toNat_shiftLeft_or (a &&& 0x03) ((b &&& 0xf0) >>> 4) (show 4 < 8 by decide)
    (by omega) (by omega)
  have hthird := toNat_shiftLeft_or (b &&& 0x0f) ((c &&& 0xc0) >>> 6) (show 2 < 8 by decide)
    (by omega) (by omega)
  rw [ha3, hb240] at hsecond
  rw [hb15, hc192] at hthird
  change [_, _, _, _] = quantum a b c
  rw [ha252, hc63]
  exact congrArg₂ (fun u v => [a.toNat / 4, u, v, c.toNat % 64]) hsecond hthird

theorem map_obuf (a b c : UInt8) :
    (Memory.obuf a b c).map (fun v => table64.getD v.toNat 0) =
      (quantum a b c).map alphabet64.symbol := by
  have hsymbol : ∀ v ∈ quantum a b c, table64.getD v 0 = alphabet64.symbol v := by
    intro v hv
    have hlt := quantum_lt hv
    rw [alphabet64.symbol_eq hlt, List.getD_eq_getElem?_getD,
      List.getElem?_eq_getElem (show v < table64.length from hlt)]
    rfl
  rw [← List.map_congr_left hsymbol, ← toNat_obuf, List.map_map]
  rfl

theorem encodeLoop_zero {capacity : ℕ} {output : Bytes} (hroom : output.length + 1 ≤ capacity)
    (indata : Bytes) :
    Memory.encodeLoop capacity 0 indata output = .ok (terminated output) := by
  rw [Memory.encodeLoop, if_pos rfl]
  exact store_of_le hroom

theorem encodeLoop_succ {capacity len isegments : ℕ} (indata : Bytes) {output text : Bytes}
    (hlen : len ≠ 0) (hsegments : min len 3 = isegments) (hread : isegments ≤ indata.length)
    (htext : text = Memory.quantumText isegments
      (if 0 < isegments then indata.getD 0 0 else 0) (if 1 < isegments then indata.getD 1 0 else 0)
      (if 2 < isegments then indata.getD 2 0 else 0))
    (hroom : output.length + text.length + 1 ≤ capacity) :
    Memory.encodeLoop capacity len indata output =
      Memory.encodeLoop capacity (len - isegments) (indata.drop isegments) (output ++ text) := by
  have hprint : sprintf capacity output text = .ok (output ++ text) := if_pos hroom
  rw [Memory.encodeLoop, if_neg hlen]
  simp only [hsegments, if_neg (Nat.not_lt.mpr hread), ← htext, hprint, ok_bind]

/-- The loop writes the encoded bytes and a zero, and reads no byte behind the
ones that it is given. -/
theorem encodeLoop_eq {capacity : ℕ} (data rest : Bytes) {output : Bytes}
    (hroom : output.length + (alphabet64.encode data).length + 1 ≤ capacity) :
    Memory.encodeLoop capacity data.length (data ++ rest) output =
      .ok (terminated (output ++ alphabet64.encode data)) := by
  have hpad : alphabet64.pad = equalsSign := rfl
  fun_induction Alphabet.encode alphabet64 data generalizing output with
  | case1 =>
      rw [List.append_nil]
      exact encodeLoop_zero hroom _
  | case2 a =>
      have htext : ((quantum a 0 0).take 2).map alphabet64.symbol ++ [equalsSign, equalsSign] =
          Memory.quantumText 1 a 0 0 := by
        rw [Memory.quantumText, map_obuf, List.map_take]
      rw [hpad] at hroom ⊢
      rw [encodeLoop_succ ([a] ++ rest) (by simp) rfl (by simp) htext (by omega)]
      exact encodeLoop_zero (by rw [List.length_append]; omega) _
  | case3 a b =>
      have htext : ((quantum a b 0).take 3).map alphabet64.symbol ++ [equalsSign] =
          Memory.quantumText 2 a b 0 := by
        rw [Memory.quantumText, map_obuf, List.map_take]
      rw [hpad] at hroom ⊢
      rw [encodeLoop_succ ([a, b] ++ rest) (by simp) rfl (by simp) htext (by omega)]
      exact encodeLoop_zero (by rw [List.length_append]; omega) _
  | case4 a b c data ih =>
      have htext : (quantum a b c).map alphabet64.symbol = Memory.quantumText 3 a b c := by
        rw [Memory.quantumText, map_obuf]
        all_goals simp
      have hlen : (a :: b :: c :: data).length ≠ 0 := by simp
      have hmin : min (a :: b :: c :: data).length 3 = 3 := by simp
      rw [List.length_append] at hroom
      rw [encodeLoop_succ (a :: b :: c :: data ++ rest) hlen hmin (by simp) htext (by omega),
        ← List.append_assoc]
      exact ih (by rw [List.length_append]; omega)

theorem length_encode (data : Bytes) :
    (alphabet64.encode data).length = 4 * ((data.length + 2) / 3) := by
  obtain ⟨body, heq, -, hlength⟩ := alphabet64.exists_encode_eq data
  rw [heq, List.length_append, List.length_replicate, hlength]

/-- The size of the block in which `nr_b64_encode` writes is computed within
`int` below 2^29 bytes, and it has room for the symbols and the zero. -/
theorem nrB64Encode_memory {data : Bytes} (hne : data ≠ []) (hlen : data.length < 2 ^ 29)
    (rest : Bytes) :
    Memory.nrB64Encode (some (data ++ rest)) data.length =
      .ok (some (terminated (alphabet64.encode data), (alphabet64.encode data).length)) := by
  have hpos := List.length_pos_of_ne_nil hne
  have hsize := length_encode data
  have hdiv : ((data.length : ℤ) * 4).tdiv 3 = (data.length : ℤ) * 4 / 3 :=
    Int.tdiv_eq_ediv_of_nonneg (by omega)
  have hroom : ([] : Bytes).length + (alphabet64.encode data).length + 1 ≤
      ((data.length : ℤ) * 4 / 3 + 4).toNat := by
    rw [List.length_nil, hsize]
    omega
  rw [Memory.nrB64Encode]
  simp only [if_neg (show ¬ (data.length : ℤ) ≤ 0 by omega)]
  rw [int_of_range (by omega) (by omega), ok_bind, hdiv, int_of_range (by omega) (by omega),
    ok_bind, Int.toNat_natCast, encodeLoop_eq data rest hroom, ok_bind, List.nil_append, terminated,
    List.length_append, List.length_singleton, Int.natCast_add, Int.natCast_one,
    Int.add_sub_cancel]

/-! ### What the decoder reads and writes -/

theorem decodeSymbol_eq {s : UInt8} (hs : s ≠ 0) (x : ℕ) :
    Memory.decodeSymbol x s = alphabet64.readSymbol x s := by
  have hmem : s ∈ terminated table64 ↔ s ∈ table64 := by
    rw [terminated, List.mem_append, List.mem_singleton]
    exact or_iff_left hs
  rw [Memory.decodeSymbol, Alphabet.readSymbol]
  by_cases h : s ∈ table64
  · rw [if_pos (hmem.mpr h), terminated, List.idxOf_append_of_mem h]
    exact (if_pos h).symm
  · rw [if_neg (mt hmem.mp h)]
    exact (if_neg h).symm

theorem decodeQuantum_terminated {text : Bytes} (hzero : 0 ∉ text) (hlen : 4 ≤ text.length) :
    Memory.decodeQuantum (terminated text) = .ok (alphabet64.decodeQuantum text) := by
  have htake : (terminated text).take 4 = text.take 4 := List.take_append_of_le_length hlen
  have hfold : ∀ (l : Bytes) (x : ℕ), 0 ∉ l →
      l.foldl Memory.decodeSymbol x = l.foldl alphabet64.readSymbol x := by
    intro l
    induction l with
    | nil => exact fun _ _ => rfl
    | cons s l ih =>
        intro x hl
        obtain ⟨hs, hl⟩ := not_or.mp (mt List.mem_cons.mpr hl)
        rw [List.foldl_cons, List.foldl_cons, decodeSymbol_eq (Ne.symm hs), ih _ hl]
  have hread : ¬ (terminated text).length < 4 := by
    rw [terminated, List.length_append]
    omega
  rw [Memory.decodeQuantum, if_neg hread, htake, hfold _ 0 fun h => hzero (List.take_subset 4 text h)]
  rfl

theorem checkLoop_terminated {text : Bytes} (hzero : 0 ∉ text) {i : ℕ}
    (hlen : i + text.length < 2 ^ 31) :
    Memory.checkLoop i (terminated text) = .ok (text.all nrB64IsValidCharacter) := by
  induction text generalizing i with
  | nil => exact if_pos rfl
  | cons b text ih =>
      obtain ⟨hb, hzero⟩ := not_or.mp (mt List.mem_cons.mpr hzero)
      rw [List.length_cons] at hlen
      have hnext := ih hzero (show i + 1 + text.length < 2 ^ 31 by omega)
      rw [terminated_cons, Memory.checkLoop, if_neg (Ne.symm hb), List.all_cons]
      cases hvalid : nrB64IsValidCharacter b with
      | false => rfl
      | true =>
          rw [if_neg (by simp), int_of_range (by omega) (by omega), ok_bind, Bool.true_and]
          exact hnext

theorem lengthLoop_terminated {text : Bytes} (hzero : 0 ∉ text) {i : ℕ}
    (hlen : i + text.length < 2 ^ 31) :
    Memory.lengthLoop i (terminated text) =
      .ok (i + (text.takeWhile (· ≠ equalsSign)).length : ℕ) := by
  induction text generalizing i with
  | nil => exact if_neg fun h => h.2 rfl
  | cons b text ih =>
      obtain ⟨hb, hzero⟩ := not_or.mp (mt List.mem_cons.mpr hzero)
      rw [List.length_cons] at hlen
      have hnext := ih hzero (show i + 1 + text.length < 2 ^ 31 by omega)
      rw [terminated_cons, Memory.lengthLoop]
      by_cases heq : b = equalsSign
      · rw [if_neg fun h => h.1 heq, List.takeWhile_cons_of_neg (by simp [heq])]
        rfl
      · rw [if_pos ⟨heq, Ne.symm hb⟩, int_of_range (by omega) (by omega), ok_bind,
          List.takeWhile_cons_of_pos (by simp [heq]), List.length_cons]
        rw [show i + ((text.takeWhile (· ≠ equalsSign)).length + 1) =
          i + 1 + (text.takeWhile (· ≠ equalsSign)).length by omega]
        exact hnext

theorem load_drop_terminated {text : Bytes} {i : ℕ} (hi : i ≤ text.length) :
    load ((terminated text).drop i) = .ok (text[i]?.getD 0) := by
  rw [drop_terminated hi, load_terminated, List.head?_drop]

/-- The signs of equality are looked for at the end of the characters in front
of them, where there is at least the zero. -/
theorem countEquals_terminated {text : Bytes} {i : ℕ} (hi : i ≤ text.length) :
    Memory.countEquals (terminated text) i =
      .ok (if text[i]? = some equalsSign then
        if text[i + 1]? = some equalsSign then 2 else 1 else 0 : ℕ) := by
  have hsign : ∀ j : ℕ, text[j]?.getD 0 = equalsSign ↔ text[j]? = some equalsSign := by
    intro j
    cases text[j]? with
    | none => exact iff_of_false (by decide) (by simp)
    | some b => simp
  have hnext : ((i : ℤ) + 1).toNat = i + 1 := rfl
  rw [Memory.countEquals, Int.toNat_natCast, load_drop_terminated hi, ok_bind]
  by_cases hfirst : text[i]? = some equalsSign
  · have hlt : i + 1 ≤ text.length := (List.getElem?_eq_some_iff.mp hfirst).1
    rw [if_pos ((hsign i).mpr hfirst), if_pos hfirst, hnext, load_drop_terminated hlt, ok_bind]
    by_cases hsecond : text[i + 1]? = some equalsSign
    · rw [if_pos ((hsign (i + 1)).mpr hsecond), if_pos hsecond]
      rfl
    · rw [if_neg (mt (hsign (i + 1)).mp hsecond), if_neg hsecond]
      rfl
  · rw [if_neg (mt (hsign i).mp hfirst), if_neg hfirst]
    rfl

theorem length_decodeQuantum (src : Bytes) : (alphabet64.decodeQuantum src).length = 3 := rfl

theorem length_decodeQuanta {last : ℕ} (hlast : last ≤ 3) (n : ℕ) (src : Bytes) :
    (alphabet64.decodeQuanta last n src).length = 3 * n + last := by
  induction n generalizing src with
  | zero =>
      rw [Alphabet.decodeQuanta, List.length_take, length_decodeQuantum]
      omega
  | succ n ih =>
      rw [Alphabet.decodeQuanta, List.length_append, length_decodeQuantum, ih]
      omega

/-- The groups are read in front of the zero, and written with a zero where
there is room. -/
theorem decodeQuanta_terminated {capacity last n : ℕ} (hlast : last ≤ 3) {text newstr : Bytes}
    (hzero : 0 ∉ text) (hlen : 4 * (n + 1) ≤ text.length)
    (hroom : newstr.length + 3 * n + last + 1 ≤ capacity) :
    Memory.decodeQuanta capacity last n (terminated text) newstr =
      .ok (terminated (newstr ++ alphabet64.decodeQuanta last n text)) := by
  induction n generalizing text newstr with
  | zero =>
      have hpart : ((alphabet64.decodeQuantum text).take last).length = last := by
        rw [List.length_take, length_decodeQuantum]
        omega
      have hend : (newstr ++ (alphabet64.decodeQuantum text).take last).length =
          newstr.length + last := by
        rw [List.length_append, hpart]
      rw [Memory.decodeQuanta, decodeQuantum_terminated hzero (by omega), ok_bind,
        store_of_le (by omega), ok_bind]
      exact store_of_le (by rw [hend, List.length_singleton]; omega)
  | succ n ih =>
      have hgroup := length_decodeQuantum text
      have hrest : 0 ∉ text.drop 4 := fun h => hzero (List.drop_subset 4 text h)
      have hend : (newstr ++ alphabet64.decodeQuantum text).length = newstr.length + 3 := by
        rw [List.length_append, hgroup]
      have hshort : 4 * (n + 1) ≤ (text.drop 4).length := by
        rw [List.length_drop]
        omega
      rw [Memory.decodeQuanta, decodeQuantum_terminated hzero (by omega), ok_bind,
        store_of_le (by omega), ok_bind, drop_terminated (by omega),
        ih hrest hshort (by omega), List.append_assoc]
      rfl

theorem equalsTerm_le {text : Bytes} {i : ℕ} (hi : i ≤ text.length) :
    (if text[i]? = some equalsSign then
      if text[i + 1]? = some equalsSign then 2 else 1 else 0) ≤ 2 ∧
    i + (if text[i]? = some equalsSign then
      if text[i + 1]? = some equalsSign then 2 else 1 else 0) ≤ text.length := by
  by_cases hfirst : text[i]? = some equalsSign
  · have hlt : i < text.length := (List.getElem?_eq_some_iff.mp hfirst).1
    rw [if_pos hfirst]
    by_cases hsecond : text[i + 1]? = some equalsSign
    · have hlt' : i + 1 < text.length := (List.getElem?_eq_some_iff.mp hsecond).1
      rw [if_pos hsecond]
      omega
    · rw [if_neg hsecond]
      omega
  · rw [if_neg hfirst]
    omega

/-- The number of characters that make up groups, the signs of equality included. -/
def termsOf (text : Bytes) : ℕ × ℕ :=
  let length := (text.takeWhile (· ≠ equalsSign)).length
  (length, if text[length]? = some equalsSign then
    if text[length + 1]? = some equalsSign then 2 else 1 else 0)

theorem termsOf_le (text : Bytes) :
    (termsOf text).2 ≤ 2 ∧ (termsOf text).1 + (termsOf text).2 ≤ text.length :=
  equalsTerm_le (List.takeWhile_prefix _).length_le

theorem nrB64Decode_eq (text : Bytes) :
    nrB64Decode text =
      if text.all nrB64IsValidCharacter = false then none
      else if ((termsOf text).1 + (termsOf text).2) / 4 = 0 then none
      else some (alphabet64.decodeQuanta (3 - (termsOf text).2)
        (((termsOf text).1 + (termsOf text).2) / 4 - 1) text) := by
  rw [nrB64Decode]
  cases text.all nrB64IsValidCharacter with
  | false => rfl
  | true => rfl

theorem nrB64Decode_memory_of_valid {text : Bytes} (hzero : 0 ∉ text)
    (hlen : text.length < 2 ^ 31) (hvalid : text.all nrB64IsValidCharacter = true) :
    Memory.nrB64Decode (some (terminated text)) =
      .ok (if ((termsOf text).1 + (termsOf text).2) / 4 = 0 then none
        else some (terminated (alphabet64.decodeQuanta (3 - (termsOf text).2)
            (((termsOf text).1 + (termsOf text).2) / 4 - 1) text),
          (((termsOf text).1 + (termsOf text).2) / 4 : ℕ) * 3 - ((termsOf text).2 : ℤ))) := by
  have hcheck : Memory.checkLoop 0 (terminated text) = .ok (text.all nrB64IsValidCharacter) :=
    checkLoop_terminated hzero (show 0 + text.length < 2 ^ 31 by omega)
  have hcount : Memory.lengthLoop 0 (terminated text) = .ok ((termsOf text).1 : ℤ) := by
    have h := lengthLoop_terminated hzero (show 0 + text.length < 2 ^ 31 by omega)
    rwa [Nat.zero_add] at h
  have hequals : Memory.countEquals (terminated text) (termsOf text).1 =
      .ok ((termsOf text).2 : ℤ) := countEquals_terminated (List.takeWhile_prefix _).length_le
  obtain ⟨htwo, hterms⟩ := termsOf_le text
  generalize (termsOf text).1 = length at *
  generalize (termsOf text).2 = equalsTerm at *
  have hquot : ((length : ℤ) + equalsTerm).tdiv 4 = ((length + equalsTerm) / 4 : ℕ) := by
    rw [Int.tdiv_eq_ediv_of_nonneg (by omega), Int.natCast_ediv, Int.natCast_add]
    rfl
  rw [Memory.nrB64Decode, hcheck, ok_bind, if_neg (by simp [hvalid]), hcount, ok_bind, hequals,
    ok_bind, int_of_range (by omega) (by omega), ok_bind, hquot]
  have hgroups : 4 * ((length + equalsTerm) / 4) ≤ text.length := by omega
  generalize (length + equalsTerm) / 4 = groups at *
  by_cases hnone : groups = 0
  · rw [if_pos (Int.natCast_eq_zero.mpr hnone), if_pos hnone]
  · have hlast : ((3 : ℤ) - equalsTerm).toNat = 3 - equalsTerm := by omega
    have hbefore : ((groups : ℤ) - 1).toNat = groups - 1 := by omega
    have hroom : ([] : Bytes).length + 3 * (groups - 1) + (3 - equalsTerm) + 1 ≤
        ((groups : ℤ) * 3 - equalsTerm + 4).toNat := by
      rw [List.length_nil]
      omega
    have hdecode := decodeQuanta_terminated (Nat.sub_le 3 equalsTerm) hzero
      (show 4 * (groups - 1 + 1) ≤ text.length by omega) hroom
    rw [if_neg (mt Int.natCast_eq_zero.mp hnone), if_neg hnone, int_of_range (by omega) (by omega),
      ok_bind, int_of_range (by omega) (by omega), ok_bind, int_of_range (by omega) (by omega),
      ok_bind, hlast, hbefore, hdecode, ok_bind, List.nil_append]

/-- The decoder stays inside of its buffers on every string that `int` can
count, and gives the bytes that are encoded with a zero behind them. -/
theorem nrB64Decode_memory {text : Bytes} (hzero : 0 ∉ text) (hlen : text.length < 2 ^ 31) :
    Memory.nrB64Decode (some (terminated text)) =
      .ok ((nrB64Decode text).map fun data => (terminated data, (data.length : ℤ))) := by
  rw [nrB64Decode_eq]
  cases hvalid : text.all nrB64IsValidCharacter with
  | false =>
      have hcheck : Memory.checkLoop 0 (terminated text) = .ok (text.all nrB64IsValidCharacter) :=
        checkLoop_terminated hzero (show 0 + text.length < 2 ^ 31 by omega)
      rw [Memory.nrB64Decode, hcheck, ok_bind, if_pos hvalid, if_pos rfl, Option.map_none]
  | true =>
      obtain ⟨htwo, -⟩ := termsOf_le text
      rw [nrB64Decode_memory_of_valid hzero hlen hvalid, if_neg (show ¬(true = false) by decide)]
      by_cases hnone : ((termsOf text).1 + (termsOf text).2) / 4 = 0
      · rw [if_pos hnone, if_pos hnone, Option.map_none]
      · have hraw : ((((termsOf text).1 + (termsOf text).2) / 4 : ℕ) : ℤ) * 3 - (termsOf text).2 =
            (alphabet64.decodeQuanta (3 - (termsOf text).2)
              (((termsOf text).1 + (termsOf text).2) / 4 - 1) text).length := by
          rw [length_decodeQuanta (Nat.sub_le _ _)]
          omega
        rw [if_neg hnone, if_neg hnone, hraw, Option.map_some]

/-! ### Hiding a text and finding it again -/

/-- As much of a key as counts under a limit, where 0 is none. -/
def limitedKey (key : Bytes) (keylen : ℤ) : Bytes :=
  if keylen = 0 then key else key.take keylen.toNat

theorem limitedKey_isPrefix (key : Bytes) (keylen : ℤ) : limitedKey key keylen <+: key := by
  rw [limitedKey]
  split
  · exact List.prefix_rfl
  · exact List.take_prefix _ _

theorem limitedKey_ne_nil {key : Bytes} (hne : key ≠ []) {keylen : ℤ} (hnonneg : 0 ≤ keylen) :
    limitedKey key keylen ≠ [] := by
  rw [limitedKey]
  split
  · exact hne
  · obtain ⟨k, ks, rfl⟩ := List.exists_cons_of_ne_nil hne
    rw [show keylen.toNat = keylen.toNat - 1 + 1 by omega, List.take_succ_cons]
    exact List.cons_ne_nil _ _

theorem keyLength_terminated {key : Bytes} (hzero : 0 ∉ key) (hlen : key.length < 2 ^ 31)
    {keylen : ℤ} (hnonneg : 0 ≤ keylen) (hle : keylen ≤ key.length) :
    Memory.keyLength (terminated key) keylen = .ok ((limitedKey key keylen).length : ℤ) := by
  rw [Memory.keyLength, limitedKey]
  by_cases h : keylen = 0
  · rw [if_pos h, if_pos h, nrStrlenAt_terminated hzero, nrStrlen_of_lt hlen]
  · rw [if_neg h, if_neg h, List.length_take_of_le (by omega), Int.toNat_of_nonneg hnonneg]

theorem load_drop {p : Bytes} {i : ℕ} (hi : i < p.length) : load (p.drop i) = .ok p[i] := by
  rw [List.drop_eq_getElem_cons hi, load_cons]

theorem load_key {key part : Bytes} (hpart : part <+: key) {i : ℕ} (hi : i < part.length) :
    load ((terminated key).drop i) = .ok (part.getD i 0) := by
  obtain ⟨rest, rfl⟩ := hpart
  have hle : i ≤ (part ++ rest).length := by
    rw [List.length_append]
    omega
  rw [load_drop_terminated hle, List.getElem?_append_left hi, List.getD_eq_getElem?_getD]

theorem xorLoop_eq {key part : Bytes} (hpart : part <+: key) (hne : part ≠ [])
    (str rest : Bytes) {n i : ℕ} (hn : i + n = str.length) :
    Memory.xorLoop (terminated key) part.length (str ++ rest) n i =
      .ok ((xorKey part str).drop i) := by
  have hpos := List.length_pos_of_ne_nil hne
  have hlen : (xorKey part str).length = str.length := List.length_mapIdx
  induction n generalizing i with
  | zero =>
      rw [Memory.xorLoop, List.drop_of_length_le (by omega)]
  | succ n ih =>
      have hi : i < str.length := by omega
      have hi' : i < (str ++ rest).length := by
        rw [List.length_append]
        omega
      have hindex : ((i : ℤ).tmod part.length).toNat = i % part.length := by
        rw [← Int.ofNat_tmod, Int.toNat_natCast]
      rw [Memory.xorLoop, if_neg (by omega), load_drop hi', ok_bind, hindex,
        load_key hpart (Nat.mod_lt i hpos), ok_bind, ih (by omega), ok_bind,
        List.getElem_append_left hi, List.drop_eq_getElem_cons (show i < (xorKey part str).length by omega)]
      congr 2
      simp only [xorKey, List.getElem_mapIdx]

theorem isEmpty_terminated {s : Bytes} (hne : s ≠ []) (hzero : 0 ∉ s) :
    Memory.isEmpty (some (terminated s)) = .ok false := by
  obtain ⟨b, s, rfl⟩ := List.exists_cons_of_ne_nil hne
  have hb : b ≠ 0 := fun h => hzero (List.mem_cons.mpr (.inl h.symm))
  rw [Memory.isEmpty, terminated_cons, load_cons, map_ok, decide_eq_false hb]

theorem zero_notMem_encode (data : Bytes) : 0 ∉ alphabet64.encode data := by
  intro h
  have hvalid := isValidCharacter_of_mem_encode h
  exact absurd hvalid (by decide)

section Obfuscation

variable {s key : Bytes} {keylen : ℤ}

theorem length_xorKey (part str : Bytes) : (xorKey part str).length = str.length :=
  List.length_mapIdx

/-- The loop over a text that a zero ends, with the part of the key that counts. -/
theorem xorLoop_terminated (hkey : key ≠ []) (hnonneg : 0 ≤ keylen) (str : Bytes) :
    Memory.xorLoop (terminated key) (limitedKey key keylen).length (terminated str) str.length 0 =
      .ok (xorKey (limitedKey key keylen) str) :=
  xorLoop_eq (limitedKey_isPrefix key keylen) (limitedKey_ne_nil hkey hnonneg) str [0]
    (Nat.zero_add str.length)

theorem nrObfuscate_memory (hs : s ≠ []) (hzero : 0 ∉ s) (hlen : s.length < 2 ^ 29)
    (hkey : key ≠ []) (hkeyZero : 0 ∉ key) (hkeyLen : key.length < 2 ^ 31) (hnonneg : 0 ≤ keylen)
    (hle : keylen ≤ key.length) :
    Memory.nrObfuscate (some (terminated s)) (some (terminated key)) keylen =
      .ok (some (terminated (alphabet64.encode (xorKey (limitedKey key keylen) s)))) := by
  have hxored := length_xorKey (limitedKey key keylen) s
  have hne : xorKey (limitedKey key keylen) s ≠ [] :=
    List.ne_nil_of_length_pos (hxored ▸ List.length_pos_of_ne_nil hs)
  have hencode := nrB64Encode_memory hne (hxored ▸ hlen) [0]
  rw [hxored, ← terminated] at hencode
  have hgiven : ¬ ((false || false || decide (keylen < 0)) = true) := by
    simpa using hnonneg
  rw [Memory.nrObfuscate, isEmpty_terminated hs hzero, ok_bind, isEmpty_terminated hkey hkeyZero,
    ok_bind, if_neg hgiven, Option.getD_some, Option.getD_some,
    keyLength_terminated hkeyZero hkeyLen hnonneg hle, ok_bind,
    nrStrlenAt_terminated hzero, ok_bind, nrStrlen_of_lt (by omega), Int.toNat_natCast,
    xorLoop_terminated hkey hnonneg, ok_bind, hencode, ok_bind, Option.map_some]

/-- What was encoded from a text is found again with the same part of the key. -/
theorem nrDeobfuscate_memory {hidden data : Bytes} (hne : hidden ≠ []) (hzero : 0 ∉ hidden)
    (hlen : hidden.length < 2 ^ 31) (hdecode : nrB64Decode hidden = some data) (hdata : data ≠ [])
    (hkey : key ≠ []) (hkeyZero : 0 ∉ key) (hkeyLen : key.length < 2 ^ 31) (hnonneg : 0 ≤ keylen)
    (hle : keylen ≤ key.length) :
    Memory.nrDeobfuscate (some (terminated hidden)) (some (terminated key)) keylen =
      .ok (some (terminated (xorKey (limitedKey key keylen) data))) := by
  have hpos := List.length_pos_of_ne_nil hdata
  have hread := nrB64Decode_memory hzero hlen
  rw [hdecode, Option.map_some] at hread
  have hgiven : ¬ ((false || false || decide (keylen < 0)) = true) := by
    simpa using hnonneg
  have hblock : blockCopy (terminated data) 0 (xorKey (limitedKey key keylen) data) =
      terminated (xorKey (limitedKey key keylen) data) := by
    rw [blockCopy, length_xorKey, Nat.zero_add, List.take_zero, List.nil_append, terminated,
      List.drop_left]
    rfl
  rw [Memory.nrDeobfuscate, isEmpty_terminated hne hzero, ok_bind, isEmpty_terminated hkey hkeyZero,
    ok_bind, if_neg hgiven, hread, ok_bind]
  change (if (data.length : ℤ) ≤ 0 then _ else _) = _
  rw [if_neg (by omega), Option.getD_some, keyLength_terminated hkeyZero hkeyLen hnonneg hle,
    ok_bind, Int.toNat_natCast, xorLoop_terminated hkey hnonneg, ok_bind, hblock]

/-- What is hidden with a key is a text of valid characters, and is found again with it. -/
theorem exists_nrObfuscate_memory (hs : s ≠ []) (hzero : 0 ∉ s) (hlen : s.length < 2 ^ 29)
    (hkey : key ≠ []) (hkeyZero : 0 ∉ key) (hkeyLen : key.length < 2 ^ 31) (hnonneg : 0 ≤ keylen)
    (hle : keylen ≤ key.length) :
    ∃ encoded, Memory.nrObfuscate (some (terminated s)) (some (terminated key)) keylen =
        .ok (some (terminated encoded)) ∧
      encoded ≠ [] ∧ (∀ c ∈ encoded, nrB64IsValidCharacter c = true) ∧ 0 ∉ encoded ∧
      Memory.nrDeobfuscate (some (terminated encoded)) (some (terminated key)) keylen =
        .ok (some (terminated s)) := by
  have hxored := length_xorKey (limitedKey key keylen) s
  have hne : xorKey (limitedKey key keylen) s ≠ [] :=
    List.ne_nil_of_length_pos (hxored ▸ List.length_pos_of_ne_nil hs)
  have hpos := List.length_pos_of_ne_nil hne
  have hsize := length_encode (xorKey (limitedKey key keylen) s)
  have hencoded : alphabet64.encode (xorKey (limitedKey key keylen) s) ≠ [] :=
    List.ne_nil_of_length_pos (by omega)
  refine ⟨_, nrObfuscate_memory hs hzero hlen hkey hkeyZero hkeyLen hnonneg hle, hencoded,
    fun c hc => isValidCharacter_of_mem_encode hc, zero_notMem_encode _, ?_⟩
  rw [nrDeobfuscate_memory hencoded (zero_notMem_encode _) (by omega) (nrB64Decode_encode hne) hne
    hkey hkeyZero hkeyLen hnonneg hle, xorKey_xorKey]

end Obfuscation

/-- Encoding and decoding give the bytes back; no bytes are no string. -/
theorem nrB64Decode_nrB64Encode {data : Bytes} (hlen : data.length < 2 ^ 29) :
    (Memory.nrB64Encode (some data) data.length >>= fun text =>
        Memory.nrB64Decode (text.map Prod.fst)) =
      .ok (if data = [] then none else some (terminated data, (data.length : ℤ))) := by
  by_cases hne : data = []
  · rw [hne]
    rfl
  · have hencode := nrB64Encode_memory hne hlen []
    rw [List.append_nil] at hencode
    have hsize := length_encode data
    have hdecode := nrB64Decode_memory (zero_notMem_encode data)
      (show (alphabet64.encode data).length < 2 ^ 31 by omega)
    rw [nrB64Decode_encode hne, Option.map_some] at hdecode
    rw [hencode, ok_bind, if_neg hne]
    exact hdecode

/-- A text that is hidden with a key is found again with it under the same
limit, what is encoded is decoded, and the decoder stays inside of its buffers
on every string, as long as `int` holds the lengths. -/
theorem nrObfuscate_roundTrip (s key : CString) (keylen : ℤ) (hs : s.val ≠ [])
    (hlen : s.val.length < 2 ^ 29) (hkey : key.val ≠ []) (hkeyLen : key.val.length < 2 ^ 31)
    (hnonneg : 0 ≤ keylen) (hle : keylen ≤ key.val.length) (data : Bytes)
    (hdata : data.length < 2 ^ 29) (text : CString) (htext : text.val.length < 2 ^ 31) :
    (Memory.nrObfuscate (some (terminated s.val)) (some (terminated key.val)) keylen >>=
        fun hidden => Memory.nrDeobfuscate hidden (some (terminated key.val)) keylen) =
      .ok (some (terminated s.val)) ∧
    (Memory.nrB64Encode (some data) data.length >>= fun encoded =>
        Memory.nrB64Decode (encoded.map Prod.fst)) =
      .ok (if data = [] then none else some (terminated data, (data.length : ℤ))) ∧
    ∃ result, Memory.nrB64Decode (some (terminated text.val)) = .ok result := by
  refine ⟨?_, nrB64Decode_nrB64Encode hdata, _, nrB64Decode_memory text.property htext⟩
  obtain ⟨encoded, hobfuscate, -, -, -, hdeobfuscate⟩ := exists_nrObfuscate_memory hs s.property hlen
    hkey key.property hkeyLen hnonneg hle
  rw [hobfuscate, ok_bind, hdeobfuscate]

theorem nrObfuscate_roundTrip_limit :
    (Memory.nrObfuscate (some [0x68, 0x69, 0]) (some [0x6b, 0x65, 0x79, 0]) 2 >>=
        fun hidden => Memory.nrDeobfuscate hidden (some [0x6b, 0x65, 0x79, 0]) 2) =
      .ok (some [0x68, 0x69, 0]) ∧
    (Memory.nrB64Encode (some [0, 0xff]) 2 >>= fun encoded =>
        Memory.nrB64Decode (encoded.map Prod.fst)) = .ok (some ([0, 0xff, 0], 2)) ∧
    ∃ result, Memory.nrB64Decode (some [0x3d, 0x3d, 0x41, 0]) = .ok result :=
  nrObfuscate_roundTrip ⟨[0x68, 0x69], by decide⟩ ⟨[0x6b, 0x65, 0x79], by decide⟩ 2 (by decide)
    (by decide) (by decide) (by decide) (by decide) (by decide) [0, 0xff] (by decide)
    ⟨[0x3d, 0x3d, 0x41], by decide⟩ (by decide)

/-! ### Beyond `int` -/

theorem nrB64Encode_overflows {data : Bytes} (hlen : 2 ^ 29 ≤ data.length) :
    Memory.nrB64Encode (some data) data.length = .error .range := by
  rw [Memory.nrB64Encode]
  simp only [if_neg (show ¬ (data.length : ℤ) ≤ 0 by omega)]
  rw [int_of_le (by omega), error_bind]

theorem checkLoop_overflows {text : Bytes}
    (hvalid : ∀ b ∈ text, b ≠ 0 ∧ nrB64IsValidCharacter b = true) {i : ℕ} (hi : i < 2 ^ 31)
    (hlen : 2 ^ 31 ≤ i + text.length) : Memory.checkLoop i (terminated text) = .error .range := by
  induction text generalizing i with
  | nil =>
      rw [List.length_nil] at hlen
      omega
  | cons b text ih =>
      obtain ⟨⟨hb, hbvalid⟩, htext⟩ := List.forall_mem_cons.mp hvalid
      rw [List.length_cons] at hlen
      rw [terminated_cons, Memory.checkLoop, if_neg hb, if_neg (by simp [hbvalid])]
      by_cases hlast : i + 1 < 2 ^ 31
      · rw [int_of_range (by omega) (by omega), ok_bind]
        exact ih htext hlast (show 2 ^ 31 ≤ i + 1 + text.length by omega)
      · rw [int_of_le (by omega), error_bind]

/-- A key whose length is nothing to an `int`. -/
theorem nrObfuscate_overflows {s key : Bytes} (hs : s ≠ []) (hzero : 0 ∉ s)
    (hlen : s.length < 2 ^ 31) (hkey : key ≠ []) (hkeyZero : 0 ∉ key)
    (hkeyLen : nrStrlen key = 0) :
    Memory.nrObfuscate (some (terminated s)) (some (terminated key)) 0 = .error .range := by
  obtain ⟨n, hn⟩ := Nat.exists_eq_succ_of_ne_zero
    (Nat.ne_of_gt (List.length_pos_of_ne_nil hs))
  have hklen : Memory.keyLength (terminated key) 0 = .ok 0 := by
    rw [Memory.keyLength, if_pos rfl, nrStrlenAt_terminated hkeyZero, hkeyLen]
  have hloop : Memory.xorLoop (terminated key) 0 (terminated s) (n + 1) 0 = .error .range := by
    rw [Memory.xorLoop, if_pos rfl]
  rw [Memory.nrObfuscate, isEmpty_terminated hs hzero, ok_bind, isEmpty_terminated hkey hkeyZero,
    ok_bind, if_neg (by simp), Option.getD_some, Option.getD_some, hklen, ok_bind,
    nrStrlenAt_terminated hzero, ok_bind, nrStrlen_of_lt hlen, Int.toNat_natCast, hn, hloop,
    error_bind]

/-- The sizes of the encoder, the indices of the decoder and the length of the
key are beyond `int` for texts that are long enough. -/
theorem nrObfuscate_roundTrip_overflows :
    (¬ ∀ data : Bytes, data ≠ [] →
      (Memory.nrB64Encode (some data) data.length >>= fun encoded =>
        Memory.nrB64Decode (encoded.map Prod.fst)) =
        .ok (some (terminated data, (data.length : ℤ)))) ∧
    (¬ ∀ text : CString, ∃ result, Memory.nrB64Decode (some (terminated text.val)) = .ok result) ∧
    ¬ ∀ s key : CString, s.val ≠ [] → key.val ≠ [] →
      (Memory.nrObfuscate (some (terminated s.val)) (some (terminated key.val)) 0 >>=
        fun hidden => Memory.nrDeobfuscate hidden (some (terminated key.val)) 0) =
      .ok (some (terminated s.val)) := by
  have hlength : ∀ n, (lettersA n).val.length = n := fun n => List.length_replicate
  have hne : ∀ n, 0 < n → (lettersA n).val ≠ [] := by
    intro n hn
    apply List.ne_nil_of_length_pos
    rw [hlength]
    exact hn
  refine ⟨fun h => ?_, fun h => ?_, fun h => ?_⟩
  · obtain ⟨n, hn⟩ : ∃ n, n = 2 ^ 29 := ⟨_, rfl⟩
    have hlong := h (lettersA n).val (hne n (by omega))
    rw [nrB64Encode_overflows (by rw [hlength]; omega), error_bind] at hlong
    cases hlong
  · obtain ⟨n, hn⟩ : ∃ n, n = 2 ^ 31 := ⟨_, rfl⟩
    obtain ⟨result, hlong⟩ := h (lettersA n)
    have hvalid : ∀ b ∈ (lettersA n).val, b ≠ 0 ∧ nrB64IsValidCharacter b = true := by
      intro b hb
      rw [List.eq_of_mem_replicate hb]
      exact ⟨by decide, rfl⟩
    have hcheck : Memory.checkLoop 0 (terminated (lettersA n).val) = .error .range :=
      checkLoop_overflows hvalid (by decide) (by rw [hlength]; omega)
    rw [Memory.nrB64Decode, hcheck, error_bind] at hlong
    cases hlong
  · obtain ⟨n, hn⟩ : ∃ n, n = 2 ^ 32 := ⟨_, rfl⟩
    have hlong := h (lettersA 1) (lettersA n) (hne 1 Nat.one_pos) (hne n (by omega))
    have hkey : nrStrlen (lettersA n).val = 0 := by
      rw [nrStrlen, hlength, hn]
      exact Int.bmod_self
    rw [nrObfuscate_overflows (hne 1 Nat.one_pos) (lettersA 1).property (by decide)
      (hne n (by omega)) (lettersA n).property hkey, error_bind] at hlong
    cases hlong

end AxiomDaemon.Util

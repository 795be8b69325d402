import AxiomDaemon.Lib.Radix64
import AxiomDaemon.Util.StringPool

/-!
Base 64, `util_base64.c`, and what hides a text with a key in
`util_obfuscate.c`.

The masks and shifts of the source are remainders and quotients here. A quantum
is never read beyond the end of a text, since only whole ones are counted.
-/

namespace AxiomDaemon.Util

open AxiomDaemon.Lib

/-! ### Base 64 -/

/-- `table64`. -/
def table64 : Bytes := ascii "ABCDEFGHIJKLMNOPQRSTUVWXYZabcdefghijklmnopqrstuvwxyz0123456789+/"

/-- `=`. -/
def equalsSign : UInt8 := 0x3d

def alphabet64 : Alphabet UInt8 where
  symbols := table64
  pad := equalsSign
  length_eq := by decide
  nodup := by decide
  pad_notMem := by decide

/-- `nr_b64_is_valid_character`. -/
def nrB64IsValidCharacter (c : UInt8) : Bool :=
  c = equalsSign || c = 0x2f || c = 0x2b || (0x30 ≤ c && c ≤ 0x39) || (0x61 ≤ c && c ≤ 0x7a) ||
    (0x41 ≤ c && c ≤ 0x5a)

/-- `nr_b64_decode`. -/
def nrB64Decode (src : Bytes) : Option Bytes :=
  if !src.all nrB64IsValidCharacter then none
  else
    let length := (src.takeWhile (· ≠ equalsSign)).length
    let equalsTerm :=
      if src[length]? = some equalsSign then
        if src[length + 1]? = some equalsSign then 2 else 1
      else 0
    let numQuantums := (length + equalsTerm) / 4
    if numQuantums = 0 then none
    else some (alphabet64.decodeQuanta (3 - equalsTerm) (numQuantums - 1) src)

theorem isValidCharacter_of_mem_table64 {c : UInt8} (h : c ∈ table64) :
    nrB64IsValidCharacter c = true := by
  have hall : table64.all nrB64IsValidCharacter = true := by decide
  exact List.all_eq_true.mp hall c h

theorem isValidCharacter_of_mem_encode {data : Bytes} {c : UInt8}
    (h : c ∈ alphabet64.encode data) : nrB64IsValidCharacter c = true := by
  rcases alphabet64.mem_encode h with hmem | rfl
  · exact isValidCharacter_of_mem_table64 hmem
  · rfl

theorem equalsTerm_eq {body : Bytes} {n : ℕ} (h : n < 3) :
    (if (body ++ List.replicate n equalsSign)[body.length]? = some equalsSign then
      if (body ++ List.replicate n equalsSign)[body.length + 1]? = some equalsSign then 2 else 1
      else 0) = n := by
  have hget : ∀ i, (body ++ List.replicate n equalsSign)[body.length + i]? =
      (List.replicate n equalsSign)[i]? := by
    intro i
    rw [List.getElem?_append_right (Nat.le_add_right _ _), Nat.add_sub_cancel_left]
  have hzero := hget 0
  rw [Nat.add_zero] at hzero
  rw [hzero, hget 1]
  match n, h with
  | 0, _ => rfl
  | 1, _ => rfl
  | 2, _ => rfl

theorem nrB64Decode_encode {data : Bytes} (hne : data ≠ []) :
    nrB64Decode (alphabet64.encode data) = some data := by
  obtain ⟨body, heq, hbody, hlength⟩ := alphabet64.exists_encode_eq data
  have hpads : alphabet64.pad = equalsSign := rfl
  rw [hpads] at heq hbody
  have hvalid : (alphabet64.encode data).all nrB64IsValidCharacter = true :=
    List.all_eq_true.mpr fun c hc => isValidCharacter_of_mem_encode hc
  have htake : (alphabet64.encode data).takeWhile (· ≠ equalsSign) = body := by
    rw [heq, List.takeWhile_append_of_pos fun c hc => decide_eq_true (hbody c hc)]
    cases Alphabet.pads data.length <;> simp [List.replicate_succ]
  have hterm : (if (alphabet64.encode data)[body.length]? = some equalsSign then
      if (alphabet64.encode data)[body.length + 1]? = some equalsSign then 2 else 1
      else 0) = Alphabet.pads data.length := by
    rw [heq]
    exact equalsTerm_eq (Nat.mod_lt _ (by decide))
  have hpos : (data.length + 2) / 3 ≠ 0 := by
    have := List.length_pos_of_ne_nil hne
    omega
  rw [nrB64Decode]
  simp only [hvalid, Bool.not_true, Bool.false_eq_true, if_false, htake, hterm, hlength,
    Nat.mul_div_cancel_left _ (show 0 < 4 by decide), if_neg hpos]
  rw [alphabet64.decodeQuanta_encode hne]

/-! ### Obfuscation -/

/-- The loop over the text: its bytes with those of the key, over and over. -/
def xorKey (key str : Bytes) : Bytes :=
  str.mapIdx fun i c => c ^^^ key.getD (i % key.length) 0

theorem xorKey_xorKey (key str : Bytes) : xorKey key (xorKey key str) = str := by
  have hcancel : ∀ c k : UInt8, c ^^^ k ^^^ k = c := by
    intro c k
    rw [UInt8.xor_assoc, UInt8.xor_self, UInt8.xor_zero]
  apply List.ext_getElem
  · simp only [xorKey, List.length_mapIdx]
  · intro i h₁ h₂
    simp only [xorKey, List.getElem_mapIdx, hcancel]

end AxiomDaemon.Util

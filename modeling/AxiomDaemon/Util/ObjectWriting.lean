import AxiomDaemon.Util.Buffer
import AxiomDaemon.Util.ObjectRoundTrip

/-!
`nro_to_json` in memory: the calls by which it writes to a data buffer, whose
sizes are `int`s. As long as these hold what the strings may need when they are
escaped, the text is the one that `nroToJson` makes of the lists.
-/

namespace AxiomDaemon.Util

open AxiomDaemon.Lib AxiomDaemon.Lib.CText
open AxiomDaemon.Lib.Json (comma colon lbracket rbracket lbrace rbrace)

/-- The text of a string that is stored with its zero. -/
def cText (s : Bytes) : CString := ⟨cString s, fun h => by simpa using List.mem_takeWhile_imp h⟩

theorem cString_terminated {s : Bytes} (h : 0 ∉ s) : cString (terminated s) = s := by
  rw [cString, terminated,
    List.takeWhile_append_of_pos fun b hb => decide_eq_true (ne_of_mem_of_not_mem hb h)]
  exact List.append_nil s

namespace Memory

/-- `nr_buffer_add` of a text as long as it is. -/
def addText (buf : NrBuffer) (text : Bytes) : Checked NrBuffer :=
  nrBufferAdd buf (some text) text.length

mutual

/-- `recursive_obj_to_json`. -/
def recursiveObjToJson (buf : NrBuffer) : NrObj → Checked NrBuffer
  | .none => addText buf (ascii "null")
  | .boolean b => if b then addText buf (ascii "true") else addText buf (ascii "false")
  | .int i => addText buf (signedDecimal i)
  | .long l => addText buf (signedDecimal l)
  | .double d => addText buf (d.format 5)
  | .string s => nrBufferAddEscapeJson buf (some (cText s))
  | .jstring s => nrBufferAdd buf (some s) (CMemory.nrStrlen (cString s))
  | .hash entries => do
      let buf ← addText buf [lbrace]
      let buf ← entriesToJson buf entries
      addText buf [rbrace]
  | .array elements => do
      let buf ← addText buf [lbracket]
      let buf ← elementsToJson buf elements
      addText buf [rbracket]

/-- The loop over the keys: a comma after each entry but the last. -/
def entriesToJson (buf : NrBuffer) : List (Bytes × NrObj) → Checked NrBuffer
  | [] => .ok buf
  | (key, value) :: entries => do
      let buf ← nrBufferAddEscapeJson buf (some (cText key))
      let buf ← addText buf [colon]
      let buf ← recursiveObjToJson buf value
      let buf ← addText buf (if entries.isEmpty then [] else [comma])
      entriesToJson buf entries

/-- The loop over the elements. -/
def elementsToJson (buf : NrBuffer) : List NrObj → Checked NrBuffer
  | [] => .ok buf
  | value :: elements => do
      let buf ← recursiveObjToJson buf value
      let buf ← addText buf (if elements.isEmpty then [] else [comma])
      elementsToJson buf elements

end

/-- `nro_to_json`: the copy ends at the first zero. -/
def nroToJson (obj : Option NrObj) : Checked Bytes := do
  let buf := nrBufferCreate 4096 4096
  let buf ←
    match obj with
    | none => addText buf (ascii "null")
    | some obj => recursiveObjToJson buf obj
  let buf ← addText buf [0]
  .ok (cString buf.unread)

end Memory

/-! ### What is written -/

namespace ObjectJson

mutual

/-- The bytes of the longest string or key. -/
def longest : NrObj → ℕ
  | .string s => s.length
  | .hash entries => longestEntry entries
  | .array elements => longestElement elements
  | _ => 0

def longestEntry : List (Bytes × NrObj) → ℕ
  | [] => 0
  | (key, value) :: entries => max key.length (max (longest value) (longestEntry entries))

def longestElement : List NrObj → ℕ
  | [] => 0
  | value :: elements => max (longest value) (longestElement elements)

end

mutual

/-- No string of the object has a zero in it, and none is ready-made JSON. -/
def ZeroFree : NrObj → Prop
  | .string s => 0 ∉ s
  | .jstring _ => False
  | .hash entries => ZeroFreeEntries entries
  | .array elements => ZeroFreeElements elements
  | _ => True

def ZeroFreeEntries : List (Bytes × NrObj) → Prop
  | [] => True
  | (key, value) :: entries => 0 ∉ key ∧ ZeroFree value ∧ ZeroFreeEntries entries

def ZeroFreeElements : List NrObj → Prop
  | [] => True
  | value :: elements => ZeroFree value ∧ ZeroFreeElements elements

end

end ObjectJson

/-! ### Writing at the end of a buffer -/

/-- The call appends the text, which has no zero. To make room the buffer counts twice what it
holds, and six bytes for each of a string, none of which is longer than `n`. -/
structure Appends (write : NrBuffer → Checked NrBuffer) (text : Bytes) (n : ℕ) : Prop where
  zero_notMem : 0 ∉ text
  ok : ∀ bp : NrBuffer, bp.Valid → bp.extsize = 4096 →
    2 * (bp.avail + text.length) + 4 * n + 4096 < 2 ^ 31 →
      ∃ w, write bp = .ok w ∧ w.Valid ∧ w.extsize = 4096 ∧ w.unread = bp.unread ++ text

variable {n : ℕ}

theorem Appends.bind {write write' : NrBuffer → Checked NrBuffer} {text text' : Bytes}
    (h : Appends write text n) (h' : Appends write' text' n) :
    Appends (fun bp => write bp >>= write') (text ++ text') n := by
  refine ⟨List.mem_append.not.mpr (not_or.mpr ⟨h.zero_notMem, h'.zero_notMem⟩),
    fun bp hvalid hext hroom => ?_⟩
  rw [List.length_append] at hroom
  obtain ⟨v, hwrite, hv, hvext, hunread⟩ := h.ok bp hvalid hext (by omega)
  have havail := hv.avail_of_append hvalid hunread
  obtain ⟨w, hwrite', hw, hwext, hunread'⟩ := h'.ok v hv hvext (by omega)
  refine ⟨w, by rw [hwrite, ok_bind, hwrite'], hw, hwext, ?_⟩
  rw [hunread', hunread, List.append_assoc]

theorem NrBuffer.sizeFor_lt {bp : NrBuffer} (h : bp.Valid) (hext : bp.extsize = 4096) {needed : ℤ}
    (hroom : needed + bp.avail + 4096 < 2 ^ 31) : bp.sizeFor needed < 2 ^ 31 := by
  have hsize := h.size
  simp only [sizeFor, extensionFor, hext]
  split_ifs <;> omega

theorem nrBufferMakeRoom_extsize {bp w : NrBuffer} {needed : ℤ}
    (h : nrBufferMakeRoom bp needed = .ok w) : w.extsize = bp.extsize := by
  obtain ⟨v, hextend, hcompact⟩ := bind_eq_ok.mp h
  have hv : v.extsize = bp.extsize := by
    obtain ⟨remaining, -, hextend⟩ := bind_eq_ok.mp hextend
    split_ifs at hextend
    · obtain ⟨extra, -, hextend⟩ := bind_eq_ok.mp hextend
      obtain ⟨extension, -, hextend⟩ := bind_eq_ok.mp hextend
      obtain ⟨bsize, -, hextend⟩ := bind_eq_ok.mp hextend
      rw [← Except.ok.inj hextend]
    · rw [← Except.ok.inj hextend]
  rw [← hv]
  rw [nrBufferCompact] at hcompact
  split_ifs at hcompact
  · obtain ⟨buf, -, hcompact⟩ := bind_eq_ok.mp hcompact
    rw [← Except.ok.inj hcompact]
  · rw [← Except.ok.inj hcompact]

theorem nrBufferAdd_extsize {bp w : NrBuffer} {data : Option Bytes} {dlen : ℤ}
    (h : nrBufferAdd bp data dlen = .ok w) : w.extsize = bp.extsize := by
  rw [nrBufferAdd] at h
  split_ifs at h
  · rw [← Except.ok.inj h]
  · obtain ⟨needed, -, h⟩ := bind_eq_ok.mp h
    obtain ⟨v, hmake, h⟩ := bind_eq_ok.mp h
    rw [← nrBufferMakeRoom_extsize hmake]
    cases data
    all_goals
      obtain ⟨buf, -, h⟩ := bind_eq_ok.mp h
      obtain ⟨avail, -, h⟩ := bind_eq_ok.mp h
      rw [← Except.ok.inj h]

theorem nrBufferAddEscapeJson_extsize {bp w : NrBuffer} {raw : CString}
    (h : nrBufferAddEscapeJson bp (some raw) = .ok w) : w.extsize = bp.extsize := by
  obtain ⟨len, -, h⟩ := bind_eq_ok.mp h
  obtain ⟨v, hensure, h⟩ := bind_eq_ok.mp h
  obtain ⟨escaped, -, h⟩ := bind_eq_ok.mp h
  rw [nrBufferAdd_extsize h, ← nrBufferMakeRoom_extsize hensure]

theorem addText_spec {bp : NrBuffer} (h : bp.Valid) (hext : bp.extsize = 4096) (text : Bytes)
    (hroom : 2 * (bp.avail + text.length) + 4096 < 2 ^ 31) :
    ∃ w, Memory.addText bp text = .ok w ∧ w.Valid ∧ w.extsize = 4096 ∧
      w.unread = bp.unread ++ text := by
  have havail := h.avail
  by_cases hempty : text = []
  · refine ⟨bp, ?_, h, hext, by rw [hempty, List.append_nil]⟩
    rw [hempty]
    rfl
  · have hpos := List.length_pos_of_ne_nil hempty
    obtain ⟨w, bytes, hadd, hw, -, hunread, -, hbytes⟩ := nrBufferAdd_spec h (some text)
      (show 0 < (text.length : ℤ) by omega) (by rintro d ⟨⟩; exact le_rfl)
      (NrBuffer.sizeFor_lt h hext (by omega))
    refine ⟨w, hadd, hw, (nrBufferAdd_extsize hadd).trans hext, ?_⟩
    rw [hunread, hbytes text rfl, Int.toNat_natCast, List.take_length]

theorem appends_addText {text : Bytes} (hzero : 0 ∉ text) :
    Appends (Memory.addText · text) text n :=
  ⟨hzero, fun _ h hext hroom => addText_spec h hext text (by omega)⟩

theorem le_length_escapeLoop (s : Bytes) : s.length ≤ (escapeLoop s).length := by
  fun_induction escapeLoop s <;>
    simp only [escapeFault, escapeUnit, escapePair, List.length_append, List.length_cons,
      List.length_nil] at * <;> omega

theorem appends_escape {s : Bytes} (hzero : 0 ∉ s) (hn : s.length ≤ n) :
    Appends (nrBufferAddEscapeJson · (some (cText s))) (nrJsonEscape s) n := by
  refine ⟨ObjectJson.zero_notMem_string s, fun bp h hext hroom => ?_⟩
  have hlonger := le_length_escapeLoop s
  rw [nrJsonEscape, List.length_cons, List.length_append, List.length_singleton] at hroom
  have havail := h.avail
  have hraw : (cText s).val = s := takeWhile_ne_zero hzero
  have hneeded : escapedSpaceNeeded (cText s) = 6 * s.length + 3 := by
    rw [escapedSpaceNeeded, hraw]
    omega
  obtain ⟨w, hadd, hw, -, hunread⟩ := nrBufferAddEscapeJson_spec h (cText s)
    (NrBuffer.sizeFor_lt h hext (by omega))
  exact ⟨w, hadd, hw, (nrBufferAddEscapeJson_extsize hadd).trans hext, by rw [hunread, hraw]⟩

/-! ### Writing objects -/

namespace ObjectJson

theorem appends_nil : Appends .ok [] n :=
  ⟨List.not_mem_nil, fun bp h hext _ => ⟨bp, rfl, h, hext, (List.append_nil _).symm⟩⟩

theorem appends_comma (last : Bool) :
    Appends (Memory.addText · (if last then [] else [comma])) (if last then [] else [comma]) n := by
  cases last with
  | false => exact appends_addText (by decide)
  | true => exact appends_nil

mutual

theorem appends_recursiveObjToJson (obj : NrObj) (h : ZeroFree obj) (hn : longest obj ≤ n) :
    Appends (Memory.recursiveObjToJson · obj) (recursiveObjToJson obj) n := by
  cases obj with
  | none => exact appends_addText (by decide)
  | boolean b =>
      cases b with
      | true => exact appends_addText (show 0 ∉ ascii "true" by decide)
      | false => exact appends_addText (show 0 ∉ ascii "false" by decide)
  | int i => exact appends_addText (zero_notMem_int i)
  | long l => exact appends_addText (zero_notMem_int l)
  | double d => exact appends_addText (zero_notMem_double d)
  | string s => exact appends_escape h hn
  | jstring s => exact h.elim
  | hash entries =>
      exact (appends_addText (by decide)).bind
        ((appends_entriesToJson entries h hn).bind (appends_addText (by decide)))
  | array elements =>
      exact (appends_addText (by decide)).bind
        ((appends_elementsToJson elements h hn).bind (appends_addText (by decide)))

theorem appends_entriesToJson (entries : List (Bytes × NrObj)) (h : ZeroFreeEntries entries)
    (hn : longestEntry entries ≤ n) :
    Appends (Memory.entriesToJson · entries) (entriesToJson entries) n := by
  match entries with
  | [] => exact appends_nil
  | (key, value) :: entries =>
      obtain ⟨hkey, hrest⟩ := max_le_iff.mp hn
      obtain ⟨hvalue, hentries⟩ := max_le_iff.mp hrest
      exact (appends_escape h.1 hkey).bind ((appends_addText (by decide)).bind
        ((appends_recursiveObjToJson value h.2.1 hvalue).bind
          ((appends_comma entries.isEmpty).bind (appends_entriesToJson entries h.2.2 hentries))))

theorem appends_elementsToJson (elements : List NrObj) (h : ZeroFreeElements elements)
    (hn : longestElement elements ≤ n) :
    Appends (Memory.elementsToJson · elements) (elementsToJson elements) n := by
  match elements with
  | [] => exact appends_nil
  | value :: elements =>
      obtain ⟨hvalue, helements⟩ := max_le_iff.mp hn
      exact (appends_recursiveObjToJson value h.1 hvalue).bind
        ((appends_comma elements.isEmpty).bind (appends_elementsToJson elements h.2 helements))

end

theorem nroToJson_memory {obj : NrObj} (h : ZeroFree obj)
    (hspace : 2 * (nroToJson (some obj)).length + 4 * longest obj < 2 ^ 31 - 2 ^ 13) :
    Memory.nroToJson (some obj) = .ok (nroToJson (some obj)) := by
  obtain ⟨hcreate, hempty⟩ := nrBufferCreate_valid (show (4096 : ℤ) < 2 ^ 31 by decide) 4096
  obtain ⟨hzero, hok⟩ := appends_recursiveObjToJson obj h (le_refl (longest obj))
  have hlength : (nroToJson (some obj)).length = (recursiveObjToJson obj).length := rfl
  obtain ⟨w, hwrite, hw, hwext, hunread⟩ := hok _ hcreate rfl (by
    change 2 * (0 + ((recursiveObjToJson obj).length : ℤ)) + 4 * longest obj + 4096 < 2 ^ 31
    omega)
  have havail : w.avail = 0 + (recursiveObjToJson obj).length := hw.avail_of_append hcreate hunread
  obtain ⟨v, hlast, -, -, hunread'⟩ := addText_spec hw hwext [0] (by
    rw [havail, List.length_singleton]
    omega)
  simp only [Memory.nroToJson, hwrite, hlast, ok_bind, hunread', hunread, hempty, List.nil_append]
  exact congrArg Except.ok (cString_terminated hzero)

mutual

theorem recursiveObjToJson_widen (buf : NrBuffer) (obj : NrObj) :
    Memory.recursiveObjToJson buf (widen obj) = Memory.recursiveObjToJson buf obj := by
  cases obj with
  | hash entries =>
      rw [widen, Memory.recursiveObjToJson, Memory.recursiveObjToJson]
      simp only [entriesToJson_widen]
  | array elements =>
      rw [widen, Memory.recursiveObjToJson, Memory.recursiveObjToJson]
      simp only [elementsToJson_widen]
  | _ => rfl

theorem entriesToJson_widen (buf : NrBuffer) (entries : List (Bytes × NrObj)) :
    Memory.entriesToJson buf (widenEntries entries) = Memory.entriesToJson buf entries := by
  match entries with
  | [] => rfl
  | (key, value) :: entries =>
      have hempty : (widenEntries entries).isEmpty = entries.isEmpty := by
        cases entries <;> rfl
      rw [widenEntries, Memory.entriesToJson, Memory.entriesToJson, hempty]
      simp only [recursiveObjToJson_widen, entriesToJson_widen]

theorem elementsToJson_widen (buf : NrBuffer) (elements : List NrObj) :
    Memory.elementsToJson buf (widenElements elements) = Memory.elementsToJson buf elements := by
  match elements with
  | [] => rfl
  | value :: elements =>
      have hempty : (widenElements elements).isEmpty = elements.isEmpty := by
        cases elements <;> rfl
      rw [widenElements, Memory.elementsToJson, Memory.elementsToJson, hempty]
      simp only [recursiveObjToJson_widen, elementsToJson_widen]

end

mutual

theorem zeroFree_of_isPlainObject (obj : NrObj) (h : IsPlainObject obj) : ZeroFree obj := by
  cases obj with
  | string s => exact h.2
  | jstring s => exact h.elim
  | hash entries => exact zeroFree_of_arePlainEntries entries h.1
  | array elements => exact zeroFree_of_arePlainElements elements h
  | _ => trivial

theorem zeroFree_of_arePlainEntries (entries : List (Bytes × NrObj)) (h : ArePlainEntries entries) :
    ZeroFreeEntries entries := by
  match entries with
  | [] => trivial
  | (key, value) :: entries =>
      obtain ⟨⟨hkey, -, hvalue⟩, hrest⟩ := h
      exact ⟨hkey.2, zeroFree_of_isPlainObject value hvalue,
        zeroFree_of_arePlainEntries entries hrest⟩

theorem zeroFree_of_arePlainElements (elements : List NrObj) (h : ArePlainElements elements) :
    ZeroFreeElements elements := by
  match elements with
  | [] => trivial
  | value :: elements =>
      exact ⟨zeroFree_of_isPlainObject value h.1, zeroFree_of_arePlainElements elements h.2⟩

end

/-- An object that was written is read back, up to the widths of its integers,
and written again gives the same text, as long as the sizes of the buffer are
ones that `int` holds: it counts the text twice. -/
theorem nroCreateFromJson_nroToJson (unset : Bytes → ℕ) (obj : NrObj) (h : IsPlainObject obj)
    (hspace : 2 * (nroToJson (some obj)).length + 4 * longest obj < 2 ^ 31 - 2 ^ 13) :
    ∃ text obj', Memory.nroToJson (some obj) = .ok text ∧
      nroCreateFromJson unset text = some obj' ∧ widen obj' = widen obj ∧
      Memory.nroToJson (some obj') = .ok text := by
  obtain ⟨obj', hreads, hwiden, -⟩ := exists_survives unset obj h
  have htext := nroToJson_memory (zeroFree_of_isPlainObject obj h) hspace
  refine ⟨_, obj', htext, hreads.nroCreateFromJson_eq, hwiden, ?_⟩
  have hsame : Memory.nroToJson (some obj') = Memory.nroToJson (some obj) := by
    simp only [Memory.nroToJson]
    rw [← recursiveObjToJson_widen _ obj', hwiden, recursiveObjToJson_widen]
  rw [hsame, htext]

/-- The smallest `int` in a hash. -/
theorem nroCreateFromJson_nroToJson_intMin :
    ∃ text obj', Memory.nroToJson
        (some (.hash [([0x61], .array [.int (-2 ^ 31), .none])])) = .ok text ∧
      nroCreateFromJson (fun _ => 0) text = some obj' ∧
      widen obj' = widen (.hash [([0x61], .array [.int (-2 ^ 31), .none])]) ∧
      Memory.nroToJson (some obj') = .ok text := by
  have hkey : IsBmpString [0x61] := by
    refine ⟨⟨[0x61], by decide, ?_⟩, by decide⟩
    intro u hu
    rw [List.mem_singleton.mp hu]
    decide
  have h : IsPlainObject (.hash [([0x61], .array [.int (-2 ^ 31), .none])]) := by
    simp [IsPlainObject, ArePlainEntries, ArePlainElements, hkey]
  exact nroCreateFromJson_nroToJson (fun _ => 0) _ h (by decide +kernel)

/-! ### Beyond `int` -/

theorem escapeLoop_lettersA {capacity n : ℕ} {out : Bytes} (h : capacity < out.length + n + 2) :
    Memory.escapeLoop capacity (terminated (lettersA n).val) out = .error .write := by
  induction n generalizing out with
  | zero =>
      have hletters : terminated (lettersA 0).val = [0] := rfl
      rw [hletters, Memory.escapeLoop, if_pos rfl]
      exact if_neg (not_le_of_gt h)
  | succ n ih =>
      have hletters : terminated (lettersA (n + 1)).val = 0x61 :: terminated (lettersA n).val := rfl
      have hescape : escapeChar 0x61 = none := rfl
      rw [hletters, Memory.escapeLoop, if_neg (by decide)]
      simp only [hescape]
      rw [if_pos (by decide), if_neg (by decide), store]
      split_ifs
      · rw [ok_bind]
        refine ih ?_
        rw [List.length_append, List.length_singleton]
        omega
      · rfl

theorem isBmpString_lettersA (n : ℕ) : IsBmpString (lettersA n).val := by
  have hascii : ∀ b ∈ (lettersA n).val, b.toNat < 0x80 := fun b hb => by
    rw [List.eq_of_mem_replicate hb]
    decide
  refine ⟨⟨_, utf16_of_ascii hascii, fun u hu => ?_⟩, (lettersA n).property⟩
  obtain ⟨b, hb, rfl⟩ := List.mem_map.mp hu
  have hlt := hascii b hb
  omega

/-- From this length on the bytes that are asked for are negative as an `int`, and the buffer is
left as it is. -/
theorem nrBufferAddEscapeJson_overruns {bp : NrBuffer} (h : bp.Valid) (hfront : bp.bptr = 0)
    (havail : bp.avail = 1) (hbsize : bp.bsize = 4096) :
    nrBufferAddEscapeJson bp (some (lettersA 357913941)) = .error .write := by
  obtain ⟨n, hn⟩ : ∃ n, n = 357913941 := ⟨_, rfl⟩
  have hlength : (lettersA n).val.length = n := List.length_replicate
  have hensure : nrBufferEnsure bp
      ((CMemory.intToSize (CMemory.sizeToInt (lettersA n).val.length) * 6 + 3) % 2 ^ 64) = .ok bp := by
    rw [hlength, hn, nrBufferEnsure, havail]
    refine nrBufferMakeRoom_of_le h hfront ?_
    rw [havail, hbsize]
    decide
  have hescape : Memory.nrJsonEscape (some (bp.bsize - bp.avail).toNat)
      (some (terminated (lettersA n).val)) = .error .write := by
    rw [havail, hbsize]
    refine escapeLoop_lettersA ?_
    change 4095 < 1 + n + 2
    omega
  rw [← hn, nrBufferAddEscapeJson, strlen_terminated (lettersA n).property, ok_bind, hensure,
    ok_bind, hescape]
  rfl

theorem exists_addText_lbracket :
    ∃ bp, Memory.addText (nrBufferCreate 4096 4096) [lbracket] = .ok bp ∧ bp.Valid ∧
      bp.bptr = 0 ∧ bp.avail = 1 ∧ bp.bsize = 4096 := by
  have hcreate := (nrBufferCreate_valid (show (4096 : ℤ) < 2 ^ 31 by decide) 4096).1
  have hbracket : ∀ d ∈ some [lbracket], (1 : ℤ).toNat ≤ d.length := by
    rintro d ⟨⟩
    exact le_rfl
  obtain ⟨v, hmake, -, -, -, -, -, hadd⟩ :=
    nrBufferAdd_of_room hcreate (some [lbracket]) Int.one_pos hbracket (by decide)
  obtain rfl := Except.ok.inj ((nrBufferMakeRoom_of_le hcreate rfl (by decide)).symm.trans hmake)
  obtain ⟨w, bytes, hadd', hw, -⟩ :=
    nrBufferAdd_spec hcreate (some [lbracket]) Int.one_pos hbracket (by decide)
  obtain rfl := Except.ok.inj (hadd.symm.trans hadd')
  exact ⟨_, hadd, hw, rfl, rfl, rfl⟩

theorem nroToJson_overruns (elements : List NrObj) :
    Memory.nroToJson (some (.array (.string (lettersA 357913941).val :: elements))) =
      .error .write := by
  obtain ⟨bp, hbracket, hvalid, hfront, havail, hbsize⟩ := exists_addText_lbracket
  have hadd := nrBufferAddEscapeJson_overruns hvalid hfront havail hbsize
  generalize lettersA 357913941 = letters at hadd ⊢
  have hraw : cText letters.val = letters := Subtype.ext (takeWhile_ne_zero letters.property)
  have hobj : Memory.recursiveObjToJson (nrBufferCreate 4096 4096)
      (.array (.string letters.val :: elements)) = .error .write := by
    rw [Memory.recursiveObjToJson, hbracket, ok_bind, Memory.elementsToJson,
      Memory.recursiveObjToJson, hraw, hadd, error_bind, error_bind]
  exact congrArg (· >>= _) hobj

/-- A string of 357,913,941 letters is not written. -/
theorem nroCreateFromJson_overruns :
    ¬ ∀ (unset : Bytes → ℕ) (obj : NrObj), IsPlainObject obj → ∃ text obj',
      Memory.nroToJson (some obj) = .ok text ∧ nroCreateFromJson unset text = some obj' ∧
        widen obj' = widen obj ∧ Memory.nroToJson (some obj') = .ok text := by
  intro h
  obtain ⟨text, obj', htext, -⟩ :=
    h (fun _ => 0) (.array [.string (lettersA 357913941).val]) ⟨isBmpString_lettersA _, trivial⟩
  rw [nroToJson_overruns] at htext
  cases htext

end ObjectJson

end AxiomDaemon.Util

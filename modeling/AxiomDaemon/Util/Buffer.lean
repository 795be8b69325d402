import AxiomDaemon.Lib.CMemory
import AxiomDaemon.Lib.Transition
import AxiomDaemon.Util.EscapeBounds
import AxiomDaemon.Util.StringPool

/-!
The data buffer of `util_buffer.c`.

`buf` is the allocated block. Its unread bytes are the `avail` ones from `bptr`
on: what is used moves `bptr`, what is added may move the unread bytes back to
the front, or the block to a larger one. Allocation is taken to succeed, since
`nr_malloc` and `nr_realloc` end the process when it does not. All sizes are
`int`s, and the model faults where one does not hold a size.
-/

namespace AxiomDaemon.Util

open AxiomDaemon.Lib AxiomDaemon.Lib.CText AxiomDaemon.Lib.CMemory

/-- `nrbuf_t`. -/
structure NrBuffer where
  avail : ℤ
  bsize : ℤ
  bptr : ℤ
  extsize : ℤ
  buf : Bytes
  deriving DecidableEq

/-- `nr_buffer_create`. -/
def nrBufferCreate (estsize extsize : ℤ) : NrBuffer :=
  let estsize := if estsize < 1024 then 1024 else estsize
  let extsize := if extsize ≤ 0 then estsize.tdiv 3 else extsize
  let extsize := if extsize < 512 then 512 else extsize
  { avail := 0, bsize := estsize, bptr := 0, extsize, buf := List.replicate estsize.toNat 0 }

/-- `nr_buffer_reset`. -/
def nrBufferReset (bp : NrBuffer) : NrBuffer := { bp with avail := 0, bptr := 0 }

/-- By how much a block is extended that lacks so many bytes: by the extension
size, or by so many times of it that the bytes have room. -/
def nrBufferExtension (extsize bytesExtra : ℤ) : Checked ℤ :=
  if bytesExtra < extsize then .ok extsize
  else do
    let times ← int (bytesExtra.tdiv extsize + 1)
    int (times * extsize)

/-- The extension that `nr_buffer_add` and `nr_buffer_ensure` make where there
is no room. -/
def nrBufferExtend (bp : NrBuffer) (bytesNeeded : ℤ) : Checked NrBuffer := do
  let bytesRemaining ← int (bp.bsize - bp.avail)
  if bytesRemaining < bytesNeeded then do
    let bytesExtra ← int (bytesNeeded - bytesRemaining)
    let extension ← nrBufferExtension bp.extsize bytesExtra
    let bsize ← int (bp.bsize + extension)
    .ok { bp with bsize, buf := blockResize bp.buf bsize.toNat 0 }
  else .ok bp

/-- What both do next: the unread bytes go to the front of the block. -/
def nrBufferCompact (bp : NrBuffer) : Checked NrBuffer :=
  if bp.bptr ≠ 0 then do
    let buf ← memmove bp.buf 0 bp.bptr.toNat bp.avail.toNat
    .ok { bp with buf, bptr := 0 }
  else .ok bp

def nrBufferMakeRoom (bp : NrBuffer) (bytesNeeded : ℤ) : Checked NrBuffer := do
  let bp ← nrBufferExtend bp bytesNeeded
  nrBufferCompact bp

/-- `nr_buffer_add`. -/
def nrBufferAdd (bp : NrBuffer) (data : Option Bytes) (dlen : ℤ) : Checked NrBuffer :=
  if dlen ≤ 0 then .ok bp
  else do
    let bytesNeeded ← int (dlen + bp.avail)
    let bp ← nrBufferMakeRoom bp bytesNeeded
    let buf ←
      match data with
      | some data => memcpy bp.buf bp.avail.toNat data dlen.toNat
      | none => .ok bp.buf
    let avail ← int (bp.avail + dlen)
    .ok { bp with buf, avail }

/-- `nr_buffer_ensure`. The number of bytes needed is a `size_t` until it is
stored. The place for the data is the one behind the unread bytes. -/
def nrBufferEnsure (bp : NrBuffer) (reqsize : ℕ) : Checked NrBuffer :=
  nrBufferMakeRoom bp (sizeToInt ((reqsize + intToSize bp.avail) % 2 ^ 64))

/-- `nr_buffer_add_escape_json`. -/
def nrBufferAddEscapeJson (bp : NrBuffer) (rawString : Option CString) : Checked NrBuffer :=
  match rawString with
  | none => .ok bp
  | some raw => do
      let len ← strlen (terminated raw.val)
      let bp ← nrBufferEnsure bp ((intToSize (sizeToInt len) * 6 + 3) % 2 ^ 64)
      let escaped ←
        Memory.nrJsonEscape (some (bp.bsize - bp.avail).toNat) (some (terminated raw.val))
      nrBufferAdd { bp with buf := blockCopy bp.buf bp.avail.toNat escaped } none
        (sizeToInt (escaped.length - 1))

/-- `nr_buffer_write_uint64_t_as_text`. -/
def nrBufferWriteUint64TAsText (bp : NrBuffer) (val : UInt64) : Checked NrBuffer :=
  let tmp := decimal val.toNat
  nrBufferAdd bp (some (terminated tmp)) tmp.length

/-- The copy that `nr_buffer_use` makes, to a place with room for so many bytes
if `destp` is not `NULL`. -/
def nrBufferCopyOut (bp : NrBuffer) (destp : Option ℕ) (dlen : ℤ) : Checked (Option Bytes) :=
  match destp with
  | some room => some <$> memcpyOut room bp.buf bp.bptr.toNat dlen.toNat
  | none => .ok none

/-- What `nr_buffer_use` does with as many bytes as there are: the buffer, what
the call returns, and the bytes copied. -/
def nrBufferTake (bp : NrBuffer) (destp : Option ℕ) (dlen : ℤ) :
    Checked (NrBuffer × ℤ × Option Bytes) := do
  let copied ← nrBufferCopyOut bp destp dlen
  let avail ← int (bp.avail - dlen)
  if avail = 0 then .ok ({ bp with avail, bptr := 0 }, dlen, copied)
  else do
    let bptr ← int (bp.bptr + dlen)
    .ok ({ bp with avail, bptr }, dlen, copied)

/-- `nr_buffer_use`. -/
def nrBufferUse (bp : NrBuffer) (destp : Option ℕ) (dlen : ℤ) :
    Checked (NrBuffer × ℤ × Option Bytes) :=
  if dlen < 0 then .ok (bp, -1, none)
  else nrBufferTake bp destp (if bp.avail < dlen then bp.avail else dlen)

/-- `nr_buffer_peek_end`. -/
def nrBufferPeekEnd (bp : NrBuffer) : Checked UInt8 :=
  if bp.avail = 0 then .ok 0
  else
    match bp.buf[(bp.avail - 1).toNat]? with
    | some b => .ok b
    | none => .error .read

/-! ### What the operations do to the unread bytes -/

/-- The unread bytes. -/
def NrBuffer.unread (bp : NrBuffer) : Bytes := (bp.buf.drop bp.bptr.toNat).take bp.avail.toNat

/-- The unread bytes lie within the block, and the block has the size that it
is taken to have. -/
structure NrBuffer.Valid (bp : NrBuffer) : Prop where
  avail : 0 ≤ bp.avail
  start : 0 ≤ bp.bptr
  fits : bp.bptr + bp.avail ≤ bp.bsize
  block : (bp.buf.length : ℤ) = bp.bsize
  size : bp.bsize < 2 ^ 31
  ext : 0 < bp.extsize

/-- The extension without the limits of `int`. -/
def extensionFor (extsize bytesExtra : ℤ) : ℤ :=
  if bytesExtra < extsize then extsize else (bytesExtra / extsize + 1) * extsize

/-- The size that the block gets for so many bytes, if nothing limits it. -/
def NrBuffer.sizeFor (bp : NrBuffer) (bytesNeeded : ℤ) : ℤ :=
  let bytesExtra := bytesNeeded - (bp.bsize - bp.avail)
  if 0 < bytesExtra then bp.bsize + extensionFor bp.extsize bytesExtra else bp.bsize

@[simp] theorem NrBuffer.Valid.length_unread {bp : NrBuffer} (h : bp.Valid) :
    bp.unread.length = bp.avail.toNat := by
  have havail := h.avail
  have hstart := h.start
  have hfits := h.fits
  have hblock := h.block
  rw [unread, List.length_take, List.length_drop]
  omega

/-- Bytes that are added behind the unread ones are as many more. -/
theorem NrBuffer.Valid.avail_of_append {bp w : NrBuffer} (hw : w.Valid) (h : bp.Valid)
    {bytes : Bytes} (hunread : w.unread = bp.unread ++ bytes) :
    w.avail = bp.avail + bytes.length := by
  have hlen := congrArg List.length hunread
  have havail := h.avail
  have havail' := hw.avail
  rw [List.length_append, hw.length_unread, h.length_unread] at hlen
  omega

theorem nrBufferCreate_valid {estsize : ℤ} (h : estsize < 2 ^ 31) (extsize : ℤ) :
    (nrBufferCreate estsize extsize).Valid ∧ (nrBufferCreate estsize extsize).unread = [] := by
  have hest : 1024 ≤ (nrBufferCreate estsize extsize).bsize := by
    simp only [nrBufferCreate]
    split <;> omega
  refine ⟨⟨le_refl 0, le_refl 0, ?_, ?_, ?_, ?_⟩, List.take_zero⟩
  · change 0 + 0 ≤ (nrBufferCreate estsize extsize).bsize
    omega
  · change ((List.replicate (nrBufferCreate estsize extsize).bsize.toNat (0 : UInt8)).length : ℤ) =
      (nrBufferCreate estsize extsize).bsize
    rw [List.length_replicate, Int.toNat_of_nonneg (by omega)]
  · simp only [nrBufferCreate]
    split <;> omega
  · simp only [nrBufferCreate]
    split <;> omega

theorem lt_extensionFor {extsize : ℤ} (hext : 0 < extsize) (bytesExtra : ℤ) :
    bytesExtra < extensionFor extsize bytesExtra := by
  rw [extensionFor]
  split
  · assumption
  · exact Int.lt_ediv_add_one_mul_self bytesExtra hext

theorem nrBufferExtension_eq {extsize bytesExtra : ℤ} (hext : 0 < extsize) (hextra : 0 ≤ bytesExtra)
    (hsize : extensionFor extsize bytesExtra < 2 ^ 31) :
    nrBufferExtension extsize bytesExtra = .ok (extensionFor extsize bytesExtra) := by
  rw [nrBufferExtension]
  rw [extensionFor] at hsize ⊢
  by_cases hone : bytesExtra < extsize
  · rw [if_pos hone, if_pos hone]
  · rw [if_neg hone] at hsize
    have hnonneg : 0 ≤ bytesExtra / extsize := Int.ediv_nonneg hextra (le_of_lt hext)
    have htimes : bytesExtra / extsize + 1 ≤ (bytesExtra / extsize + 1) * extsize :=
      le_mul_of_one_le_right (by omega) hext
    rw [if_neg hone, if_neg hone, Int.tdiv_eq_ediv_of_nonneg hextra,
      int_of_range (by omega) (by omega), ok_bind]
    exact int_of_range (by omega) hsize

section Room

variable {bp : NrBuffer}

/-- The size is enough for the bytes that are needed, and for the unread ones
again. -/
theorem NrBuffer.le_sizeFor (hext : 0 < bp.extsize) (needed : ℤ) :
    bp.bsize ≤ bp.sizeFor needed ∧ needed + bp.avail ≤ bp.sizeFor needed := by
  have hlt := lt_extensionFor hext (needed - (bp.bsize - bp.avail))
  simp only [sizeFor]
  split <;> omega

theorem nrBufferExtend_of_le (h : bp.Valid) {needed : ℤ} (hneeded : needed ≤ bp.bsize - bp.avail) :
    nrBufferExtend bp needed = .ok bp := by
  have havail := h.avail
  have hstart := h.start
  have hfits := h.fits
  have hsize := h.size
  rw [nrBufferExtend, int_of_range (by omega) (by omega), ok_bind,
    if_neg (not_lt_of_ge hneeded)]

/-- Where the block is extended, it gets the size that the bytes call for. -/
theorem nrBufferExtend_of_lt (h : bp.Valid) {needed : ℤ} (hneeded : bp.bsize - bp.avail < needed)
    (hsize : bp.sizeFor needed < 2 ^ 31) :
    nrBufferExtend bp needed =
      .ok { bp with
            bsize := bp.sizeFor needed
            buf := blockResize bp.buf (bp.sizeFor needed).toNat 0 } := by
  have havail := h.avail
  have hstart := h.start
  have hfits := h.fits
  have hold := h.size
  obtain ⟨hle, hroom⟩ := NrBuffer.le_sizeFor h.ext needed
  have hextra : 0 < needed - (bp.bsize - bp.avail) := by omega
  have hnew : bp.sizeFor needed =
      bp.bsize + extensionFor bp.extsize (needed - (bp.bsize - bp.avail)) := if_pos hextra
  rw [nrBufferExtend, int_of_range (by omega) (by omega), ok_bind, if_pos hneeded,
    int_of_range (by omega) (by omega), ok_bind,
    nrBufferExtension_eq h.ext (le_of_lt hextra) (by omega), ok_bind, ← hnew,
    int_of_range (by omega) hsize, ok_bind]

theorem nrBufferExtend_spec (h : bp.Valid) {needed : ℤ} (hsize : bp.sizeFor needed < 2 ^ 31) :
    ∃ w, nrBufferExtend bp needed = .ok w ∧ w.Valid ∧ w.avail = bp.avail ∧
      w.bsize = bp.sizeFor needed ∧ w.unread = bp.unread := by
  by_cases hneeded : needed ≤ bp.bsize - bp.avail
  · have hsame : bp.sizeFor needed = bp.bsize := by
      rw [NrBuffer.sizeFor]
      exact if_neg (by omega)
    exact ⟨bp, nrBufferExtend_of_le h hneeded, h, rfl, hsame.symm, rfl⟩
  · have havail := h.avail
    have hstart := h.start
    have hfits := h.fits
    have hblock := h.block
    obtain ⟨hle, hroom⟩ := NrBuffer.le_sizeFor h.ext needed
    refine ⟨_, nrBufferExtend_of_lt h (by omega) hsize, ⟨havail, hstart, ?_, ?_, hsize, h.ext⟩, rfl,
      rfl, ?_⟩
    · change bp.bptr + bp.avail ≤ bp.sizeFor needed
      omega
    · change ((blockResize bp.buf (bp.sizeFor needed).toNat 0).length : ℤ) = bp.sizeFor needed
      rw [length_blockResize, Int.toNat_of_nonneg (by omega)]
    · have hold : bp.bptr.toNat + bp.avail.toNat ≤ bp.buf.length := by omega
      have hnew : bp.bptr.toNat + bp.avail.toNat ≤ (bp.sizeFor needed).toNat := by omega
      exact take_drop_blockResize hnew hold

theorem nrBufferCompact_spec (h : bp.Valid) :
    ∃ w, nrBufferCompact bp = .ok w ∧ w.Valid ∧ w.avail = bp.avail ∧ w.bsize = bp.bsize ∧
      w.bptr = 0 ∧ w.unread = bp.unread := by
  have havail := h.avail
  have hstart := h.start
  have hfits := h.fits
  have hblock := h.block
  by_cases hzero : bp.bptr = 0
  · exact ⟨bp, if_neg (not_not.mpr hzero), h, rfl, rfl, hzero, rfl⟩
  · have hsrc : bp.bptr.toNat + bp.avail.toNat ≤ bp.buf.length := by omega
    have hdst : 0 + bp.avail.toNat ≤ bp.buf.length := by omega
    refine ⟨{ bp with buf := blockMove bp.buf 0 bp.bptr.toNat bp.avail.toNat, bptr := 0 }, ?_,
      ⟨havail, le_refl 0, ?_, ?_, h.size, h.ext⟩, rfl, rfl, rfl, ?_⟩
    · rw [nrBufferCompact, if_pos hzero, memmove_of_le hsrc hdst]
      rfl
    · change 0 + bp.avail ≤ bp.bsize
      omega
    · change ((blockMove bp.buf 0 bp.bptr.toNat bp.avail.toNat).length : ℤ) = bp.bsize
      rw [length_blockMove hdst hsrc, hblock]
    · exact take_blockMove_front hsrc

theorem nrBufferMakeRoom_spec (h : bp.Valid) {needed : ℤ} (hsize : bp.sizeFor needed < 2 ^ 31) :
    ∃ w, nrBufferMakeRoom bp needed = .ok w ∧ w.Valid ∧ w.avail = bp.avail ∧
      w.bsize = bp.sizeFor needed ∧ w.bptr = 0 ∧ w.unread = bp.unread := by
  obtain ⟨v, hextend, hv, havail, hbsize, hunread⟩ := nrBufferExtend_spec h hsize
  obtain ⟨w, hcompact, hw, havail', hbsize', hfront, hunread'⟩ := nrBufferCompact_spec hv
  refine ⟨w, ?_, hw, havail'.trans havail, hbsize'.trans hbsize, hfront, hunread'.trans hunread⟩
  rw [nrBufferMakeRoom, hextend]
  exact hcompact

/-- The bytes that lie behind the unread ones at the front become unread as well. -/
theorem NrBuffer.Valid.append (h : bp.Valid) (hfront : bp.bptr = 0) {buf : Bytes} {dlen : ℤ}
    (hdlen : 0 ≤ dlen) (hroom : bp.avail + dlen ≤ bp.bsize)
    (hlen : buf.length = bp.buf.length)
    (htake : buf.take bp.avail.toNat = bp.buf.take bp.avail.toNat) :
    NrBuffer.Valid { bp with buf, avail := bp.avail + dlen } ∧
      NrBuffer.unread { bp with buf, avail := bp.avail + dlen } =
        bp.unread ++ (buf.drop bp.avail.toNat).take dlen.toNat := by
  have havail := h.avail
  refine ⟨⟨?_, h.start, ?_, ?_, h.size, h.ext⟩, ?_⟩
  · change 0 ≤ bp.avail + dlen
    omega
  · change bp.bptr + (bp.avail + dlen) ≤ bp.bsize
    omega
  · change (buf.length : ℤ) = bp.bsize
    rw [hlen, h.block]
  · simp only [unread, hfront, Int.toNat_zero, List.drop_zero]
    rw [Int.toNat_add havail hdlen, List.take_add, htake]

/-- What `nr_buffer_add` does once there is room at the front of the block. -/
theorem nrBufferAdd_of_room (h : bp.Valid) (data : Option Bytes) {dlen : ℤ} (hdlen : 0 < dlen)
    (hdata : ∀ d ∈ data, dlen.toNat ≤ d.length) (hsize : bp.sizeFor (dlen + bp.avail) < 2 ^ 31) :
    ∃ w, nrBufferMakeRoom bp (dlen + bp.avail) = .ok w ∧ w.Valid ∧ w.bptr = 0 ∧
      w.avail = bp.avail ∧ w.avail + dlen ≤ w.bsize ∧ w.unread = bp.unread ∧
      nrBufferAdd bp data dlen =
        .ok { w with
              buf := data.elim w.buf fun d => blockCopy w.buf w.avail.toNat (d.take dlen.toNat)
              avail := w.avail + dlen } := by
  obtain ⟨hle, hroom⟩ := NrBuffer.le_sizeFor h.ext (dlen + bp.avail)
  have hnonneg := h.avail
  obtain ⟨w, hmake, hw, havail, hbsize, hfront, hunread⟩ := nrBufferMakeRoom_spec h hsize
  have hfits : w.avail + dlen ≤ w.bsize := by omega
  have hint := hw.size
  have hblock := hw.block
  refine ⟨w, hmake, hw, hfront, havail, hfits, hunread, ?_⟩
  rw [nrBufferAdd, if_neg (by omega), int_of_range (by omega) (by omega), ok_bind, hmake, ok_bind]
  cases data with
  | none =>
      simp only [ok_bind, int_of_range (show -2 ^ 31 ≤ w.avail + dlen by omega)
        (show w.avail + dlen < 2 ^ 31 by omega)]
      rfl
  | some d =>
      have hdst : w.avail.toNat + dlen.toNat ≤ w.buf.length := by omega
      simp only [memcpy_of_le (hdata d rfl) hdst, ok_bind,
        int_of_range (show -2 ^ 31 ≤ w.avail + dlen by omega)
        (show w.avail + dlen < 2 ^ 31 by omega)]
      rfl

/-- Adding appends the data to the unread bytes, or as many bytes as the caller
says to have written where there is no data. -/
theorem nrBufferAdd_spec (h : bp.Valid) (data : Option Bytes) {dlen : ℤ} (hdlen : 0 < dlen)
    (hdata : ∀ d ∈ data, dlen.toNat ≤ d.length) (hsize : bp.sizeFor (dlen + bp.avail) < 2 ^ 31) :
    ∃ w bytes, nrBufferAdd bp data dlen = .ok w ∧ w.Valid ∧ w.bptr = 0 ∧
      w.unread = bp.unread ++ bytes ∧ bytes.length = dlen.toNat ∧
      ∀ d ∈ data, bytes = d.take dlen.toNat := by
  obtain ⟨w, -, hw, hfront, -, hfits, hunread, hadd⟩ := nrBufferAdd_of_room h data hdlen hdata hsize
  have hnonneg := hw.avail
  have hblock := hw.block
  have hdst : w.avail.toNat + dlen.toNat ≤ w.buf.length := by omega
  cases data with
  | none =>
      obtain ⟨hvalid, happend⟩ := hw.append hfront (le_of_lt hdlen) hfits rfl rfl
      refine ⟨_, (w.buf.drop w.avail.toNat).take dlen.toNat, hadd, hvalid, hfront,
        by rw [← hunread]; exact happend, ?_, by rintro d ⟨⟩⟩
      rw [List.length_take, List.length_drop]
      omega
  | some d =>
      have hlen : (d.take dlen.toNat).length = dlen.toNat := List.length_take_of_le (hdata d rfl)
      have hstart : w.avail.toNat ≤ w.buf.length := by omega
      have hcopy : w.avail.toNat + (d.take dlen.toNat).length ≤ w.buf.length := by omega
      obtain ⟨hvalid, happend⟩ := hw.append hfront (le_of_lt hdlen) hfits
        (length_blockCopy hcopy) (take_blockCopy_front hstart)
      rw [drop_blockCopy hstart, List.take_left' hlen, hunread] at happend
      exact ⟨_, d.take dlen.toNat, hadd, hvalid, hfront, happend, hlen, by rintro d' ⟨⟩; rfl⟩

theorem nrBufferMakeRoom_of_le (h : bp.Valid) (hfront : bp.bptr = 0) {needed : ℤ}
    (hneeded : needed ≤ bp.bsize - bp.avail) : nrBufferMakeRoom bp needed = .ok bp := by
  rw [nrBufferMakeRoom, nrBufferExtend_of_le h hneeded, ok_bind, nrBufferCompact,
    if_neg (not_not.mpr hfront)]

/-- What an external function has written behind the unread bytes is added
without being moved. -/
theorem nrBufferAdd_written (h : bp.Valid) (hfront : bp.bptr = 0) {text rest : Bytes}
    (htext : text ≠ []) (hbuf : bp.buf.drop bp.avail.toNat = text ++ rest)
    (hroom : text.length + bp.avail ≤ bp.bsize - bp.avail) :
    ∃ w, nrBufferAdd bp none text.length = .ok w ∧ w.Valid ∧ w.bptr = 0 ∧
      w.unread = bp.unread ++ text := by
  have hpos : 0 < (text.length : ℤ) := Int.natCast_pos.mpr (List.length_pos_of_ne_nil htext)
  have hnonneg := h.avail
  have hint := h.size
  have hsame : bp.sizeFor (text.length + bp.avail) = bp.bsize := by
    rw [NrBuffer.sizeFor]
    exact if_neg (by omega)
  obtain ⟨w, hmake, -, -, -, -, -, hadd⟩ :=
    nrBufferAdd_of_room h none hpos (by rintro d ⟨⟩) (by rw [hsame]; exact hint)
  obtain rfl := Except.ok.inj ((nrBufferMakeRoom_of_le h hfront hroom).symm.trans hmake)
  obtain ⟨hvalid, happend⟩ := h.append hfront (le_of_lt hpos) (by omega) rfl rfl
  rw [hbuf, Int.toNat_natCast, List.take_left] at happend
  exact ⟨_, hadd, hvalid, hfront, happend⟩

theorem nrBufferWriteUint64TAsText_spec (h : bp.Valid) (val : UInt64)
    (hsize : bp.sizeFor ((decimal val.toNat).length + bp.avail) < 2 ^ 31) :
    ∃ w, nrBufferWriteUint64TAsText bp val = .ok w ∧ w.Valid ∧ w.bptr = 0 ∧
      w.unread = bp.unread ++ decimal val.toNat := by
  have hpos : 0 < ((decimal val.toNat).length : ℤ) :=
    Int.natCast_pos.mpr (List.length_pos_of_ne_nil (decimal_ne_nil val.toNat))
  have hdata : ∀ d ∈ some (terminated (decimal val.toNat)),
      ((decimal val.toNat).length : ℤ).toNat ≤ d.length := by
    rintro d ⟨⟩
    rw [Int.toNat_natCast, terminated, List.length_append]
    exact Nat.le_add_right _ _
  obtain ⟨w, bytes, hadd, hw, hfront, hunread, -, hbytes⟩ := nrBufferAdd_spec h _ hpos hdata hsize
  refine ⟨w, hadd, hw, hfront, ?_⟩
  rw [hunread, hbytes _ rfl, Int.toNat_natCast, terminated, List.take_left]

/-- The bytes that the escaping of a string may need, as
`nr_buffer_add_escape_json` counts them. -/
def escapedSpaceNeeded (raw : CString) : ℤ := raw.val.length * 6 + 3

/-- What `nr_buffer_ensure` is asked for is what the string may need, where an
`int` can hold it. -/
theorem nrBufferEnsure_escaped (h : bp.Valid) {raw : CString}
    (hneeded : escapedSpaceNeeded raw + bp.avail < 2 ^ 31) :
    nrBufferEnsure bp ((intToSize (sizeToInt raw.val.length) * 6 + 3) % 2 ^ 64) =
      nrBufferMakeRoom bp (escapedSpaceNeeded raw + bp.avail) := by
  have hnonneg := h.avail
  rw [escapedSpaceNeeded] at hneeded ⊢
  have havail : intToSize bp.avail = bp.avail.toNat := by
    rw [intToSize, Int.emod_eq_of_lt hnonneg (by omega)]
  have hlen : intToSize (sizeToInt raw.val.length) = raw.val.length := by
    rw [sizeToInt_of_lt (by omega), intToSize_of_lt (by omega)]
  have hspace : (raw.val.length * 6 + 3) % 2 ^ 64 = raw.val.length * 6 + 3 :=
    Nat.mod_eq_of_lt (by omega)
  have hasked : sizeToInt ((raw.val.length * 6 + 3 + bp.avail.toNat) % 2 ^ 64) =
      raw.val.length * 6 + 3 + bp.avail := by
    rw [Nat.mod_eq_of_lt (by omega), sizeToInt_of_lt (by omega)]
    omega
  rw [nrBufferEnsure, hlen, hspace, havail, hasked]

/-- Escaping appends the escaped text. The text is written behind the unread
bytes before they are said to have become more. -/
theorem nrBufferAddEscapeJson_spec (h : bp.Valid) (raw : CString)
    (hsize : bp.sizeFor (escapedSpaceNeeded raw + bp.avail) < 2 ^ 31) :
    ∃ w, nrBufferAddEscapeJson bp (some raw) = .ok w ∧ w.Valid ∧ w.bptr = 0 ∧
      w.unread = bp.unread ++ nrJsonEscape raw.val := by
  have hnonneg := h.avail
  obtain ⟨-, hroom⟩ := NrBuffer.le_sizeFor h.ext (escapedSpaceNeeded raw + bp.avail)
  obtain ⟨w, hmake, hw, havail, hbsize, hfront, hunread⟩ := nrBufferMakeRoom_spec h hsize
  have hblock := hw.block
  have hspace : escapedSpaceNeeded raw = raw.val.length * 6 + 3 := rfl
  have hlen := length_nrJsonEscape_le raw.property
  have hescape := Memory.nrJsonEscape_of_room raw.property
    (show 6 * raw.val.length + 3 ≤ (w.bsize - w.avail).toNat by omega)
  -- the block once the text is written, with the zero behind it
  set text := nrJsonEscape raw.val with htext
  have hstart : w.avail.toNat ≤ w.buf.length := by omega
  have hcopy : w.avail.toNat + (text ++ [0]).length ≤ w.buf.length := by
    rw [List.length_append, List.length_singleton]
    omega
  set v : NrBuffer := { w with buf := blockCopy w.buf w.avail.toNat (text ++ [0]) } with hv
  have hvalid : v.Valid :=
    ⟨hw.avail, hw.start, hw.fits, by rw [hv, length_blockCopy hcopy, hblock], hw.size, hw.ext⟩
  have hsame : v.unread = bp.unread := by
    have hfront' : w.bptr.toNat = 0 := by rw [hfront]; rfl
    rw [← hunread, NrBuffer.unread, NrBuffer.unread, hfront', List.drop_zero, List.drop_zero]
    exact take_blockCopy_front hstart
  have hbehind : v.buf.drop v.avail.toNat =
      text ++ (0 :: w.buf.drop (w.avail.toNat + (text ++ [0]).length)) := by
    rw [hv, drop_blockCopy hstart, List.append_assoc]
    rfl
  have hquote : text ≠ [] := List.cons_ne_nil _ _
  obtain ⟨u, hadd, hu, hufront, happend⟩ := nrBufferAdd_written hvalid hfront hquote hbehind
    (show (text.length : ℤ) + w.avail ≤ w.bsize - w.avail by omega)
  refine ⟨u, ?_, hu, hufront, by rw [happend, hsame]⟩
  have hensure := nrBufferEnsure_escaped h (show escapedSpaceNeeded raw + bp.avail < 2 ^ 31 by omega)
  have hlast : sizeToInt ((text ++ [0]).length - 1) = text.length := by
    rw [List.length_append, List.length_singleton, Nat.add_sub_cancel, sizeToInt_of_lt (by omega)]
  rw [nrBufferAddEscapeJson, strlen_terminated raw.property, ok_bind, hensure, hmake, ok_bind,
    hescape, ok_bind, hlast]
  exact hadd

theorem nrBufferCopyOut_eq (h : bp.Valid) {destp : Option ℕ} {n : ℤ} (hnonneg : 0 ≤ n)
    (hn : n ≤ bp.avail) (hdestp : ∀ room ∈ destp, n.toNat ≤ room) :
    nrBufferCopyOut bp destp n = .ok (destp.map fun _ => bp.unread.take n.toNat) := by
  have hstart := h.start
  have hfits := h.fits
  have hblock := h.block
  cases destp with
  | none => rfl
  | some room =>
      have hsrc : bp.bptr.toNat + n.toNat ≤ bp.buf.length := by omega
      have hmin : min n.toNat bp.avail.toNat = n.toNat := by omega
      rw [nrBufferCopyOut, memcpyOut_of_le hsrc (hdestp room rfl), NrBuffer.unread, List.take_take,
        hmin]
      rfl

/-- The buffer once `n` of its unread bytes are used. -/
def NrBuffer.used (bp : NrBuffer) (n : ℤ) : NrBuffer :=
  { bp with avail := bp.avail - n, bptr := if bp.avail - n = 0 then 0 else bp.bptr + n }

theorem nrBufferTake_eq (h : bp.Valid) {destp : Option ℕ} {n : ℤ} (hnonneg : 0 ≤ n)
    (hn : n ≤ bp.avail) (hdestp : ∀ room ∈ destp, n.toNat ≤ room) :
    nrBufferTake bp destp n = .ok (bp.used n, n, destp.map fun _ => bp.unread.take n.toNat) := by
  have hstart := h.start
  have hfits := h.fits
  have hint := h.size
  rw [nrBufferTake, nrBufferCopyOut_eq h hnonneg hn hdestp, ok_bind, int_of_range (by omega) (by omega),
    ok_bind, NrBuffer.used]
  by_cases hempty : bp.avail - n = 0
  · rw [if_pos hempty, if_pos hempty]
  · rw [if_neg hempty, if_neg hempty, int_of_range (by omega) (by omega)]
    rfl

theorem NrBuffer.Valid.used (h : bp.Valid) {n : ℤ} (hnonneg : 0 ≤ n) (hn : n ≤ bp.avail) :
    (bp.used n).Valid ∧ (bp.used n).unread = bp.unread.drop n.toNat := by
  have hstart := h.start
  have hfits := h.fits
  have hbptr : 0 ≤ (bp.used n).bptr ∧ (bp.used n).bptr ≤ bp.bptr + n := by
    simp only [NrBuffer.used]
    split_ifs <;> omega
  have havail : (bp.used n).avail = bp.avail - n := rfl
  have hunread : (bp.used n).unread = (bp.buf.drop (bp.used n).bptr.toNat).take (bp.avail - n).toNat :=
    rfl
  constructor
  · refine ⟨by omega, hbptr.1, ?_, h.block, h.size, h.ext⟩
    change (bp.used n).bptr + (bp.avail - n) ≤ bp.bsize
    omega
  · rw [hunread, NrBuffer.unread, List.drop_take, List.drop_drop, ← Int.toNat_add h.start hnonneg,
      ← Int.toNat_sub'' h.avail hnonneg]
    by_cases hempty : bp.avail - n = 0
    · rw [hempty]
      rfl
    · have hmoved : (bp.used n).bptr = bp.bptr + n := if_neg hempty
      rw [hmoved]

theorem nrBufferUse_eq (h : bp.Valid) {destp : Option ℕ} {dlen : ℤ} (hdlen : 0 ≤ dlen)
    (hdestp : ∀ room ∈ destp, dlen.toNat ≤ room) :
    nrBufferUse bp destp dlen =
      .ok (bp.used (min dlen bp.avail), min dlen bp.avail,
        destp.map fun _ => bp.unread.take dlen.toNat) := by
  have havail := h.avail
  have hlen := h.length_unread
  have hclip : (if bp.avail < dlen then bp.avail else dlen) = min dlen bp.avail := by
    rw [min_def]
    split_ifs <;> omega
  have htake : bp.unread.take (min dlen bp.avail).toNat = bp.unread.take dlen.toNat := by
    rw [show (min dlen bp.avail).toNat = min dlen.toNat bp.unread.length by omega,
      ← List.take_eq_take_min]
  rw [nrBufferUse, if_neg (not_lt_of_ge hdlen), hclip, ← htake]
  refine nrBufferTake_eq h (by omega) (min_le_right _ _) fun room hroom => ?_
  have hle := hdestp room hroom
  omega

theorem nrBufferUse_spec (h : bp.Valid) {destp : Option ℕ} {dlen : ℤ} (hdlen : 0 ≤ dlen)
    (hdestp : ∀ room ∈ destp, dlen.toNat ≤ room) :
    ∃ w, nrBufferUse bp destp dlen =
        .ok (w, min dlen bp.avail, destp.map fun _ => bp.unread.take dlen.toNat) ∧
      w.Valid ∧ w.unread = bp.unread.drop dlen.toNat := by
  have havail := h.avail
  have hlen := h.length_unread
  have hdrop : bp.unread.drop (min dlen bp.avail).toNat = bp.unread.drop dlen.toNat := by
    rw [show (min dlen bp.avail).toNat = min dlen.toNat bp.unread.length by omega,
      ← List.drop_eq_drop_min]
  obtain ⟨hvalid, hunread⟩ := h.used (show 0 ≤ min dlen bp.avail by omega) (min_le_right _ _)
  exact ⟨_, nrBufferUse_eq h hdlen hdestp, hvalid, hunread.trans hdrop⟩

theorem nrBufferReset_spec (h : bp.Valid) :
    (nrBufferReset bp).Valid ∧ (nrBufferReset bp).unread = [] := by
  have hfits := h.fits
  have havail := h.avail
  have hstart := h.start
  refine ⟨⟨le_refl 0, le_refl 0, ?_, h.block, h.size, h.ext⟩, List.take_zero⟩
  change 0 + 0 ≤ bp.bsize
  omega

end Room

end AxiomDaemon.Util

import AxiomDaemon.Util.BufferQueue

/-!
What `nr_buffer_peek_end` sees. It counts from the start of the block and not
from the first unread byte, which is the same place as long as the unread bytes
are at the front. Every addition moves them there; a call of `nr_buffer_use`
that leaves some of them moves them away.
-/

namespace AxiomDaemon.Util

open AxiomDaemon.Lib AxiomDaemon.Lib.CText

/-- A call that may change the buffer, or a look at its end. -/
inductive PeekOp
  | call (op : BufferOp)
  | peekEnd

def peekExec (s : Checked NrBuffer) : PeekOp → Checked NrBuffer
  | .call op => bufferExec s op
  | .peekEnd => s

def PeekFits (s : Checked NrBuffer) : PeekOp → Prop
  | .call op => BufferFits s op
  | .peekEnd => True

instance : ∀ s op, Decidable (PeekFits s op)
  | s, .call op => inferInstanceAs (Decidable (BufferFits s op))
  | _, .peekEnd => inferInstanceAs (Decidable True)

/-- While there are unread bytes, the last of them is what the caller sees. -/
def PeeksLast (s : Checked NrBuffer) : PeekOp → Prop
  | .call _ => True
  | .peekEnd => ∃ bp, s = .ok bp ∧ ∀ b, bp.unread.getLast? = some b → nrBufferPeekEnd bp = .ok b

/-! ### What the calls say -/

/-- How many bytes the calls have left unread, and how many they have used since
the last addition or since nothing was left. -/
structure PeekHistory where
  unread : ℤ
  used : ℤ

namespace PeekHistory

def empty : PeekHistory := ⟨0, 0⟩

/-- An addition of at least one byte moves the unread bytes to the front. -/
def add (p : PeekHistory) (n : ℤ) : PeekHistory := ⟨p.unread + n, 0⟩

/-- A use of a part of the bytes leaves the others where they are. -/
def use (p : PeekHistory) (dlen : ℤ) : PeekHistory :=
  if dlen < p.unread then ⟨p.unread - dlen, p.used + dlen⟩ else empty

def step (p : PeekHistory) : PeekOp → PeekHistory
  | .call (.add _ dlen) => if 0 < dlen then p.add dlen else p
  | .call (.addEscapeJson rawString) => rawString.elim p fun raw => p.add (nrJsonEscape raw.val).length
  | .call (.writeUint64TAsText val) => p.add (decimal val.toNat).length
  | .call (.use _ dlen) => if dlen < 0 then p else p.use dlen
  | .call .reset => empty
  | .peekEnd => p

/-- No look while a part of the bytes is used and nothing was added since. -/
def Settled (p : PeekHistory) : PeekOp → Prop
  | .call _ => True
  | .peekEnd => p.used = 0

instance (p : PeekHistory) : DecidablePred p.Settled
  | .call _ => inferInstanceAs (Decidable True)
  | .peekEnd => inferInstanceAs (Decidable (p.used = 0))

/-- The buffer has its unread bytes where the calls have left them. -/
def Places (p : PeekHistory) (s : Checked NrBuffer) : Prop :=
  ∃ bp, s = .ok bp ∧ bp.Valid ∧ bp.avail = p.unread ∧ bp.bptr = p.used

end PeekHistory

section Steps

variable {bp : NrBuffer}

theorem NrBuffer.Valid.getLast?_unread (h : bp.Valid) (hpos : 0 < bp.avail) :
    bp.unread.getLast? = bp.buf[(bp.bptr + bp.avail - 1).toNat]? := by
  have hstart := h.start
  have hindex : bp.bptr.toNat + (bp.avail.toNat - 1) = (bp.bptr + bp.avail - 1).toNat := by omega
  rw [List.getLast?_eq_getElem?, h.length_unread, NrBuffer.unread,
    List.getElem?_take_of_lt (by omega), List.getElem?_drop, hindex]

/-- At the front of the block the unread bytes end where the function looks. -/
theorem nrBufferPeekEnd_of_front (h : bp.Valid) (hfront : bp.bptr = 0) {b : UInt8}
    (hb : bp.unread.getLast? = some b) : nrBufferPeekEnd bp = .ok b := by
  have hpos := List.length_pos_of_mem (List.mem_of_getLast? hb)
  rw [h.length_unread] at hpos
  rw [h.getLast?_unread (by omega), hfront, zero_add] at hb
  rw [nrBufferPeekEnd, if_neg (by omega), hb]

variable {p : PeekHistory}

theorem bufferStep_places (h : bp.Valid) (havail : bp.avail = p.unread) (hbptr : bp.bptr = p.used)
    {op : BufferOp} (hfits : BufferFits (.ok bp) op) :
    (p.step (.call op)).Places (bufferExec (.ok bp) op) := by
  obtain ⟨hproper, hsize⟩ := hfits
  cases op with
  | add data dlen =>
      by_cases hdlen : 0 < dlen
      · obtain ⟨w, bytes, hadd, hw, hfront, hunread, hlen, -⟩ :=
          nrBufferAdd_spec h data hdlen hproper (hsize _ (by rw [NrBuffer.needed, if_pos hdlen]; rfl))
        have hmore := hw.avail_of_append h hunread
        rw [PeekHistory.step, if_pos hdlen, bufferExec, ok_bind, bufferStep, hadd]
        refine ⟨w, rfl, hw, ?_, hfront⟩
        rw [hmore, havail, hlen, Int.toNat_of_nonneg (le_of_lt hdlen)]
        rfl
      · rw [PeekHistory.step, if_neg hdlen, bufferExec, ok_bind, bufferStep, nrBufferAdd,
          if_pos (not_lt.mp hdlen)]
        exact ⟨bp, rfl, h, havail, hbptr⟩
  | addEscapeJson rawString =>
      cases rawString with
      | none => exact ⟨bp, rfl, h, havail, hbptr⟩
      | some raw =>
          obtain ⟨w, hescape, hw, hfront, hunread⟩ := nrBufferAddEscapeJson_spec h raw (hsize _ rfl)
          rw [bufferExec, ok_bind, bufferStep, hescape]
          exact ⟨w, rfl, hw, by rw [hw.avail_of_append h hunread, havail]; rfl, hfront⟩
  | writeUint64TAsText val =>
      obtain ⟨w, hadd, hw, hfront, hunread⟩ := nrBufferWriteUint64TAsText_spec h val (hsize _ rfl)
      rw [bufferExec, ok_bind, bufferStep, hadd]
      exact ⟨w, rfl, hw, by rw [hw.avail_of_append h hunread, havail]; rfl, hfront⟩
  | use destp dlen =>
      by_cases hneg : dlen < 0
      · rw [PeekHistory.step, if_pos hneg, bufferExec, ok_bind, bufferStep, nrBufferUse, if_pos hneg]
        exact ⟨bp, rfl, h, havail, hbptr⟩
      · have hnonneg := h.avail
        obtain ⟨hvalid, -⟩ := h.used (show 0 ≤ min dlen bp.avail by omega) (min_le_right _ _)
        rw [PeekHistory.step, if_neg hneg, bufferExec, ok_bind, bufferStep,
          nrBufferUse_eq h (not_lt.mp hneg) hproper]
        refine ⟨_, rfl, hvalid, ?_⟩
        rw [PeekHistory.use, ← havail, ← hbptr, NrBuffer.used]
        by_cases hpart : dlen < bp.avail
        · rw [min_eq_left (le_of_lt hpart), if_pos hpart, if_neg (by omega)]
          exact ⟨rfl, rfl⟩
        · rw [min_eq_right (not_lt.mp hpart), if_neg hpart, sub_self, if_pos rfl]
          exact ⟨rfl, rfl⟩
  | reset => exact ⟨_, rfl, (nrBufferReset_spec h).1, rfl, rfl⟩

theorem PeekHistory.Places.step {s : Checked NrBuffer} {op : PeekOp} (h : p.Places s)
    (hfits : PeekFits s op) : (p.step op).Places (peekExec s op) := by
  cases op with
  | call op =>
      obtain ⟨bp, rfl, hvalid, havail, hbptr⟩ := h
      exact bufferStep_places hvalid havail hbptr hfits
  | peekEnd => exact h

theorem PeekHistory.Places.peeksLast {s : Checked NrBuffer} {op : PeekOp} (h : p.Places s)
    (hsettled : p.Settled op) : PeeksLast s op := by
  cases op with
  | call op => trivial
  | peekEnd =>
      obtain ⟨bp, rfl, hvalid, -, hbptr⟩ := h
      exact ⟨bp, rfl, fun b => nrBufferPeekEnd_of_front hvalid (hbptr.trans hsettled)⟩

/-- Wherever the calls have left the bytes, they keep the looks right from there. -/
theorem PeekHistory.Places.run {s : Checked NrBuffer} {ops : List PeekOp} (h : p.Places s)
    (hops : Along peekExec PeekFits s ops) (hsettled : Along PeekHistory.step PeekHistory.Settled p ops) :
    Along peekExec PeeksLast s ops := by
  induction ops generalizing s p with
  | nil => trivial
  | cons op ops ih => exact ⟨h.peeksLast hsettled.1, ih (h.step hops.1) hops.2 hsettled.2⟩

end Steps

/-- In every run every look sees the last unread byte, as long as none is taken
while a part of the bytes is used and nothing was added since. -/
theorem nrBufferPeekEnd_last (estsize extsize : ℤ) (hest : estsize < 2 ^ 31) (ops : List PeekOp)
    (hops : Along peekExec PeekFits (.ok (nrBufferCreate estsize extsize)) ops)
    (hsettled : Along PeekHistory.step PeekHistory.Settled .empty ops) :
    Along peekExec PeeksLast (.ok (nrBufferCreate estsize extsize)) ops :=
  have hcreate : PeekHistory.empty.Places (.ok (nrBufferCreate estsize extsize)) :=
    ⟨_, rfl, (nrBufferCreate_valid hest extsize).1, rfl, rfl⟩
  PeekHistory.Places.run hcreate hops hsettled

/-- `ab` is added, one byte used, another added, and the end looked at. -/
theorem nrBufferPeekEnd_last_moved :
    Along peekExec PeeksLast (.ok (nrBufferCreate 0 0))
      [.call (.add (some [0x61, 0x62]) 2), .call (.use none 1), .call (.add (some [0x63]) 1),
        .peekEnd] :=
  nrBufferPeekEnd_last 0 0 (by decide) _ (by decide +kernel) (by decide)

/-- The run in which `ab` is added, one byte used and the end looked at. -/
def peekRun : List PeekOp := [.call (.add (some [0x61, 0x62]) 2), .call (.use none 1), .peekEnd]

/-- With `b` unread the function answers `a`. -/
theorem nrBufferPeekEnd_peekRun :
    ¬ Along peekExec PeeksLast (.ok (nrBufferCreate 0 0)) peekRun := by
  rintro ⟨-, -, ⟨bp, hbp, hlast⟩, -⟩
  have hstate : bufferExec (bufferExec (.ok (nrBufferCreate 0 0)) (.add (some [0x61, 0x62]) 2))
      (.use none 1) = .ok bp := hbp
  have hrun : (bufferExec (bufferExec (.ok (nrBufferCreate 0 0)) (.add (some [0x61, 0x62]) 2))
      (.use none 1)).toOption.map (fun bp => (bp.unread, nrBufferPeekEnd bp)) =
        some ([0x62], .ok 0x61) := by
    decide +kernel
  rw [hstate] at hrun
  obtain ⟨hunread, hpeek⟩ := Prod.mk.inj (Option.some.inj hrun)
  have hb := hlast 0x62 (by rw [hunread]; rfl)
  rw [hpeek] at hb
  cases hb

end AxiomDaemon.Util

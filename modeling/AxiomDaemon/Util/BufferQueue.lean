import AxiomDaemon.Util.Buffer

/-!
Runs of the data buffer, and that a buffer is a queue of bytes. The queue
remembers everything that was added to it and how much of that was consumed;
the unread bytes of the buffer are the rest, whatever extensions and moves
lie between.
-/

namespace AxiomDaemon.Util

open AxiomDaemon.Lib AxiomDaemon.Lib.CText

/-! ### The queue -/

/-- Everything that was added, and how many bytes of it are consumed. -/
structure ByteQueue where
  added : Bytes
  consumed : ℕ
  le : consumed ≤ added.length

namespace ByteQueue

def empty : ByteQueue := ⟨[], 0, Nat.le_refl 0⟩

/-- What was added without the prefix that is consumed. -/
def unread (q : ByteQueue) : Bytes := q.added.drop q.consumed

def add (q : ByteQueue) (bytes : Bytes) : ByteQueue :=
  ⟨q.added ++ bytes, q.consumed, by
    rw [List.length_append]
    exact Nat.le_add_right_of_le q.le⟩

def use (q : ByteQueue) (n : ℕ) : ByteQueue :=
  ⟨q.added, min (q.consumed + n) q.added.length, Nat.min_le_right _ _⟩

def reset (q : ByteQueue) : ByteQueue := ⟨q.added, q.added.length, Nat.le_refl _⟩

@[simp] theorem unread_add (q : ByteQueue) (bytes : Bytes) :
    (q.add bytes).unread = q.unread ++ bytes :=
  List.drop_append_of_le_length q.le

@[simp] theorem unread_use (q : ByteQueue) (n : ℕ) : (q.use n).unread = q.unread.drop n := by
  rw [unread, unread, List.drop_drop]
  exact List.drop_eq_drop_min.symm

@[simp] theorem unread_reset (q : ByteQueue) : q.reset.unread = [] := List.drop_length

end ByteQueue

/-! ### The operations -/

inductive BufferOp
  | add (data : Option Bytes) (dlen : ℤ)
  | addEscapeJson (rawString : Option CString)
  | writeUint64TAsText (val : UInt64)
  | use (destp : Option ℕ) (dlen : ℤ)
  | reset

/-- What the caller sees: nothing, or how many bytes were used and which. -/
inductive BufferReply
  | done
  | used (n : ℤ) (copied : Option Bytes)
  deriving DecidableEq

def bufferStep (bp : NrBuffer) : BufferOp → Checked (NrBuffer × BufferReply)
  | .add data dlen => (·, .done) <$> nrBufferAdd bp data dlen
  | .addEscapeJson rawString => (·, .done) <$> nrBufferAddEscapeJson bp rawString
  | .writeUint64TAsText val => (·, .done) <$> nrBufferWriteUint64TAsText bp val
  | .use destp dlen => (fun (bp, n, copied) => (bp, .used n copied)) <$> nrBufferUse bp destp dlen
  | .reset => .ok (nrBufferReset bp, .done)

def bufferExec (s : Checked NrBuffer) (op : BufferOp) : Checked NrBuffer :=
  s >>= fun bp => Prod.fst <$> bufferStep bp op

def bufferReply (s : Checked NrBuffer) (op : BufferOp) : Checked BufferReply :=
  s >>= fun bp => Prod.snd <$> bufferStep bp op

/-- The step of a queue. Which bytes are added without data is up to whoever
wrote them there. -/
def QueueStep (q : ByteQueue) (op : BufferOp) (reply : Checked BufferReply) (q' : ByteQueue) :
    Prop :=
  match op with
  | .add data dlen =>
      reply = .ok .done ∧ ∃ bytes, bytes.length = dlen.toNat ∧
        (∀ d ∈ data, bytes = d.take dlen.toNat) ∧ q' = q.add bytes
  | .addEscapeJson rawString =>
      reply = .ok .done ∧ q' = q.add (rawString.elim [] fun raw => nrJsonEscape raw.val)
  | .writeUint64TAsText val => reply = .ok .done ∧ q' = q.add (decimal val.toNat)
  | .use destp dlen =>
      if dlen < 0 then reply = .ok (.used (-1) none) ∧ q' = q
      else
        reply = .ok (.used (min dlen q.unread.length) (destp.map fun _ => q.unread.take dlen.toNat)) ∧
          q' = q.use dlen.toNat
  | .reset => reply = .ok .done ∧ q' = q.reset

/-- The pointers that the caller passes are good for as many bytes as it says. -/
def BufferOp.Proper : BufferOp → Prop
  | .add data dlen => ∀ d ∈ data, dlen.toNat ≤ d.length
  | .use destp dlen => ∀ room ∈ destp, dlen.toNat ≤ room
  | .addEscapeJson _ | .writeUint64TAsText _ | .reset => True

/-- The bytes that the block is to hold for an operation. -/
def NrBuffer.needed (bp : NrBuffer) : BufferOp → Option ℤ
  | .add _ dlen => if 0 < dlen then some (dlen + bp.avail) else none
  | .addEscapeJson (some raw) => some (escapedSpaceNeeded raw + bp.avail)
  | .writeUint64TAsText val => some ((decimal val.toNat).length + bp.avail)
  | .addEscapeJson none | .use _ _ | .reset => none

/-- The caller keeps to the interface, and the size that the block would get
is one that `int` holds. -/
def BufferFits : Checked NrBuffer → BufferOp → Prop
  | .ok bp, op => op.Proper ∧ ∀ needed ∈ bp.needed op, bp.sizeFor needed < 2 ^ 31
  | .error _, _ => False

instance : DecidablePred BufferOp.Proper
  | .add data dlen => inferInstanceAs (Decidable (∀ d ∈ data, dlen.toNat ≤ d.length))
  | .use destp dlen => inferInstanceAs (Decidable (∀ room ∈ destp, dlen.toNat ≤ room))
  | .addEscapeJson _ | .writeUint64TAsText _ | .reset => inferInstanceAs (Decidable True)

instance : ∀ s op, Decidable (BufferFits s op)
  | .ok bp, op =>
      inferInstanceAs
        (Decidable (op.Proper ∧ ∀ needed ∈ bp.needed op, bp.sizeFor needed < 2 ^ 31))
  | .error _, _ => inferInstanceAs (Decidable False)

/-- The buffer holds what the queue holds. -/
def BufferHolds (s : Checked NrBuffer) (q : ByteQueue) : Prop :=
  ∃ bp, s = .ok bp ∧ bp.Valid ∧ bp.unread = q.unread

section Steps

variable {bp : NrBuffer} {q : ByteQueue}

theorem bufferStep_holds (h : bp.Valid) (hq : bp.unread = q.unread) {op : BufferOp}
    (hfits : BufferFits (.ok bp) op) :
    ∃ w reply q', bufferStep bp op = .ok (w, reply) ∧ w.Valid ∧ w.unread = q'.unread ∧
      QueueStep q op (.ok reply) q' := by
  obtain ⟨hproper, hsize⟩ := hfits
  cases op with
  | add data dlen =>
      by_cases hdlen : 0 < dlen
      · obtain ⟨w, bytes, hadd, hw, -, hunread, hlen, hbytes⟩ :=
          nrBufferAdd_spec h data hdlen hproper (hsize _ (by rw [NrBuffer.needed, if_pos hdlen]; rfl))
        refine ⟨w, .done, q.add bytes, by rw [bufferStep, hadd]; rfl, hw, ?_,
          rfl, bytes, hlen, hbytes, rfl⟩
        rw [hunread, hq, ByteQueue.unread_add]
      · have hzero : dlen.toNat = 0 := Int.toNat_of_nonpos (not_lt.mp hdlen)
        refine ⟨bp, .done, q.add [], ?_, h, ?_, rfl, [], hzero.symm, ?_, rfl⟩
        · rw [bufferStep, nrBufferAdd, if_pos (not_lt.mp hdlen)]
          rfl
        · rw [hq, ByteQueue.unread_add, List.append_nil]
        · intro d _
          rw [hzero, List.take_zero]
  | addEscapeJson rawString =>
      cases rawString with
      | none =>
          refine ⟨bp, .done, q.add [], rfl, h, ?_, rfl, rfl⟩
          rw [hq, ByteQueue.unread_add, List.append_nil]
      | some raw =>
          obtain ⟨w, hescape, hw, -, hunread⟩ := nrBufferAddEscapeJson_spec h raw (hsize _ rfl)
          refine ⟨w, .done, _, by rw [bufferStep, hescape]; rfl, hw, ?_, rfl, rfl⟩
          rw [hunread, hq, ByteQueue.unread_add]
          rfl
  | writeUint64TAsText val =>
      obtain ⟨w, hadd, hw, -, hunread⟩ := nrBufferWriteUint64TAsText_spec h val (hsize _ rfl)
      refine ⟨w, .done, q.add (decimal val.toNat), by rw [bufferStep, hadd]; rfl, hw, ?_, rfl, rfl⟩
      rw [hunread, hq, ByteQueue.unread_add]
  | use destp dlen =>
      by_cases hneg : dlen < 0
      · refine ⟨bp, .used (-1) none, q, ?_, h, hq, ?_⟩
        · rw [bufferStep, nrBufferUse, if_pos hneg]
          rfl
        · rw [QueueStep, if_pos hneg]
          exact ⟨rfl, rfl⟩
      · obtain ⟨w, huse, hw, hunread⟩ := nrBufferUse_spec h (not_lt.mp hneg) hproper
        refine ⟨w, _, q.use dlen.toNat, by rw [bufferStep, huse]; rfl, hw, ?_, ?_⟩
        · rw [hunread, hq, ByteQueue.unread_use]
        · have havail : (q.unread.length : ℤ) = bp.avail := by
            rw [← hq, h.length_unread, Int.toNat_of_nonneg h.avail]
          rw [QueueStep, if_neg hneg, havail, hq]
          exact ⟨rfl, rfl⟩
  | reset =>
      obtain ⟨hreset, hempty⟩ := nrBufferReset_spec h
      exact ⟨_, _, q.reset, rfl, hreset, by rw [hempty, ByteQueue.unread_reset], rfl, rfl⟩

end Steps

/-! ### Runs -/

theorem BufferHolds.step {s : Checked NrBuffer} {q : ByteQueue} {op : BufferOp}
    (h : BufferHolds s q) (hfits : BufferFits s op) :
    ∃ q', QueueStep q op (bufferReply s op) q' ∧ BufferHolds (bufferExec s op) q' := by
  obtain ⟨bp, rfl, hvalid, hunread⟩ := h
  obtain ⟨w, reply, q', hstep, hw, hunread', hqueue⟩ := bufferStep_holds hvalid hunread hfits
  have hexec : bufferExec (.ok bp) op = .ok w := by
    rw [bufferExec, ok_bind, hstep]
    rfl
  have hreply : bufferReply (.ok bp) op = .ok reply := by
    rw [bufferReply, ok_bind, hstep]
    rfl
  exact ⟨q', hreply ▸ hqueue, w, hexec, hw, hunread'⟩

theorem bufferHolds_create {estsize : ℤ} (hest : estsize < 2 ^ 31) (extsize : ℤ) :
    BufferHolds (.ok (nrBufferCreate estsize extsize)) .empty :=
  ⟨_, rfl, nrBufferCreate_valid hest extsize⟩

/-- The unread bytes lie within what is allocated. -/
def BufferInBounds (s : Checked NrBuffer) : Prop :=
  ∃ bp, s = .ok bp ∧ 0 ≤ bp.bptr ∧ 0 ≤ bp.avail ∧ bp.bptr + bp.avail ≤ bp.bsize ∧
    (bp.buf.length : ℤ) = bp.bsize

/-- A buffer is a queue of bytes under every sequence of operations, with no
copy out of bounds, as long as its sizes are ones that `int` holds. -/
theorem nrBuffer_fifo (estsize extsize : ℤ) (hest : estsize < 2 ^ 31) (ops : List BufferOp)
    (hops : Along bufferExec BufferFits (.ok (nrBufferCreate estsize extsize)) ops) :
    Refines bufferExec bufferReply QueueStep BufferHolds (.ok (nrBufferCreate estsize extsize))
      .empty ops ∧
    Throughout bufferExec BufferInBounds (.ok (nrBufferCreate estsize extsize)) ops := by
  have hstart := bufferHolds_create hest extsize
  refine ⟨refines_of_along (fun s q op h hfits => h.step hfits) hstart hops, ?_⟩
  have hholds : Throughout bufferExec (fun s => ∃ q, BufferHolds s q)
      (.ok (nrBufferCreate estsize extsize)) ops := by
    refine throughout_of_along ?_ ⟨_, hstart⟩ hops
    rintro s op ⟨q, h⟩ hfits
    obtain ⟨q', -, h'⟩ := h.step hfits
    exact ⟨q', h'⟩
  refine hholds.imp ?_
  rintro s ⟨q, bp, rfl, h, -⟩
  exact ⟨bp, rfl, h.start, h.avail, h.fits, h.block⟩

/-- A run in which bytes are moved to the front and escaped. -/
def bufferRun : List BufferOp :=
  [.add (some [0x61, 0x62]) 2, .use (some 1) 1, .addEscapeJson (some ⟨[0x22], by decide⟩),
    .writeUint64TAsText 7, .reset]

theorem nrBuffer_fifo_bufferRun :
    Refines bufferExec bufferReply QueueStep BufferHolds (.ok (nrBufferCreate 0 0)) .empty
      bufferRun ∧
    Throughout bufferExec BufferInBounds (.ok (nrBufferCreate 0 0)) bufferRun :=
  nrBuffer_fifo 0 0 (by decide) bufferRun (by decide +kernel)

/-- With the largest extension size the first extension is beyond `int`. -/
theorem nrBuffer_fifo_overflows :
    ¬ Throughout bufferExec BufferInBounds (.ok (nrBufferCreate 1024 (2 ^ 31 - 1)))
      [.add (some (List.replicate 1025 0)) 1025] := by
  rintro ⟨-, bp, hbp, -⟩
  have hfault : bufferExec (.ok (nrBufferCreate 1024 (2 ^ 31 - 1)))
      (.add (some (List.replicate 1025 0)) 1025) = .error .range := rfl
  rw [hfault] at hbp
  cases hbp

end AxiomDaemon.Util

import AxiomDaemon.Util.FlatbuffersWriting

/-!
The message around a command of the agent, and the check that a command makes before it is
sent.
-/

namespace AxiomDaemon.Axiom

open AxiomDaemon.Lib AxiomDaemon.Lib.Flatbuffers AxiomDaemon.Util

/-! ### The message -/

def messageBodyApp : BitVec 8 := 1

def messageBodyTxn : BitVec 8 := 3

def messageFieldAgentRunId : ℕ := 0

def messageFieldDataType : ℕ := 1

def messageFieldData : ℕ := 2

def messageNumFields : ℕ := 3

/-- `MIN_FLATBUFFER_SIZE`. -/
def minFlatbufferSize : ℕ := 20

/-- The fields of a message, in the order in which they are written. -/
def messageFields (dataType : BitVec 8) (data agentRunId : ℕ) : List FieldWrite :=
  [.uoffset messageFieldData data, .scalar messageFieldDataType .u8 dataType,
    .uoffset messageFieldAgentRunId agentRunId]

/-- The last lines of the functions that create a command. -/
def finishMessage (malloc : ℕ → ℕ) (dataType : BitVec 8) (data agentRunId : ℕ) : Writing Unit := do
  let message ← object malloc messageNumFields (messageFields dataType data agentRunId)
  finish malloc message

/-- `nr_command_is_flatbuffer_invalid`. -/
def nrCommandIsFlatbufferInvalid (msg : Flatbuffer) (msglen : ℕ) : Option Bool := do
  let offset ← nrFlatbuffersReadUoffset msg.bytes 0
  some (decide ((msglen + 2 ^ 64 - minFlatbufferSize) % 2 ^ 64 ≤ offset))

/-- A buffer that holds a message: the table that it starts with a reference to. -/
structure MessageAt (buf : Bytes) (root : ℕ) (fields : ℕ → Option Field) : Prop where
  ref : RefAt buf buf.length root
  table : (Piece.table fields).Holds buf root

section Rules

variable {malloc : ℕ → ℕ} (hmalloc : ∀ n, 4 ∣ malloc n) {fb : Flatbuffer}

include hmalloc

theorem reaches_finishMessage (h : Ready fb) (dataType : BitVec 8) {data agentRunId : ℕ}
    (hdata : data ≤ fb.bytes.length) (hrun : agentRunId ≤ fb.bytes.length)
    (hlt : fb.bytes.length + 70 < 2 ^ 30) :
    writing.Reaches (fb.bytes.length + 70) fb (finishMessage malloc dataType data agentRunId)
      (fun _ fb' => ∃ root, fb.bytes.length + 4 ≤ root ∧ MessageAt fb'.bytes root
        (fieldsOf ((messageFields dataType data agentRunId).map FieldWrite.entry).reverse))
      fun _ _ => True := by
  have hx : ∀ w ∈ messageFields dataType data agentRunId, w.offset ≤ fb.bytes.length := by
    simp [messageFields, FieldWrite.offset, hdata, hrun]
  obtain ⟨message, closed, hobject, hle, htop, ⟨hready, hoff, hplace, halign, _⟩, hview⟩ :=
    reaches_object hmalloc h messageNumFields [2, 1, 0] 18 (by decide) rfl (by decide) (by decide)
      rfl (by decide) hx (show fb.bytes.length + 50 < 2 ^ 30 by omega)
  have htop : closed.bytes.length ≤ fb.bytes.length + 50 := htop
  obtain ⟨_, fb', hfinish, hle', htop', href, hview'⟩ :=
    reaches_finish hmalloc hready halign hoff (by omega)
  have htop' : fb'.bytes.length ≤ closed.bytes.length + 20 := htop'
  have hclosed := (hview' fb'.bytes List.suffix_rfl).1
  refine ⟨(), fb', ?_, hle.trans hle', ?_, ⟨message, hplace, href, (hview _ hclosed).2⟩,
    fun buf hbuf => ⟨(hview buf (hview' buf hbuf).1).1, trivial⟩⟩
  · show (object malloc messageNumFields _ fb).bind _ = _
    rw [hobject]
    exact hfinish
  · show fb'.bytes.length ≤ fb.bytes.length + 70
    omega

end Rules

end AxiomDaemon.Axiom

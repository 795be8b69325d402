import AxiomDaemon.Axiom.Network
import AxiomDaemon.Daemon.Listener

/-!
The two implementations of the framing against each other: what the agent
writes and the daemon reads, and what the daemon writes and the agent reads.

Both sides put the length and the number 2 in front of a body as
little-endian words. They do not agree on how long a body may be: the agent
sends and receives up to 32 MB, the daemon reads up to 2 MB and writes
anything.
-/

namespace AxiomDaemon.Protocol

open AxiomDaemon.Lib AxiomDaemon.Axiom AxiomDaemon.Daemon

/-- A body that `nr_write_message` accepts. -/
def Accepted (body : List UInt8) : Prop := body ≠ [] ∧ (nrWriteMessage body).isSome

/-- The bytes the agent writes for a sequence of bodies. -/
def agentStream (bodies : List (List UInt8)) : List UInt8 :=
  bodies.flatMap fun body => (nrWriteMessage body).getD []

def binaryMessage (body : List UInt8) : RawMessage := { type := messageTypeBinary, bytes := body }

/-- The daemon reads what the agent wrote: all messages and then the end of
the stream, and of a stream that was cut off a prefix of the messages and
then an error. -/
structure DaemonReads (bodies : List (List UInt8)) : Prop where
  whole : readAll (agentStream bodies) = (bodies.map binaryMessage, .eof)
  cut : ∀ stream, stream <+: agentStream bodies → stream ≠ agentStream bodies →
    ∃ k e, readAll stream = ((bodies.map binaryMessage).take k, e)

/-- The agent receives what the daemon wrote, whatever comes after it. -/
def AgentReceives (body : List UInt8) : Prop :=
  ∀ rest, nrNetworkReceive (messageWriterWrite messageTypeBinary body ++ rest) = some (body, rest)

/-- The bytes of a message: the header and the body. -/
def frame (body : List UInt8) : List UInt8 :=
  uint32LE body.length ++ uint32LE 2 ++ body

theorem length_frame (body : List UInt8) : (frame body).length = 8 + body.length := by
  simp only [frame, List.length_append, length_uint32LE]

theorem nrWriteMessage_of_accepted {body : List UInt8} (h : Accepted body) :
    nrWriteMessage body = some (frame body) := by
  obtain ⟨_, hsome⟩ := h
  unfold nrWriteMessage at hsome ⊢
  split at hsome
  · simp at hsome
  · next hlen => rw [if_neg hlen]; rfl

theorem length_le_of_accepted {body : List UInt8} (h : Accepted body) :
    body.length ≤ nrProtocolCmdlenMaxBytes := by
  obtain ⟨_, hsome⟩ := h
  unfold nrWriteMessage at hsome
  split at hsome
  · simp at hsome
  · next hlen => exact Nat.not_lt.mp hlen

theorem agentStream_cons {body : List UInt8} {bodies : List (List UInt8)} (h : Accepted body) :
    agentStream (body :: bodies) = frame body ++ agentStream bodies := by
  simp [agentStream, nrWriteMessage_of_accepted h]

/-- The fifth byte of a header is 2, which is not the digit 0. -/
theorem isLegacyAgent_header (length : ℕ) :
    isLegacyAgent (uint32LE length ++ uint32LE 2) = false := by
  simp [uint32LE, isLegacyAgent]

/-- What `ReadMessage` does once it has read a header the agent wrote. -/
theorem readMessage_header (length : ℕ) (hlength : length < 2 ^ 32) (rest : List UInt8) :
    readMessage (uint32LE length ++ uint32LE 2 ++ rest) =
      if maxMessageSize < length then .error (.maximumSizeExceeded length)
      else
        match readFull length rest with
        | .error e => .error (.fullMessage e)
        | .ok (msg, r) => .ok (binaryMessage msg, r) := by
  have hheader : readFull msgHeaderSize (uint32LE length ++ uint32LE 2 ++ rest) =
      .ok (uint32LE length ++ uint32LE 2, rest) :=
    readFull_append (p := uint32LE length ++ uint32LE 2) rfl rest
  have hsize : readUint32LE (uint32LE length ++ uint32LE 2) = length := by
    rw [readUint32LE_append, Nat.mod_eq_of_lt hlength]
  have htype : readUint32LE ((uint32LE length ++ uint32LE 2).drop 4) = 2 := rfl
  rw [readMessage, hheader]
  simp only [isLegacyAgent_header, Bool.false_eq_true, if_false, hsize, htype]
  rfl

theorem cmdlenMax_lt {body : List UInt8} (h : Accepted body) : body.length < 2 ^ 32 :=
  Nat.lt_of_le_of_lt (length_le_of_accepted h) (by decide)

theorem readMessage_frame {body : List UInt8} (h : body.length < 2 ^ 32)
    (hsmall : body.length ≤ maxMessageSize) (rest : List UInt8) :
    readMessage (frame body ++ rest) = .ok (binaryMessage body, rest) := by
  rw [frame, List.append_assoc, readMessage_header _ h,
    if_neg (Nat.not_lt.mpr hsmall), readFull_append rfl]

theorem readMessage_frame_large {body : List UInt8} (h : body.length < 2 ^ 32)
    (hlarge : maxMessageSize < body.length) (rest : List UInt8) :
    readMessage (frame body ++ rest) = .error (.maximumSizeExceeded body.length) := by
  rw [frame, List.append_assoc, readMessage_header _ h, if_pos hlarge]

theorem readMessage_cut {body stream : List UInt8} (h : Accepted body)
    (hcutoff : stream <+: frame body) (hne : stream ≠ frame body) :
    ∃ e, readMessage stream = .error e := by
  have hlt : stream.length < (frame body).length :=
    lt_of_le_of_ne hcutoff.length_le fun hlen => hne (hcutoff.eq_of_length hlen)
  by_cases hheader : stream.length < msgHeaderSize
  · obtain ⟨e, he⟩ := readFull_short hheader
    cases e with
    | empty => exact ⟨.eof, by simp [readMessage, he]⟩
    | unexpectedEnd => exact ⟨.header .unexpectedEnd, by simp [readMessage, he]⟩
  · have hpre : uint32LE body.length ++ uint32LE 2 <+: stream := by
      apply List.prefix_of_prefix_length_le _ hcutoff
      · unfold msgHeaderSize at hheader
        simp only [List.length_append, length_uint32LE]
        omega
      · exact List.prefix_append _ _
    obtain ⟨rest, rfl⟩ := hpre
    rw [readMessage_header _ (cmdlenMax_lt h)]
    split
    · exact ⟨_, rfl⟩
    · have hshort : rest.length < body.length := by
        rw [length_frame] at hlt
        simp at hlt
        omega
      obtain ⟨e, he⟩ := readFull_short hshort
      rw [he]
      exact ⟨_, rfl⟩

theorem readAll_agentStream {bodies : List (List UInt8)} (h : ∀ b ∈ bodies, Accepted b)
    (hsmall : ∀ b ∈ bodies, b.length ≤ maxMessageSize) :
    readAll (agentStream bodies) = (bodies.map binaryMessage, .eof) := by
  induction bodies with
  | nil => rfl
  | cons body bodies ih =>
      rw [agentStream_cons (h body List.mem_cons_self),
        readAll_of_ok (readMessage_frame (cmdlenMax_lt (h body List.mem_cons_self))
          (hsmall body List.mem_cons_self) _),
        ih (fun b hb => h b (List.mem_cons_of_mem _ hb))
          (fun b hb => hsmall b (List.mem_cons_of_mem _ hb))]
      rfl

/-- Reading stops with an error at the first message that is too large. -/
theorem readAll_agentStream_large {bodies : List (List UInt8)} (h : ∀ b ∈ bodies, Accepted b)
    (hlarge : ∃ b ∈ bodies, maxMessageSize < b.length) :
    (readAll (agentStream bodies)).2 ≠ .eof := by
  induction bodies with
  | nil => simp at hlarge
  | cons body bodies ih =>
      have hbody := h body List.mem_cons_self
      rw [agentStream_cons hbody]
      by_cases hbig : maxMessageSize < body.length
      · rw [readAll_of_error (readMessage_frame_large (cmdlenMax_lt hbody) hbig _)]
        simp
      · rw [readAll_of_ok (readMessage_frame (cmdlenMax_lt hbody) (Nat.not_lt.mp hbig) _)]
        apply ih fun b hb => h b (List.mem_cons_of_mem _ hb)
        obtain ⟨b, hb, hblen⟩ := hlarge
        rcases List.mem_cons.mp hb with rfl | hb
        · exact absurd hblen hbig
        · exact ⟨b, hb, hblen⟩

/-- Any prefix of the stream is read as a prefix of the messages. -/
theorem readAll_prefix {bodies : List (List UInt8)} (h : ∀ b ∈ bodies, Accepted b)
    {stream : List UInt8} (hcutoff : stream <+: agentStream bodies) :
    ∃ k e, readAll stream = ((bodies.map binaryMessage).take k, e) := by
  induction bodies generalizing stream with
  | nil =>
      obtain rfl : stream = [] := List.prefix_nil.mp hcutoff
      exact ⟨0, _, rfl⟩
  | cons body bodies ih =>
      have hbody := h body List.mem_cons_self
      rw [agentStream_cons hbody] at hcutoff
      rcases prefix_ends_in_either hcutoff with hcut | ⟨rest, rfl, hrest⟩
      · by_cases hwhole : stream = frame body
        · subst hwhole
          by_cases hbig : maxMessageSize < body.length
          · have hread := readMessage_frame_large (cmdlenMax_lt hbody) hbig []
            rw [List.append_nil] at hread
            exact ⟨0, _, readAll_of_error hread⟩
          · have hread := readMessage_frame (cmdlenMax_lt hbody) (Nat.not_lt.mp hbig) []
            rw [List.append_nil] at hread
            exact ⟨1, _, readAll_of_ok hread⟩
        · obtain ⟨e, he⟩ := readMessage_cut hbody hcut hwhole
          exact ⟨0, e, readAll_of_error he⟩
      · by_cases hbig : maxMessageSize < body.length
        · exact ⟨0, _, readAll_of_error (readMessage_frame_large (cmdlenMax_lt hbody) hbig rest)⟩
        · obtain ⟨k, e, hk⟩ := ih (fun b hb => h b (List.mem_cons_of_mem _ hb)) hrest
          refine ⟨k + 1, e, ?_⟩
          rw [readAll_of_ok (readMessage_frame (cmdlenMax_lt hbody) (Nat.not_lt.mp hbig) rest), hk]
          simp

theorem daemonReads_iff {bodies : List (List UInt8)} (h : ∀ b ∈ bodies, Accepted b) :
    DaemonReads bodies ↔ ∀ b ∈ bodies, b.length ≤ maxMessageSize := by
  constructor
  · intro hreads b hb
    by_contra hlarge
    apply readAll_agentStream_large h ⟨b, hb, Nat.not_le.mp hlarge⟩
    rw [hreads.whole]
  · intro hsmall
    exact ⟨readAll_agentStream h hsmall, fun stream hcutoff _ => readAll_prefix h hcutoff⟩

/-- What the agent makes of a message the daemon wrote: the announced length
is the length of the body modulo `2^32`. -/
theorem nrNetworkReceive_messageWriterWrite (body rest : List UInt8) :
    nrNetworkReceive (messageWriterWrite messageTypeBinary body ++ rest) =
      if nrProtocolCmdlenMaxBytes < body.length % 2 ^ 32 then none
      else nrnRead (body.length % 2 ^ 32) (body ++ rest) := by
  have hread : nrnRead nrProtocolPreambleLength
      (messageWriterWrite messageTypeBinary body ++ rest) =
        some (uint32LE body.length ++ uint32LE messageTypeBinary, body ++ rest) := by
    rw [messageWriterWrite, List.append_assoc]
    exact nrnRead_append (p := uint32LE body.length ++ uint32LE messageTypeBinary)
      (by simp) rfl _
  have htype : ¬ messageTypeBinary % 2 ^ 32 ≠ nrPreambleFormat := by decide
  rw [nrNetworkReceive, hread]
  simp only [nrProtocolParsePreamble_uint32LE, if_neg htype]
  by_cases hlong : nrProtocolCmdlenMaxBytes < body.length % 2 ^ 32
  · simp only [if_pos hlong]
  · simp only [if_neg hlong]

/-- The agent receives a body exactly when it is within the agent's own
limit. The daemon truncates longer lengths to 32 bits, so the announced
length is then either refused or not that of the body. -/
theorem agentReceives_iff {body : List UInt8} (hne : body ≠ []) :
    AgentReceives body ↔ body.length ≤ nrProtocolCmdlenMaxBytes := by
  constructor
  · intro hreceive
    by_contra hlarge
    have hnone := hreceive []
    rw [nrNetworkReceive_messageWriterWrite] at hnone
    split at hnone
    · cases hnone
    · next hmod =>
        obtain ⟨_, _, hlen⟩ := nrnRead_eq_some hnone
        omega
  · intro hsmall rest
    have hlt : body.length < 2 ^ 32 := Nat.lt_of_le_of_lt hsmall (by decide)
    rw [nrNetworkReceive_messageWriterWrite, Nat.mod_eq_of_lt hlt, if_neg (Nat.not_lt.mpr hsmall)]
    exact nrnRead_append (by simpa using hne) rfl rest

/-- Agent and daemon agree on the framing of exactly the messages within the
reader's limit: 2 MB for what the daemon reads, 32 MB for what the agent
reads. -/
theorem framing_agrees_iff (bodies : List (List UInt8)) (h : ∀ b ∈ bodies, Accepted b)
    (reply : List UInt8) (hreply : reply ≠ []) :
    (DaemonReads bodies ∧ AgentReceives reply) ↔
      (∀ b ∈ bodies, b.length ≤ maxMessageSize) ∧ reply.length ≤ nrProtocolCmdlenMaxBytes := by
  rw [daemonReads_iff h, agentReceives_iff hreply]

theorem framing_agrees_small :
    DaemonReads [[1, 2, 3], [4]] ∧ AgentReceives [5] := by
  apply (framing_agrees_iff [[1, 2, 3], [4]] _ [5] (by decide)).mpr
  · constructor
    · simp [maxMessageSize]
    · simp [nrProtocolCmdlenMaxBytes]
  · simp [Accepted, nrWriteMessage, nrProtocolCmdlenMaxBytes]

/-- A body one byte longer than the daemon's limit, which the agent sends. -/
def largeBody : List UInt8 := List.replicate (2 * 2 ^ 20 + 1) 0

theorem accepted_largeBody : Accepted largeBody := by
  have hlen : largeBody.length = 2 * 2 ^ 20 + 1 := List.length_replicate
  constructor
  · intro hnil
    rw [hnil] at hlen
    simp at hlen
  · rw [nrWriteMessage, hlen, if_neg (by decide)]
    rfl

/-- The agent sends the large body and the daemon closes the connection
without having read a message. -/
theorem daemon_refuses_largeBody :
    Accepted largeBody ∧
      readAll (agentStream [largeBody]) = ([], .maximumSizeExceeded (2 * 2 ^ 20 + 1)) ∧
      ¬ DaemonReads [largeBody] := by
  have hlen : largeBody.length = 2 * 2 ^ 20 + 1 := List.length_replicate
  refine ⟨accepted_largeBody, ?_, ?_⟩
  · rw [agentStream_cons accepted_largeBody,
      readAll_of_error (readMessage_frame_large (cmdlenMax_lt accepted_largeBody)
        (by rw [hlen]; decide) _), hlen]
  · rw [daemonReads_iff (by simpa using accepted_largeBody)]
    intro hsmall
    have hle := hsmall largeBody List.mem_cons_self
    rw [hlen] at hle
    exact absurd hle (by decide)

end AxiomDaemon.Protocol

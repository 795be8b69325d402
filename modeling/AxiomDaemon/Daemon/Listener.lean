import AxiomDaemon.Lib.ByteOrder

/-!
Messages between the agent and the daemon as the daemon sees them,
`listener.go`. A connection is modelled by the bytes it delivers before the
peer closes it.
-/

namespace AxiomDaemon.Daemon

open AxiomDaemon.Lib

/-- `maxMessageSize`, 2 MB. -/
def maxMessageSize : ℕ := 2 * 2 ^ 20

def msgHeaderSize : ℕ := 8

def messageTypeBinary : ℕ := 2

structure RawMessage where
  type : ℕ
  bytes : List UInt8
  deriving DecidableEq

/-- The errors of `ReadMessage`, with the data their texts carry. -/
inductive ReadError
  | eof
  | header (e : ShortRead)
  | legacyAgent
  | maximumSizeExceeded (dataSize : ℕ)
  | fullMessage (e : ShortRead)
  deriving DecidableEq

/-- `[0-9] SPACE [0-9] SPACE [0] NEWLINE`. -/
def isLegacyAgent (p : List UInt8) : Bool :=
  match p with
  | p0 :: p1 :: p2 :: p3 :: p4 :: p5 :: _ =>
      if p0 < 48 || 57 < p0 then false
      else if p1 ≠ 32 then false
      else if p2 < 48 || 57 < p2 then false
      else if p3 ≠ 32 then false
      else if p4 ≠ 48 then false
      else if p5 ≠ 10 then false
      else true
  | _ => false

def readMessage (r : List UInt8) : Except ReadError (RawMessage × List UInt8) :=
  match readFull msgHeaderSize r with
  | .error .empty => .error .eof
  | .error e => .error (.header e)
  | .ok (header, r) =>
      if isLegacyAgent header then .error .legacyAgent
      else
        let msgType := readUint32LE (header.drop 4)
        let dataSize := readUint32LE header
        if maxMessageSize < dataSize then .error (.maximumSizeExceeded dataSize)
        else
          match readFull dataSize r with
          | .error e => .error (.fullMessage e)
          | .ok (msg, r) => .ok ({ type := msgType, bytes := msg }, r)

/-- The read loop of `conn.Serve`: messages until the first error. Every
message takes at least a header from the stream, so the number of bytes is
fuel enough. -/
def readMessages : ℕ → List UInt8 → List RawMessage × ReadError
  | 0, _ => ([], .eof)
  | fuel + 1, r =>
      match readMessage r with
      | .error e => ([], e)
      | .ok (msg, r) => (msg :: (readMessages fuel r).1, (readMessages fuel r).2)

def readAll (r : List UInt8) : List RawMessage × ReadError := readMessages (r.length + 1) r

/-- `MessageWriter.Write`: a header with the length as a `uint32`, then the
bytes. -/
def messageWriterWrite (type : ℕ) (p : List UInt8) : List UInt8 :=
  uint32LE p.length ++ uint32LE type ++ p

theorem readMessage_ok_length {r rest : List UInt8} {msg : RawMessage}
    (h : readMessage r = .ok (msg, rest)) : rest.length < r.length := by
  unfold readMessage at h
  split at h
  · cases h
  · cases h
  · next header r' hheader =>
      obtain ⟨rfl, hlen⟩ := readFull_ok hheader
      split at h
      · cases h
      · simp only at h
        split at h
        · cases h
        · split at h
          · cases h
          · next body r'' hbody =>
              obtain ⟨rfl, _⟩ := readFull_ok hbody
              injection h with h
              obtain ⟨_, rfl⟩ := Prod.mk.inj h
              unfold msgHeaderSize at hlen
              simp only [List.length_append]
              omega

theorem readMessages_eq_of_lt {fuel fuel' : ℕ} {r : List UInt8} (h : r.length < fuel)
    (h' : r.length < fuel') : readMessages fuel r = readMessages fuel' r := by
  induction fuel generalizing fuel' r with
  | zero => omega
  | succ fuel ih =>
      cases fuel' with
      | zero => omega
      | succ fuel' =>
          simp only [readMessages]
          cases hread : readMessage r with
          | error e => rfl
          | ok m =>
              obtain ⟨msg, rest⟩ := m
              have hlt := readMessage_ok_length hread
              have hrest : readMessages fuel rest = readMessages fuel' rest :=
                ih (by omega) (by omega)
              simp only [hrest]

theorem readAll_of_error {r : List UInt8} {e : ReadError} (h : readMessage r = .error e) :
    readAll r = ([], e) := by
  simp [readAll, readMessages, h]

theorem readAll_of_ok {r rest : List UInt8} {msg : RawMessage}
    (h : readMessage r = .ok (msg, rest)) :
    readAll r = (msg :: (readAll rest).1, (readAll rest).2) := by
  have hlt := readMessage_ok_length h
  have hrest : readMessages r.length rest = readAll rest :=
    readMessages_eq_of_lt hlt (Nat.lt_succ_self rest.length)
  rw [readAll, readMessages, h]
  simp only [hrest]

end AxiomDaemon.Daemon

import AxiomDaemon.Lib.ByteOrder

/-!
Messages between the agent and the daemon as the agent sees them,
`util_network.c`. A descriptor is modelled by the bytes that have been or
will be transferred over it; `none` stands for `NR_FAILURE` or `NULL`.
-/

namespace AxiomDaemon.Axiom

open AxiomDaemon.Lib

/-- `NR_PREAMBLE_FORMAT`. -/
def nrPreambleFormat : ℕ := 2

/-- `NR_PROCOTOL_PREAMBLE_LENGTH`. -/
def nrProtocolPreambleLength : ℕ := 8

/-- `NR_PROTOCOL_CMDLEN_MAX_BYTES`. -/
def nrProtocolCmdlenMaxBytes : ℕ := 32 * 1024 * 1024

def nrProtocolWritePreamble (datalen : ℕ) : List UInt8 :=
  uint32LE datalen ++ uint32LE nrPreambleFormat

/-- `nr_write_message` on a descriptor that takes all bytes before the
deadline. -/
def nrWriteMessage (body : List UInt8) : Option (List UInt8) :=
  if nrProtocolCmdlenMaxBytes < body.length then none
  else some (nrProtocolWritePreamble body.length ++ body)

def nrProtocolParsePreamble (preamble : List UInt8) : Option ℕ :=
  let length := readUint32LE preamble
  let format := readUint32LE (preamble.drop 4)
  if format ≠ nrPreambleFormat then none
  else if nrProtocolCmdlenMaxBytes < length then none
  else some length

/-- `nrn_read` on a descriptor that delivers `stream` and is then closed. -/
def nrnRead (nbytes : ℕ) (stream : List UInt8) : Option (List UInt8 × List UInt8) :=
  if nbytes = 0 then none else (readFull nbytes stream).toOption

def nrNetworkReceive (stream : List UInt8) : Option (List UInt8 × List UInt8) :=
  match nrnRead nrProtocolPreambleLength stream with
  | none => none
  | some (preamble, rest) =>
      match nrProtocolParsePreamble preamble with
      | none => none
      | some len => nrnRead len rest

theorem nrnRead_append {n : ℕ} (hn : n ≠ 0) {p : List UInt8} (hp : p.length = n)
    (rest : List UInt8) : nrnRead n (p ++ rest) = some (p, rest) := by
  rw [nrnRead, if_neg hn, readFull_append hp]
  rfl

theorem nrnRead_eq_some {n : ℕ} {stream p rest : List UInt8}
    (h : nrnRead n stream = some (p, rest)) : n ≠ 0 ∧ stream = p ++ rest ∧ p.length = n := by
  unfold nrnRead at h
  split at h
  · cases h
  · next hn =>
      cases hread : readFull n stream with
      | error e => simp [hread, Except.toOption] at h
      | ok r =>
          simp only [hread, Except.toOption, Option.some.injEq] at h
          subst h
          exact ⟨hn, readFull_ok hread⟩

theorem nrProtocolParsePreamble_uint32LE (length format : ℕ) :
    nrProtocolParsePreamble (uint32LE length ++ uint32LE format) =
      if format % 2 ^ 32 ≠ nrPreambleFormat then none
      else if nrProtocolCmdlenMaxBytes < length % 2 ^ 32 then none
      else some (length % 2 ^ 32) := by
  have hformat : readUint32LE (uint32LE format) = format % 2 ^ 32 := by
    simpa using readUint32LE_append format []
  rw [nrProtocolParsePreamble, readUint32LE_append,
    show (uint32LE length ++ uint32LE format).drop 4 = uint32LE format from rfl, hformat]

end AxiomDaemon.Axiom

import AxiomDaemon.Util.Object

/-!
Settings in a reply, `util_reply.c`: a number, or a text that says yes or no.
-/

namespace AxiomDaemon.Util

open AxiomDaemon.Lib

/-- The conversion of a `double` to an `int`. What is too large, and what is no
number, becomes the least `int`. -/
def doubleToInt : Double → ℤ
  | .finite d =>
      let magnitude : ℤ := (d.scaled / unitScale : ℕ)
      let i := if d.negative then -magnitude else magnitude
      if -2 ^ 31 ≤ i ∧ i < 2 ^ 31 then i else -2 ^ 31
  | .infinite _ | .nan _ => -2 ^ 31

/-- `nro_get_ival`; a `long` is cut off. -/
def nroGetIval : Option NrObj → Option ℤ
  | some (.int i) => some i
  | some (.boolean b) => some (if b then 1 else 0)
  | some (.long l) => some (l.bmod (2 ^ 32))
  | some (.double d) => some (doubleToInt d)
  | _ => none

def lowerByte (b : UInt8) : UInt8 := if 0x41 ≤ b ∧ b ≤ 0x5a then b + 0x20 else b

/-- `nr_stricmp` is zero. -/
def nrStricmpEq (s1 s2 : Bytes) : Bool := s1.map lowerByte = s2.map lowerByte

/-- `nr_reply_get_bool`. -/
def nrReplyGetBool (reply : Option NrObj) (name : Bytes) (dflt : ℤ) : ℤ :=
  match nroGetHashValue reply name with
  | none => dflt
  | some rp =>
      match nroGetIval (some rp), nroGetString (some rp) with
      | some ret, _ => ret
      | none, none => dflt
      | none, some str =>
          let c := str.headD 0
          if c ∈ ascii "1yYtT" ∨ nrStricmpEq str (ascii "on") then 1
          else if c ∈ ascii "0nNfF" ∨ nrStricmpEq str (ascii "off") then 0
          else dflt

end AxiomDaemon.Util

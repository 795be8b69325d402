import AxiomDaemon.Lib.ReadNumber
import AxiomDaemon.Util.Object

/-!
Generic objects as JSON texts and back, `nro_to_json` and
`nro_create_from_json` of `util_object.c`. The reader is on C strings: the
end of the list is the terminator, and nothing is read beyond it. It is
laxer than JSON: every byte up to a blank is white space, a backslash may
stand before any character, and integers may be octal or hexadecimal.
-/

namespace AxiomDaemon.Util.ObjectJson

open AxiomDaemon.Lib
open AxiomDaemon.Lib.Json (quote comma minus dot slash colon lbracket rbracket lbrace rbrace
  backslash zero)

/-! ### Writing -/

mutual

/-- `recursive_obj_to_json`. -/
def recursiveObjToJson : NrObj → Bytes
  | .none => ascii "null"
  | .boolean b => if b then ascii "true" else ascii "false"
  | .int i => signedDecimal i
  | .long l => signedDecimal l
  | .double d => d.format 5
  | .string s => nrJsonEscape s
  | .jstring s => s
  | .hash entries => lbrace :: (entriesToJson entries ++ [rbrace])
  | .array elements => lbracket :: (elementsToJson elements ++ [rbracket])

/-- The loop over the keys: a comma after each entry but the last. -/
def entriesToJson : List (Bytes × NrObj) → Bytes
  | [] => []
  | (key, value) :: entries =>
      nrJsonEscape key ++ (colon :: (recursiveObjToJson value ++
        ((if entries.isEmpty then [] else [comma]) ++ entriesToJson entries)))

/-- The loop over the elements. -/
def elementsToJson : List NrObj → Bytes
  | [] => []
  | value :: elements =>
      recursiveObjToJson value ++
        ((if elements.isEmpty then [] else [comma]) ++ elementsToJson elements)

end

/-! ### Reading -/

/-- `json_skip`. -/
def jsonSkip (bs : Bytes) : Bytes := bs.dropWhile fun b => b ≠ 0 && decide (b.toNat ≤ 32)

/-- `parse_number`: integers that fit into an `int`, less its extremes, become
one. With a fraction or an exponent the number is a double, unless that is too
large for one; then its digits are read as a `long` after all. -/
def parseNumber (num : Bytes) : NrObj × Bytes :=
  let (i, ret) := strtol num
  if ret.head? = some dot ∨ ret.head? = some 0x65 ∨ ret.head? = some 0x45 then
    let (d, rest) := strtod num
    match d with
    | .infinite _ => (.long i, ret)
    | d => (.double d, rest)
  else if i ≤ -2 ^ 31 ∨ 2 ^ 31 - 1 ≤ i then (.long i, ret)
  else (.int i, ret)

/-- The first loop of `parse_string`: whether there is a closing quote and no
control byte before it that has no backslash. -/
def hasClosingQuote : Bytes → Bool
  | [] => false
  | b :: bs =>
      if b = quote then true
      else if b = backslash then
        match bs with
        | [] => false
        | _ :: cs => hasClosingQuote cs
      else if b.toNat < 32 then false
      else hasClosingQuote bs

/-- The bytes that are stored for a code unit, one to three; the leading byte is
truncated to eight bits. -/
def transcode (uc : ℕ) : Bytes :=
  if uc < 0x80 then [UInt8.ofNat uc]
  else if uc < 0x800 then [UInt8.ofNat (uc / 0x40 ||| 0xc0), UInt8.ofNat (uc % 0x40 + 0x80)]
  else
    [UInt8.ofNat (uc / 0x1000 ||| 0xe0), UInt8.ofNat (uc / 0x40 % 0x40 + 0x80),
      UInt8.ofNat (uc % 0x40 + 0x80)]

/-- What a backslash and one more byte other than `u` are replaced by. -/
def escapedByte (b : UInt8) : UInt8 :=
  if b = 0x62 then 0x08
  else if b = 0x66 then 0x0c
  else if b = 0x6e then 0x0a
  else if b = 0x72 then 0x0d
  else if b = 0x74 then 0x09
  else b

section Reader

-- what `uc` holds when `sscanf` has stored nothing there: it is not set before, and the value
-- may be another one at every place of the text
variable (unset : Bytes → ℕ)

/-- The second loop of `parse_string`: the bytes that are stored, and the text
from where it stops. -/
def copyString : Bytes → Bytes × Bytes
  | [] => ([], [])
  | b :: bs =>
      if b = quote ∨ b.toNat ≤ 31 then ([], b :: bs)
      else if b = backslash then
        match bs with
        | [] => ([], [])
        | c :: cs =>
            if c = 0x75 then
              let uc := (scanHex4 cs).getD (unset cs)
              match cs with
              | _ :: _ :: _ :: _ :: ds => (transcode uc ++ (copyString ds).1, (copyString ds).2)
              | _ => (transcode uc, [])
            else (escapedByte c :: (copyString cs).1, (copyString cs).2)
      else (b :: (copyString bs).1, (copyString bs).2)

/-- `parse_string`. What is kept ends before the first byte that is zero. -/
def parseString (str : Bytes) : Option (Bytes × Bytes) :=
  match str with
  | [] => none
  | b :: bs =>
      if b = quote ∧ hasClosingQuote bs then
        let (out, ptr) := copyString unset bs
        some (out.takeWhile (· ≠ 0), if ptr.head? = some quote then ptr.tail else ptr)
      else none

mutual

/-- `parse_value`. The first argument bounds the depth of the recursion. -/
def parseValue : ℕ → Bytes → Option (NrObj × Bytes)
  | 0, _ => none
  | fuel + 1, value =>
      if (ascii "null").isPrefixOf value then some (.none, value.drop 4)
      else if (ascii "false").isPrefixOf value then some (.boolean false, value.drop 5)
      else if (ascii "true").isPrefixOf value then some (.boolean true, value.drop 4)
      else
        match value with
        | [] => none
        | b :: bs =>
            if b = quote then (parseString unset (b :: bs)).map fun r => (.string r.1, r.2)
            else if b = minus ∨ isDigit b then some (parseNumber (b :: bs))
            else if b = lbracket then
              -- `parse_array`
              match jsonSkip bs with
              | [] => parseElements fuel (.array []) []
              | c :: cs =>
                  if c = rbracket then some (.array [], cs)
                  else parseElements fuel (.array []) (c :: cs)
            else if b = lbrace then
              -- `parse_object`
              match jsonSkip bs with
              | [] => parseMembers fuel (.hash []) []
              | c :: cs =>
                  if c = rbrace then some (.hash [], cs)
                  else parseMembers fuel (.hash []) (c :: cs)
            else none

/-- The elements of an array from where one is expected. -/
def parseElements : ℕ → NrObj → Bytes → Option (NrObj × Bytes)
  | 0, _, _ => none
  | fuel + 1, item, value =>
      match parseValue fuel (jsonSkip value) with
      | none => none
      | some (child, value) =>
          match jsonSkip value with
          | [] => none
          | b :: bs =>
              if b = comma then parseElements fuel (nroAppendArray item child) bs
              else if b = rbracket then some (nroAppendArray item child, bs)
              else none

/-- The members of an object from where a key is expected. -/
def parseMembers : ℕ → NrObj → Bytes → Option (NrObj × Bytes)
  | 0, _, _ => none
  | fuel + 1, item, value =>
      match parseString unset (jsonSkip value) with
      | none => none
      | some (key, value) =>
          match jsonSkip value with
          | [] => none
          | b :: bs =>
              if b = colon then
                match parseValue fuel (jsonSkip bs) with
                | none => none
                | some (child, value) =>
                    match jsonSkip value with
                    | [] => none
                    | b :: bs =>
                        if b = comma then parseMembers fuel (nroSetHash item key child) bs
                        else if b = rbrace then some (nroSetHash item key child, bs)
                        else none
              else none

end

end Reader

end AxiomDaemon.Util.ObjectJson

namespace AxiomDaemon.Util

open AxiomDaemon.Lib ObjectJson

/-- `nro_to_json`. -/
def nroToJson (obj : Option NrObj) : Bytes :=
  match obj with
  | none => ascii "null"
  | some obj => recursiveObjToJson obj

/-- `nro_create_from_json`. A value opens at most one level for each byte. -/
def nroCreateFromJson (unset : Bytes → ℕ) (json : Bytes) : Option NrObj :=
  if json = [] then none
  else
    match parseValue unset (2 * json.length + 2) (jsonSkip json) with
    | none => none
    | some (rv, next) => if jsonSkip next = [] then some rv else none

end AxiomDaemon.Util

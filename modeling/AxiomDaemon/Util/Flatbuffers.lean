import AxiomDaemon.Lib.Block
import AxiomDaemon.Lib.FlatbuffersFormat

/-!
`util_flatbuffers.c`: how a buffer is built.

The builder writes in front of what it has written. When the memory in front is
used up, everything moves to the end of memory of twice the size. Padding makes
addresses multiples of a size, so they are part of the model: `malloc` says
which address the allocations of a builder get, one after the other.

A function has no result when an assertion fails, or when it writes or reads
outside of its memory. Words are numbers; the places of what was written are
counted from the end of the buffer.
-/

namespace AxiomDaemon.Util

open AxiomDaemon.Lib AxiomDaemon.Lib.Flatbuffers

/-! ### Scalars -/

/-- The types that the functions are instantiated for. -/
inductive ScalarType
  | i8
  | i16
  | i32
  | i64
  | u8
  | u16
  | u32
  | u64
  | f32
  | f64
  deriving DecidableEq

namespace ScalarType

/-- `sizeof`. -/
def size : ScalarType → ℕ
  | i8 | u8 => 1
  | i16 | u16 => 2
  | i32 | u32 | f32 => 4
  | i64 | u64 | f64 => 8

theorem size_pos (ty : ScalarType) : 0 < ty.size := by
  cases ty <;> decide

/-- Values are given by their bits. -/
abbrev Value (ty : ScalarType) : Type := BitVec (8 * ty.size)

/-- `!=` of floating point numbers: a NaN differs from everything, and the zeros do not
differ from each other. -/
def floatDiffers (mantissa exponent x d : ℕ) : Bool :=
  let magnitude := fun bits => bits % 2 ^ (mantissa + exponent)
  let isNaN := fun bits => decide ((2 ^ exponent - 1) * 2 ^ mantissa < magnitude bits)
  isNaN x || isNaN d || decide (x ≠ d ∧ ¬ (magnitude x = 0 ∧ magnitude d = 0))

/-- `!=`. -/
def differs (ty : ScalarType) (x d : ty.Value) : Bool :=
  match ty with
  | f32 => floatDiffers 23 8 x.toNat d.toNat
  | f64 => floatDiffers 52 11 x.toNat d.toNat
  | _ => decide (x ≠ d)

end ScalarType

/-! ### The builder -/

/-- `nr_flatbuffer_t`: `room` bytes are between `front` and `pos`, and `bytes` are between
`pos` and `back`. The vtable that was saved last comes first in `vtables`. -/
structure Flatbuffer where
  front : ℕ
  room : ℕ
  bytes : Bytes
  minAlign : ℕ
  insideObject : Bool
  objectEnd : ℕ
  vtable : List ℕ
  vtables : List ℕ
  allocations : ℕ
  deriving DecidableEq

namespace Flatbuffer

/-- `pos`, as an address. -/
def pos (fb : Flatbuffer) : ℕ := fb.front + fb.room

/-- `back - front`. -/
def capacity (fb : Flatbuffer) : ℕ := fb.room + fb.bytes.length

/-- Bytes are put in front. -/
def put (fb : Flatbuffer) (bytes : Bytes) : Option Flatbuffer :=
  if bytes.length ≤ fb.room then
    some { fb with room := fb.room - bytes.length, bytes := bytes ++ fb.bytes }
  else none

end Flatbuffer

/-- `nr_flatbuffers_len`. -/
def nrFlatbuffersLen (fb : Flatbuffer) : ℕ := fb.bytes.length

/-- `nr_flatbuffers_pad`. -/
def nrFlatbuffersPad (fb : Flatbuffer) (n : ℕ) : Option Flatbuffer := fb.put (List.replicate n 0)

/-- `nr_flatbuffers_put_u8`, and the others of its kind. -/
def nrFlatbuffersPut (ty : ScalarType) (fb : Flatbuffer) (x : ty.Value) : Option Flatbuffer :=
  fb.put (uintLE ty.size x.toNat)

/-- `nr_flatbuffers_put_u16`, for the entries of a vtable. -/
def nrFlatbuffersPutU16 (fb : Flatbuffer) (x : ℕ) : Option Flatbuffer := fb.put (uintLE 2 x)

/-- `nr_flatbuffers_put_u32`, for lengths and offsets. -/
def nrFlatbuffersPutU32 (fb : Flatbuffer) (x : ℕ) : Option Flatbuffer := fb.put (uintLE 4 x)

/-- `nr_flatbuffers_encode_i32`, at a place of the buffer. -/
def nrFlatbuffersEncodeI32 (fb : Flatbuffer) (place x : ℕ) : Flatbuffer :=
  { fb with bytes := blockCopy fb.bytes (fb.bytes.length - place) (uintLE 4 x) }

/-- `nr_flatbuffers_vector_end`. -/
def nrFlatbuffersVectorEnd (fb : Flatbuffer) (numElems : ℕ) : Option (ℕ × Flatbuffer) := do
  let fb ← nrFlatbuffersPutU32 fb numElems
  some (nrFlatbuffersLen fb % 2 ^ 32, fb)

section Allocating

variable (malloc : ℕ → ℕ)

/-- `nr_flatbuffers_create`. -/
def nrFlatbuffersCreate (initialSize : ℕ) : Flatbuffer :=
  { front := if 0 < initialSize then malloc 0 else 0
    room := initialSize
    bytes := []
    minAlign := 1
    insideObject := false
    objectEnd := 0
    vtable := []
    vtables := []
    allocations := 1 }

/-- `nr_flatbuffers_grow`. -/
def nrFlatbuffersGrow (fb : Flatbuffer) : Option Flatbuffer :=
  let oldSize := fb.capacity
  if oldSize &&& 0xC0000000 ≠ 0 then none
  else
    let newSize := if oldSize * 2 = 0 then 1 else oldSize * 2
    some { fb with
      front := malloc fb.allocations
      room := newSize - fb.bytes.length
      allocations := fb.allocations + 1 }

/-- The loop of `nr_flatbuffers_prep`. Every round adds to the room, so the fuel is enough
when it is more than what is needed. -/
def growWhile (need : ℕ) : ℕ → Flatbuffer → Option Flatbuffer
  | 0, fb => some fb
  | fuel + 1, fb =>
      if fb.room ≤ need then (nrFlatbuffersGrow malloc fb).bind (growWhile need fuel)
      else some fb

/-- `nr_flatbuffers_prep`. -/
def nrFlatbuffersPrep (fb : Flatbuffer) (size additionalBytes : ℕ) : Option Flatbuffer := do
  let fb := if size > fb.minAlign then { fb with minAlign := size } else fb
  let need := 2 * size + additionalBytes
  let fb ← growWhile malloc need (need + 1) fb
  nrFlatbuffersPad fb ((fb.pos - additionalBytes - size) % size)

/-- `nr_flatbuffers_prepend_u8`, and the others that its macro makes. -/
def nrFlatbuffersPrepend (ty : ScalarType) (fb : Flatbuffer) (x : ty.Value) :
    Option Flatbuffer := do
  let fb ← nrFlatbuffersPrep malloc fb ty.size 0
  nrFlatbuffersPut ty fb x

/-- `nr_flatbuffers_prepend_u16`, for the entries of a vtable. -/
def nrFlatbuffersPrependU16 (fb : Flatbuffer) (x : ℕ) : Option Flatbuffer := do
  let fb ← nrFlatbuffersPrep malloc fb 2 0
  nrFlatbuffersPutU16 fb x

/-- `nr_flatbuffers_prepend_uoffset`. -/
def nrFlatbuffersPrependUoffset (fb : Flatbuffer) (offset : ℕ) : Option Flatbuffer := do
  let fb ← nrFlatbuffersPrep malloc fb 4 0
  if offset ≤ nrFlatbuffersLen fb then
    nrFlatbuffersPutU32 fb (nrFlatbuffersLen fb - offset + 4)
  else none

/-- `nr_flatbuffers_prepend_string`. -/
def nrFlatbuffersPrependString (fb : Flatbuffer) (s : Option Bytes) :
    Option (ℕ × Flatbuffer) :=
  match s with
  | none => some (0, fb)
  | some s => do
      let fb ← nrFlatbuffersPrep malloc fb 4 (s.length + 1)
      let fb ← fb.put (s ++ [0])
      nrFlatbuffersVectorEnd fb s.length

/-- `nr_flatbuffers_vector_begin`. -/
def nrFlatbuffersVectorBegin (fb : Flatbuffer) (elemSize numElems alignment : ℕ) :
    Option Flatbuffer := do
  let size := elemSize * numElems
  let fb ← nrFlatbuffersPrep malloc fb 4 size
  nrFlatbuffersPrep malloc fb alignment size

/-- A vector of offsets, as all callers make one: the last element first. -/
def prependOffsets (fb : Flatbuffer) (offsets : List ℕ) : Option (ℕ × Flatbuffer) := do
  let fb ← nrFlatbuffersVectorBegin malloc fb 4 offsets.length 4
  let fb ← offsets.reverse.foldlM (nrFlatbuffersPrependUoffset malloc) fb
  nrFlatbuffersVectorEnd fb offsets.length

/-! ### Objects -/

/-- `nr_flatbuffers_object_begin`, and whether it succeeds. -/
def nrFlatbuffersObjectBegin (fb : Flatbuffer) (numFields : ℕ) : Bool × Flatbuffer :=
  if fb.insideObject then (false, fb)
  else
    (true, { fb with
      insideObject := true
      objectEnd := nrFlatbuffersLen fb
      minAlign := 1
      vtable := List.replicate numFields 0 })

/-- `fb->vtable[i] = nr_flatbuffers_len(fb)`, for a field that the object has. -/
def setSlot (fb : Flatbuffer) (i : ℕ) : Option Flatbuffer :=
  if i < fb.vtable.length then
    some { fb with vtable := fb.vtable.set i (nrFlatbuffersLen fb % 2 ^ 32) }
  else none

/-- `nr_flatbuffers_object_prepend_u8`, and the others that its macro makes. -/
def nrFlatbuffersObjectPrepend (ty : ScalarType) (fb : Flatbuffer) (i : ℕ) (x d : ty.Value) :
    Option Flatbuffer :=
  if ty.differs x d then do
    let fb ← nrFlatbuffersPrepend malloc ty fb x
    setSlot fb i
  else some fb

/-- `nr_flatbuffers_object_prepend_uoffset`. -/
def nrFlatbuffersObjectPrependUoffset (fb : Flatbuffer) (i x d : ℕ) : Option Flatbuffer :=
  if x ≠ d then do
    let fb ← nrFlatbuffersPrependUoffset malloc fb x
    setSlot fb i
  else some fb

/-- `nr_flatbuffers_object_prepend_bool`. -/
def nrFlatbuffersObjectPrependBool (fb : Flatbuffer) (i : ℕ) (x d : Bool) : Option Flatbuffer :=
  if x ≠ d then do
    let fb ← nrFlatbuffersPrepend malloc .u8 fb (if x then 1 else 0)
    setSlot fb i
  else some fb

end Allocating

/-! ### Reading words -/

/-- `nr_flatbuffers_read_u16`, and `nr_flatbuffers_read_voffset`. -/
def nrFlatbuffersReadU16 (buf : Bytes) (offset : ℕ) : Option ℕ := readUintLE 2 (buf.drop offset)

/-- `nr_flatbuffers_read_uoffset`, and the bits of `nr_flatbuffers_read_soffset`. -/
def nrFlatbuffersReadUoffset (buf : Bytes) (offset : ℕ) : Option ℕ :=
  readUintLE 4 (buf.drop offset)

/-! ### Vtables -/

/-- `nr_flatbuffers_vtable_num_fields`, for a vtable that was saved. -/
def nrFlatbuffersVtableNumFields (fb : Flatbuffer) (vtable : ℕ) : Option ℕ := do
  let size ← nrFlatbuffersReadU16 fb.bytes (nrFlatbuffersLen fb - vtable)
  some ((size + 2 ^ 64 - 4) % 2 ^ 64 / 2 % 2 ^ 32)

/-- `nr_flatbuffers_vtable_field`. -/
def nrFlatbuffersVtableField (fb : Flatbuffer) (vtable j : ℕ) : Option ℕ :=
  nrFlatbuffersReadU16 fb.bytes (nrFlatbuffersLen fb - vtable + 4 + j * 2)

/-- The loop of `nr_flatbuffers_match_vtable`. -/
def matchFields (fb : Flatbuffer) (vtable : ℕ) : ℕ → List ℕ → Option Bool
  | _, [] => some true
  | i, entry :: entries => do
      let existingField ← nrFlatbuffersVtableField fb vtable i
      if existingField ≠ entry then some false else matchFields fb vtable (i + 1) entries

/-- `nr_flatbuffers_match_vtable`. -/
def nrFlatbuffersMatchVtable (fb : Flatbuffer) (vtable : ℕ) : Option Bool := do
  let numFields ← nrFlatbuffersVtableNumFields fb vtable
  if fb.vtable.length ≠ numFields then some false else matchFields fb vtable 0 fb.vtable

/-- The loop of `nr_flatbuffers_find_existing_vtable`. -/
def findVtable (fb : Flatbuffer) : List ℕ → Option ℕ
  | [] => some 0
  | vtable :: vtables => do
      if ← nrFlatbuffersMatchVtable fb vtable then some vtable else findVtable fb vtables

/-- `nr_flatbuffers_find_existing_vtable`. -/
def nrFlatbuffersFindExistingVtable (fb : Flatbuffer) : Option ℕ := findVtable fb fb.vtables

/-- The place of a field as the distance from the start of the object. -/
def relativeField (objectOffset field : ℕ) : Option ℕ :=
  if field = 0 then some 0
  else if objectOffset > field ∧ objectOffset - field < 0xFFFF then some (objectOffset - field)
  else none

section Allocating

variable (malloc : ℕ → ℕ)

/-- A vtable that does not exist yet is written, and saved. -/
def writeVtable (fb : Flatbuffer) (objectOffset : ℕ) : Option Flatbuffer := do
  let numFields := fb.vtable.length
  let fb ← fb.vtable.reverse.foldlM (nrFlatbuffersPrependU16 malloc) fb
  let fb ← nrFlatbuffersPrependU16 malloc fb (objectOffset - fb.objectEnd)
  let fb ← nrFlatbuffersPrependU16 malloc fb ((numFields + 2) * 2)
  let fb := nrFlatbuffersEncodeI32 fb objectOffset (wordDiff (nrFlatbuffersLen fb) objectOffset)
  some { fb with vtables := nrFlatbuffersLen fb % 2 ^ 32 :: fb.vtables }

/-- `nr_flatbuffers_prepend_vtable`. -/
def nrFlatbuffersPrependVtable (fb : Flatbuffer) : Option (ℕ × Flatbuffer) := do
  let fb ← nrFlatbuffersPrepend malloc .i32 fb 0
  let objectOffset := nrFlatbuffersLen fb % 2 ^ 32
  let vtable ← fb.vtable.mapM (relativeField objectOffset)
  let fb := { fb with vtable }
  let existingVtable ← nrFlatbuffersFindExistingVtable fb
  let fb ←
    if existingVtable = 0 then writeVtable malloc fb objectOffset
    else some (nrFlatbuffersEncodeI32 fb objectOffset (wordDiff existingVtable objectOffset))
  some (objectOffset, { fb with vtable := [] })

/-- `nr_flatbuffers_object_end`. -/
def nrFlatbuffersObjectEnd (fb : Flatbuffer) : Option (ℕ × Flatbuffer) :=
  if fb.insideObject then do
    let (offset, fb) ← nrFlatbuffersPrependVtable malloc fb
    some (offset, { fb with insideObject := false })
  else some (0, fb)

/-- `nr_flatbuffers_finish`. -/
def nrFlatbuffersFinish (fb : Flatbuffer) (rootTable : ℕ) : Option Flatbuffer := do
  let fb ← nrFlatbuffersPrep malloc fb fb.minAlign 4
  nrFlatbuffersPrependUoffset malloc fb rootTable

end Allocating

end AxiomDaemon.Util

import AxiomDaemon.Lib.Double
import AxiomDaemon.Util.JsonEscape

/-!
Generic objects, `util_object.c`: values of the types of JSON, with 32-bit
and 64-bit integers kept apart. Hashes keep their members in the order in
which the keys were first set. An absent object is a `NULL` pointer, and
every accessor takes one.
-/

namespace AxiomDaemon.Util

open AxiomDaemon.Lib AxiomDaemon.Lib.Json

/-- `nrobj_t`. -/
inductive NrObj
  | none
  | boolean (b : Bool)
  | int (i : ℤ)
  | long (l : ℤ)
  | double (d : Double)
  | string (s : Bytes)
  | jstring (s : Bytes)
  | hash (entries : List (Bytes × NrObj))
  | array (elements : List NrObj)

/-! ### Hashes -/

/-- The entries after a key was set: an entry of the key keeps its place. -/
def setEntry (key : Bytes) (value : NrObj) : List (Bytes × NrObj) → List (Bytes × NrObj)
  | [] => [(key, value)]
  | (k, v) :: entries =>
      if k = key then (key, value) :: entries else (k, v) :: setEntry key value entries

/-- `nro_internal_setvalue_hash`: the hash afterwards. Nothing is set in
something that is no hash, or under an empty key. -/
def nroSetHash (obj : NrObj) (key : Bytes) (value : NrObj) : NrObj :=
  match obj with
  | .hash entries => if key = [] then obj else .hash (setEntry key value entries)
  | _ => obj

/-- `nro_internal_setvalue_array` with index 0. -/
def nroAppendArray (obj : NrObj) (value : NrObj) : NrObj :=
  match obj with
  | .array elements => .array (elements ++ [value])
  | _ => obj

def findEntry (key : Bytes) : List (Bytes × NrObj) → Option NrObj
  | [] => .none
  | (k, v) :: entries => if k = key then some v else findEntry key entries

def nroGetHashValue (obj : Option NrObj) (key : Bytes) : Option NrObj :=
  match obj with
  | some (.hash entries) => if key = [] then .none else findEntry key entries
  | _ => .none

/-! ### Values

Every accessor fails on an object of another type; integers of one width are
not taken for those of the other. -/

def nroGetBoolean : Option NrObj → Option Bool
  | some (.boolean b) => some b
  | _ => .none

def nroGetInt : Option NrObj → Option ℤ
  | some (.int i) => some i
  | _ => .none

def nroGetLong : Option NrObj → Option ℤ
  | some (.long l) => some l
  | _ => .none

def nroGetDouble : Option NrObj → Option Double
  | some (.double d) => some d
  | _ => .none

def nroGetString : Option NrObj → Option Bytes
  | some (.string s) => some s
  | _ => .none

def nroGetHashBoolean (obj : Option NrObj) (key : Bytes) : Option Bool :=
  nroGetBoolean (nroGetHashValue obj key)

def nroGetHashLong (obj : Option NrObj) (key : Bytes) : Option ℤ :=
  nroGetLong (nroGetHashValue obj key)

def nroGetHashDouble (obj : Option NrObj) (key : Bytes) : Option Double :=
  nroGetDouble (nroGetHashValue obj key)

def nroGetHashString (obj : Option NrObj) (key : Bytes) : Option Bytes :=
  nroGetString (nroGetHashValue obj key)

/-- The value of a key, if it is a hash. -/
def nroGetHashHash (obj : Option NrObj) (key : Bytes) : Option NrObj :=
  match nroGetHashValue obj key with
  | some (.hash entries) => some (.hash entries)
  | _ => .none

/-- The value of a key, if it is an array. -/
def nroGetHashArray (obj : Option NrObj) (key : Bytes) : Option NrObj :=
  match nroGetHashValue obj key with
  | some (.array elements) => some (.array elements)
  | _ => .none

/-- Positions in an array are counted from 1. -/
def nroGetArrayValue (obj : Option NrObj) (idx : ℕ) : Option NrObj :=
  match obj with
  | some (.array elements) => if idx = 0 then .none else elements[idx - 1]?
  | _ => .none

def nroGetArrayBoolean (obj : Option NrObj) (idx : ℕ) : Option Bool :=
  nroGetBoolean (nroGetArrayValue obj idx)

def nroGetArrayInt (obj : Option NrObj) (idx : ℕ) : Option ℤ :=
  nroGetInt (nroGetArrayValue obj idx)

def nroGetArrayString (obj : Option NrObj) (idx : ℕ) : Option Bytes :=
  nroGetString (nroGetArrayValue obj idx)

/-- `nro_find_array_int`: the position of an `int`, or -1. -/
def nroFindArrayInt (array : Option NrObj) (x : ℤ) : ℤ :=
  match array with
  | some (.array elements) =>
      match elements.findIdx? fun element => nroGetInt (some element) = some x with
      | some i => i + 1
      | .none => -1
  | _ => -1

/-- `nro_getsize`. -/
def nroGetsize : Option NrObj → ℤ
  | some (.array elements) => elements.length
  | some (.hash entries) => entries.length
  | _ => -1

end AxiomDaemon.Util

import AxiomDaemon.Lib.Json
import AxiomDaemon.Lib.ReadNumber
import Mathlib.Data.List.AList

/-!
JSON values decoded into typed ones, the way of a decoder that fills a value
that is there already. A `null` leaves it as it is. An object sets the fields
that its members name, one member after the other, so that the last one of a
name counts; what no member names stays, and a member that names no field is
skipped. The case of letters does not matter for a name.

A string is the text of its code units. Half of a surrogate pair that stands
alone is no character and is replaced.
-/

namespace AxiomDaemon.Lib.JsonDecode

/-! ### Names -/

/-- The small letter of a code unit. The long s and the sign of the kelvin are
cases of letters too. -/
def foldUnit (u : ℕ) : ℕ :=
  if 0x41 ≤ u ∧ u ≤ 0x5a then u + 0x20
  else if u = 0x17f then 0x73
  else if u = 0x212a then 0x6b
  else u

def foldName (name : Bytes) : List ℕ := name.map fun b => foldUnit b.toNat

/-- The key of a member is the name, in any case of letters. -/
def names (name : Bytes) (key : List ℕ) : Bool := key.map foldUnit = foldName name

theorem names_iff {name : Bytes} {key : List ℕ} :
    names name key = true ↔ key.map foldUnit = foldName name := decide_eq_true_iff

/-- The value of the last member that has the name. -/
def lastNamed (name : Bytes) : List (List ℕ × Json) → Option Json
  | [] => none
  | member :: members =>
      (lastNamed name members).or (if names name member.1 then some member.2 else none)

/-! ### Values -/

/-- A decoder fills a value that is there already, or reports an error. -/
abbrev Decoder (α : Type) : Type := α → Json → Option α

/-- A whole number of 64 bits without a sign. -/
def parseUint (text : Bytes) : Option UInt64 :=
  match spanDigits 10 text with
  | (d :: ds, []) =>
      if numberOf 10 (d :: ds) < 2 ^ 64 then some (UInt64.ofNat (numberOf 10 (d :: ds))) else none
  | _ => none

/-- A whole number of 64 bits with a sign. -/
def parseSigned (text : Bytes) : Option ℤ :=
  let (negative, body) := readSign text
  match spanDigits 10 body with
  | (d :: ds, []) =>
      let n : ℤ := numberOf 10 (d :: ds)
      let i := if negative then -n else n
      if -2 ^ 63 ≤ i ∧ i < 2 ^ 63 then some i else none
  | _ => none

def isHighSurrogate (u : ℕ) : Bool := 0xd800 ≤ u && u < 0xdc00

def isLowSurrogate (u : ℕ) : Bool := 0xdc00 ≤ u && u < 0xe000

/-- The character of a code unit that is not paired. -/
def charOf (u : ℕ) : Char :=
  if isHighSurrogate u || isLowSurrogate u then Char.ofNat 0xfffd else Char.ofNat u

def charsOf : List ℕ → List Char
  | [] => []
  | [u] => [charOf u]
  | u :: v :: units =>
      if isHighSurrogate u && isLowSurrogate v then
        Char.ofNat (0x10000 + (u - 0xd800) * 0x400 + (v - 0xdc00)) :: charsOf units
      else charOf u :: charsOf (v :: units)

def stringOf (units : List ℕ) : String := String.ofList (charsOf units)

def decodeUint64 : Decoder UInt64
  | n, .null => some n
  | _, .num text => parseUint text
  | _, _ => none

def decodeInt : Decoder ℤ
  | i, .null => some i
  | _, .num text => parseSigned text
  | _, _ => none

def decodeBool : Decoder Bool
  | b, .null => some b
  | _, .bool b => some b
  | _, _ => none

def decodeString : Decoder String
  | s, .null => some s
  | _, .str units => some (stringOf units)
  | _, _ => none

section Composite

variable {α σ : Type}

/-- A pointer: `null` makes it point to nothing. A pointer to nothing points to
a new value first. -/
def decodePtr (new : α) (decode : Decoder α) : Decoder (Option α)
  | _, .null => some none
  | old, v => (decode (old.getD new) v).map some

/-- A map by strings. The value of a key is a new one for every member. -/
def decodeMap (new : α) (decode : Decoder α) : Decoder (AList fun _ : String => α)
  | _, .null => some ∅
  | entries, .obj members =>
      members.foldlM
        (fun entries member =>
          (decode new member.2).map fun a => entries.insert (stringOf member.1) a)
        entries
  | _, _ => none

/-- A field of a structure. -/
structure StructField (σ : Type) where
  name : Bytes
  decode : Decoder σ

/-- The field that is read and written by two functions. -/
def StructField.of (name : Bytes) (get : σ → α) (set : σ → α → σ) (decode : Decoder α) :
    StructField σ where
  name := name
  decode := fun s v => (decode (get s) v).map (set s)

def decodeMember (fields : List (StructField σ)) (s : σ) (member : List ℕ × Json) : Option σ :=
  match fields.find? fun field => names field.name member.1 with
  | some field => field.decode s member.2
  | none => some s

def decodeStruct (fields : List (StructField σ)) : Decoder σ
  | s, .null => some s
  | s, .obj members => members.foldlM (decodeMember fields) s
  | _, _ => none

/-! ### What an object says of one field -/

/-- The fields have different names, whatever the case of letters. -/
def Distinct (fields : List (StructField σ)) : Prop :=
  (fields.map fun field => foldName field.name).Nodup

instance (fields : List (StructField σ)) : Decidable (Distinct fields) :=
  inferInstanceAs (Decidable (List.Nodup _))

theorem find?_eq {fields : List (StructField σ)} (hdistinct : Distinct fields) {field : StructField σ}
    (hfield : field ∈ fields) {key : List ℕ} (hkey : names field.name key = true) :
    fields.find? (fun field => names field.name key) = some field := by
  induction fields with
  | nil => cases hfield
  | cons first fields ih =>
      obtain ⟨hfirst, hrest⟩ := List.nodup_cons.mp hdistinct
      rw [List.find?_cons]
      rcases List.mem_cons.mp hfield with rfl | hmem
      · rw [hkey]
      · have hother : names first.name key = false := by
          refine Bool.eq_false_iff.mpr fun hnames => hfirst ?_
          have hfold : foldName field.name = foldName first.name := by
            rw [← names_iff.mp hnames, names_iff.mp hkey]
          exact List.mem_map.mpr ⟨field, hmem, hfold⟩
        rw [hother]
        exact ih hrest hmem

/-- Of all the fields, `field` alone determines `proj`, and its value there
does not depend on what was there before. -/
structure Determines {α : Type} (fields : List (StructField σ)) (field : StructField σ)
    (proj : σ → α) (value : Json → Option α) : Prop where
  mem : field ∈ fields
  distinct : Distinct fields
  sets : ∀ s v s', field.decode s v = some s' → value v = some (proj s')
  keeps : ∀ other ∈ fields, other.name ≠ field.name →
    ∀ s v s', other.decode s v = some s' → proj s' = proj s

variable {fields : List (StructField σ)} {field : StructField σ} {proj : σ → α}
  {value : Json → Option α}

theorem Determines.decodeMember (h : Determines fields field proj value) {s s' : σ}
    {member : List ℕ × Json} (hdecode : JsonDecode.decodeMember fields s member = some s') :
    if names field.name member.1 then value member.2 = some (proj s') else proj s' = proj s := by
  rw [JsonDecode.decodeMember] at hdecode
  split_ifs with hnames
  · rw [find?_eq h.distinct h.mem hnames] at hdecode
    exact h.sets s member.2 s' hdecode
  · split at hdecode
    · next other hother =>
        refine h.keeps other (List.mem_of_find?_eq_some hother) (fun hname => hnames ?_) s member.2
          s' hdecode
        rw [← hname]
        exact List.find?_some (p := fun g : StructField σ => names g.name member.1) hother
    · rw [Option.some.inj hdecode]

theorem Determines.decodeMembers (h : Determines fields field proj value)
    {members : List (List ℕ × Json)} {s s' : σ}
    (hdecode : members.foldlM (JsonDecode.decodeMember fields) s = some s') :
    match lastNamed field.name members with
    | some v => value v = some (proj s')
    | none => proj s' = proj s := by
  induction members generalizing s with
  | nil =>
      rw [← Option.some.inj hdecode]
      rfl
  | cons member members ih =>
      rw [List.foldlM_cons] at hdecode
      obtain ⟨s₁, hfirst, hrest⟩ := Option.bind_eq_some_iff.mp hdecode
      have hmember := h.decodeMember hfirst
      have hlast := ih hrest
      rw [lastNamed]
      cases hnamed : lastNamed field.name members with
      | some v =>
          rw [hnamed] at hlast
          exact hlast
      | none =>
          rw [hnamed] at hlast
          rw [Option.none_or]
          split_ifs at hmember ⊢ with hnames
          · rw [← hlast] at hmember
            exact hmember
          · exact hlast.trans hmember

theorem Determines.decodeStruct (h : Determines fields field proj value)
    {members : List (List ℕ × Json)} {s s' : σ}
    (hdecode : JsonDecode.decodeStruct fields s (.obj members) = some s') :
    match lastNamed field.name members with
    | some v => value v = some (proj s')
    | none => proj s' = proj s := h.decodeMembers hdecode

end Composite

end AxiomDaemon.Lib.JsonDecode

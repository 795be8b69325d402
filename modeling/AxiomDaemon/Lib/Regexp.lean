import AxiomDaemon.Lib.Text
import AxiomDaemon.Lib.ReadNumber

/-!
Replacing the matches of a regular expression, after Go's `regexp`. What is
matched is up to an engine, a function that finds the leftmost match of a
subject from a position on; it sees the whole subject, so a match may depend
on what is before that position. Texts are bytes and positions count bytes.

A replacement is a template in which `$1`, `$name`, `${1}` and `${name}` stand
for submatches and `$$` for a dollar sign.
-/

namespace AxiomDaemon.Lib

/-! ### Matches -/

/-- The part of a text between two positions. -/
def slice (s : Bytes) (i j : ℕ) : Bytes := (s.drop i).take (j - i)

/-- A match and its groups, of which some may not have taken part. -/
structure Match where
  start : ℕ
  stop : ℕ
  groups : List (Option (ℕ × ℕ))
  deriving DecidableEq

namespace Match

/-- The match itself is group 0. -/
def group (m : Match) (n : ℕ) : Option (ℕ × ℕ) :=
  if n = 0 then some (m.start, m.stop) else m.groups[n - 1]?.join

/-- The text of a group; empty if it did not take part. -/
def text (m : Match) (s : Bytes) (n : ℕ) : Bytes :=
  match m.group n with
  | some (i, j) => slice s i j
  | none => []

/-- How long the text of a group is. -/
def width (m : Match) (n : ℕ) : ℕ :=
  match m.group n with
  | some (i, j) => j - i
  | none => 0

/-- The same match in a subject with `k` more bytes in front. -/
def advance (m : Match) (k : ℕ) : Match where
  start := m.start + k
  stop := m.stop + k
  groups := m.groups.map (Option.map fun (i, j) => (i + k, j + k))

end Match

/-- The leftmost match of a subject at or after a position. -/
abbrev Engine (Re : Type) := Re → Bytes → ℕ → Option Match

/-- The number of bytes of the first character; a byte that starts none counts as
one. -/
def runeWidth : Bytes → ℕ
  | [] => 0
  | [_] => 1
  | b₀ :: b₁ :: bs =>
      if b₀.toNat < 0x80 then 1
      else if (codePoint2 b₀ b₁).isSome then 2
      else
        match bs with
        | [] => 1
        | b₂ :: bs =>
            if (codePoint3 b₀ b₁ b₂).isSome then 3
            else
              match bs with
              | [] => 1
              | b₃ :: _ => if (codePoint4 b₀ b₁ b₂ b₃).isSome then 4 else 1

/-- What any engine does: a match lies in the subject, as do its groups, and one
that is not empty ends after the character it looked at first. -/
structure EngineOk {Re : Type} (find : Engine Re) : Prop where
  start_le : ∀ {re s pos m}, find re s pos = some m → pos ≤ m.start
  le_stop : ∀ {re s pos m}, find re s pos = some m → m.start ≤ m.stop
  stop_le : ∀ {re s pos m}, find re s pos = some m → m.stop ≤ s.length
  group_le : ∀ {re s pos m i j}, find re s pos = some m → some (i, j) ∈ m.groups →
    i ≤ j ∧ j ≤ s.length
  groups_le : ∀ {re s pos m}, find re s pos = some m → m.groups.length ≤ 65535
  aligned : ∀ {re s pos m}, find re s pos = some m → m.start < m.stop →
    pos + runeWidth (s.drop pos) ≤ m.stop

/-- A match lies in its subject and may be empty. -/
def MatchesWithin {Re : Type} (find : Engine Re) : Prop :=
  ∀ re s m, find re s 0 = some m → m.start ≤ m.stop ∧ m.stop ≤ s.length

/-- The groups of a match lie in its subject. -/
def GroupsWithin {Re : Type} (find : Engine Re) : Prop :=
  ∀ re s m, find re s 0 = some m → ∀ i j, some (i, j) ∈ m.groups → i ≤ j ∧ j ≤ s.length

/-! ### Templates -/

def dollar : UInt8 := 0x24

def lcurly : UInt8 := 0x7b

def rcurly : UInt8 := 0x7d

section Template

-- the width of a letter or digit beyond ASCII at the front, 0 if there is none
variable (letter : Bytes → ℕ)

def isAsciiWord (b : UInt8) : Bool :=
  isDigit b || (0x41 ≤ b.toNat && b.toNat ≤ 0x5a) || (0x61 ≤ b.toNat && b.toNat ≤ 0x7a) ||
    b = 0x5f

/-- The length of the name at the front. -/
def nameLength : (fuel : ℕ) → Bytes → ℕ
  | 0, _ => 0
  | _, [] => 0
  | fuel + 1, b :: bs =>
      let width := if b.toNat < 0x80 then (if isAsciiWord b then 1 else 0) else letter (b :: bs)
      if width = 0 then 0 else width + nameLength fuel ((b :: bs).drop width)

/-- The value of a run of digits. -/
def digitsValue (ds : Bytes) : ℕ := numberOf 10 (ds.map fun b => b.toNat - 0x30)

/-- The number a name is, unless it has leading zeros or is too large: no digit may
follow after 10^8. -/
def nameNumber (name : Bytes) : Option ℕ :=
  if name.all isDigit ∧ ¬(name.head? = some 0x30 ∧ 1 < name.length) ∧
      digitsValue name.dropLast < 10 ^ 8 then
    some (digitsValue name)
  else none

/-- `extract`: the name or number after a dollar sign, and what follows it. -/
def extract (str : Bytes) : Option (Bytes × Bytes) :=
  let brace := str.head? = some lcurly
  let str := if brace then str.drop 1 else str
  let i := nameLength letter str.length str
  if i = 0 then none
  else if brace then
    match str.drop i with
    | [] => none
    | c :: rest => if c = rcurly then some (str.take i, rest) else none
  else some (str.take i, str.drop i)

/-- `expand`. The position of a name in `names` is the number of its group. Every
round takes at least one byte of the template, so its length is enough fuel. -/
def expandLoop (names : List Bytes) (src : Bytes) (m : Match) : (fuel : ℕ) → Bytes → Bytes
  | 0, _ => []
  | _, [] => []
  | fuel + 1, b :: template =>
      if b ≠ dollar then b :: expandLoop names src m fuel template
      else if template.head? = some dollar then
        dollar :: expandLoop names src m fuel (template.drop 1)
      else
        match extract letter template with
        | none => dollar :: expandLoop names src m fuel template
        | some (name, rest) =>
            let sub :=
              match nameNumber name with
              | some num => m.text src num
              | none =>
                  match (names.zipIdx.find? fun (n, i) => n = name && (m.group i).isSome) with
                  | some (_, i) => m.text src i
                  | none => []
            sub ++ expandLoop names src m fuel rest

def expand (names : List Bytes) (template src : Bytes) (m : Match) : Bytes :=
  expandLoop letter names src m template.length template

end Template

/-! ### Replacing all matches -/

/-- The loop of `replaceAll`. The position grows in every round, so two more than
the length of the subject is enough fuel. -/
def replaceAllLoop (search : ℕ → Option Match) (repl : Match → Bytes) (src : Bytes) :
    (fuel : ℕ) → (lastMatchEnd searchPos : ℕ) → Bytes
  | 0, lastMatchEnd, _ => src.drop lastMatchEnd
  | fuel + 1, lastMatchEnd, searchPos =>
      if searchPos ≤ src.length then
        match search searchPos with
        | none => src.drop lastMatchEnd
        | some a =>
            -- an empty match right after another one is not replaced
            let text := if a.stop > lastMatchEnd ∨ a.start = 0 then repl a else []
            let width := runeWidth (src.drop searchPos)
            let next :=
              if searchPos + width > a.stop then searchPos + width
              else if searchPos + 1 > a.stop then searchPos + 1
              else a.stop
            slice src lastMatchEnd a.start ++ text ++
              replaceAllLoop search repl src fuel a.stop next
      else src.drop lastMatchEnd

def replaceAll (search : ℕ → Option Match) (repl : Match → Bytes) (src : Bytes) : Bytes :=
  replaceAllLoop search repl src (src.length + 2) 0 0

/-- `strings.Split(s, "/")`. -/
def splitSlash : Bytes → List Bytes
  | [] => [[]]
  | b :: bs =>
      if b = 0x2f then [] :: splitSlash bs
      else
        match splitSlash bs with
        | [] => [[b]]
        | seg :: segs => (b :: seg) :: segs

/-- `strings.Join(segs, "/")`. -/
def joinSlash : List Bytes → Bytes
  | [] => []
  | [seg] => seg
  | seg :: segs => seg ++ 0x2f :: joinSlash segs

/-! ### Positions -/

theorem runeWidth_le_length (bs : Bytes) : runeWidth bs ≤ bs.length := by
  match bs with
  | [] => exact le_rfl
  | [_] => exact le_rfl
  | [_, _] =>
      simp only [runeWidth, List.length_cons]
      split_ifs <;> simp
  | [_, _, _] =>
      simp only [runeWidth, List.length_cons]
      split_ifs <;> simp
  | _ :: _ :: _ :: _ :: bs =>
      simp only [runeWidth, List.length_cons]
      split_ifs <;> simp

theorem length_slice {s : Bytes} {i j : ℕ} (hj : j ≤ s.length) :
    (slice s i j).length = j - i := by
  rw [slice, List.length_take, List.length_drop]
  omega

theorem slice_drop (s : Bytes) (k i j : ℕ) : slice (s.drop k) i j = slice s (i + k) (j + k) := by
  rw [slice, slice, List.drop_drop, Nat.add_comm k i, Nat.add_sub_add_right]

theorem slice_slice {s : Bytes} {a b i j : ℕ} (hj : j ≤ b - a) :
    slice (slice s a b) i j = slice s (i + a) (j + a) := by
  rw [← slice_drop]
  rw [slice, slice, slice, List.drop_take, List.take_take, Nat.min_eq_left (by omega)]

namespace Match

theorem advance_zero (m : Match) : m.advance 0 = m := by
  have hgroups : m.groups.map (Option.map fun (i, j) => (i + 0, j + 0)) = m.groups := by
    refine (List.map_congr_left fun g _ => ?_).trans (List.map_id m.groups)
    cases g <;> rfl
  rw [advance, hgroups]
  rfl

theorem group_advance (m : Match) (k n : ℕ) :
    (m.advance k).group n = (m.group n).map fun (i, j) => (i + k, j + k) := by
  rw [group, group, advance]
  split_ifs
  · rfl
  · simp only [List.getElem?_map]
    cases m.groups[n - 1]? <;> rfl

theorem text_advance (m : Match) (s : Bytes) (k n : ℕ) :
    (m.advance k).text s n = m.text (s.drop k) n := by
  rw [text, text, group_advance]
  cases m.group n with
  | none => rfl
  | some p => exact (slice_drop s k p.1 p.2).symm

end Match

theorem Match.mem_groups_of_group {m : Match} {n : ℕ} (hn : n ≠ 0) {p : ℕ × ℕ}
    (hg : m.group n = some p) : some p ∈ m.groups := by
  rw [Match.group, if_neg hn] at hg
  cases hget : m.groups[n - 1]? with
  | none => simp [hget] at hg
  | some g =>
      obtain rfl : g = some p := by simpa [hget] using hg
      exact List.mem_of_getElem? hget

/-- In a match that lies in its subject, the texts of the groups are as long as they are wide. -/
theorem Match.length_text {m : Match} {s : Bytes} (hstop : m.stop ≤ s.length)
    (hgroups : ∀ i j, some (i, j) ∈ m.groups → j ≤ s.length) (n : ℕ) :
    (m.text s n).length = m.width n := by
  rw [Match.text, Match.width]
  cases hg : m.group n with
  | none => rfl
  | some p =>
      refine length_slice ?_
      by_cases hn : n = 0
      · rw [Match.group, if_pos hn] at hg
        cases hg
        exact hstop
      · exact hgroups p.1 p.2 (Match.mem_groups_of_group hn hg)

section

variable {Re : Type} {find : Engine Re}

theorem EngineOk.group_stop_le (hfind : EngineOk find) {re : Re} {s : Bytes} {pos n : ℕ} {m : Match}
    (hm : find re s pos = some m) {i j : ℕ} (hg : m.group n = some (i, j)) : j ≤ s.length := by
  by_cases hn : n = 0
  · rw [Match.group, if_pos hn] at hg
    cases hg
    exact hfind.stop_le hm
  · exact (hfind.group_le hm (Match.mem_groups_of_group hn hg)).2

theorem EngineOk.text_slice (hfind : EngineOk find) {re : Re} {s : Bytes} {a b : ℕ} {m : Match}
    (hb : b ≤ s.length) (hm : find re (slice s a b) 0 = some m) (n : ℕ) :
    m.text (slice s a b) n = (m.advance a).text s n := by
  rw [Match.text, Match.text, Match.group_advance]
  cases hg : m.group n with
  | none => rfl
  | some p =>
      have hstop := hfind.group_stop_le hm hg
      rw [length_slice hb] at hstop
      exact slice_slice hstop

/-- If the first match is all of the subject it is the only one that is replaced. -/
theorem replaceAll_whole (hfind : EngineOk find) {re : Re} {x : Bytes} {m : Match}
    (hm : find re x 0 = some m) (hstart : m.start = 0) (hstop : m.stop = x.length)
    (repl : Match → Bytes) : replaceAll (find re x) repl x = repl m := by
  have hwidth := runeWidth_le_length x
  have hslice : ∀ i, slice x i i = [] := fun i => by rw [slice, Nat.sub_self, List.take_zero]
  rw [replaceAll, replaceAllLoop, if_pos (Nat.zero_le _), hm]
  simp only [hstart, hstop, or_true, if_true, hslice, List.drop_zero, List.nil_append,
    Nat.zero_add, if_neg (show ¬ runeWidth x > x.length by omega)]
  -- what the loop finds at the end of the subject is empty and is not replaced
  suffices hrest : ∀ pos, (pos = x.length ∧ 0 < x.length ∨ x.length < pos) →
      replaceAllLoop (find re x) repl x (x.length + 1) x.length pos = [] by
    rw [hrest _ (by split_ifs <;> omega), List.append_nil]
  intro pos hpos
  rw [replaceAllLoop]
  rcases hpos with ⟨rfl, hlen⟩ | hlarge
  · rw [if_pos le_rfl]
    cases hend : find re x x.length with
    | none => exact List.drop_length
    | some m' =>
        have h1 := hfind.start_le hend
        have h2 := hfind.le_stop hend
        have h3 := hfind.stop_le hend
        have hstart' : m'.start = x.length := by omega
        have hstop' : m'.stop = x.length := by omega
        simp only [hstart', hstop', hslice, List.nil_append, List.drop_length, runeWidth,
          Nat.add_zero, gt_iff_lt, lt_irrefl, if_false, hlen.ne', or_self, Nat.lt_succ_self, if_true]
        rw [replaceAllLoop.eq_def]
        cases hx : x.length with
        | zero => omega
        | succ n =>
            simp only
            rw [if_neg (by omega)]
            exact List.drop_eq_nil_of_le (by omega)
  · rw [if_neg (by omega)]
    exact List.drop_length

end

theorem splitSlash_ne_nil (bs : Bytes) : splitSlash bs ≠ [] := by
  cases bs with
  | nil => exact List.cons_ne_nil _ _
  | cons b bs =>
      rw [splitSlash]
      split_ifs
      · exact List.cons_ne_nil _ _
      · split <;> exact List.cons_ne_nil _ _

theorem joinSlash_cons {segs : List Bytes} (hne : segs ≠ []) (seg : Bytes) :
    joinSlash (seg :: segs) = seg ++ 0x2f :: joinSlash segs := by
  cases segs with
  | nil => exact absurd rfl hne
  | cons seg' segs => rfl

theorem joinSlash_splitSlash (bs : Bytes) : joinSlash (splitSlash bs) = bs := by
  induction bs with
  | nil => rfl
  | cons b bs ih =>
      rw [splitSlash]
      split_ifs with hslash
      · rw [joinSlash_cons (splitSlash_ne_nil bs), ih, hslash]
        rfl
      · cases hsegs : splitSlash bs with
        | nil => exact absurd hsegs (splitSlash_ne_nil bs)
        | cons seg segs =>
            rw [hsegs] at ih
            cases segs with
            | nil =>
                rw [joinSlash] at ih
                rw [ih]
                rfl
            | cons seg' segs =>
                rw [joinSlash_cons (List.cons_ne_nil _ _)] at ih
                rw [joinSlash_cons (List.cons_ne_nil _ _), List.cons_append, ih]

theorem splitSlash_slash (bs : Bytes) : splitSlash (0x2f :: bs) = [] :: splitSlash bs := by
  rw [splitSlash, if_pos rfl]

theorem splitSlash_cons {b : UInt8} (hb : b ≠ 0x2f) (bs : Bytes) :
    ∃ seg segs, splitSlash bs = seg :: segs ∧ splitSlash (b :: bs) = (b :: seg) :: segs := by
  obtain ⟨seg, segs, hsegs⟩ := List.exists_cons_of_ne_nil (splitSlash_ne_nil bs)
  refine ⟨seg, segs, hsegs, ?_⟩
  rw [splitSlash, if_neg hb, hsegs]

theorem splitSlash_append (p q : Bytes) :
    splitSlash (p ++ 0x2f :: q) = splitSlash p ++ splitSlash q := by
  induction p with
  | nil => exact splitSlash_slash q
  | cons b p ih =>
      rw [List.cons_append]
      by_cases hb : b = 0x2f
      · rw [hb, splitSlash_slash, splitSlash_slash, ih, List.cons_append]
      · obtain ⟨seg, segs, hsegs, hcons⟩ := splitSlash_cons hb (p ++ 0x2f :: q)
        obtain ⟨seg', segs', hsegs', hcons'⟩ := splitSlash_cons hb p
        rw [hsegs, hsegs', List.cons_append, List.cons_eq_cons] at ih
        rw [hcons, hcons', List.cons_append, ih.1, ih.2]

theorem slash_notMem_splitSlash {seg bs : Bytes} (h : seg ∈ splitSlash bs) : 0x2f ∉ seg := by
  induction bs generalizing seg with
  | nil =>
      obtain rfl := List.mem_singleton.mp h
      exact List.not_mem_nil
  | cons b bs ih =>
      by_cases hb : b = 0x2f
      · rw [hb, splitSlash_slash] at h
        rcases List.mem_cons.mp h with rfl | hmem
        · exact List.not_mem_nil
        · exact ih hmem
      · obtain ⟨seg', segs, hsegs, hcons⟩ := splitSlash_cons hb bs
        rw [hcons] at h
        rcases List.mem_cons.mp h with rfl | hmem
        · rw [List.mem_cons, not_or]
          exact ⟨Ne.symm hb, ih (hsegs ▸ List.mem_cons_self)⟩
        · exact ih (hsegs ▸ List.mem_cons_of_mem _ hmem)

theorem mem_of_mem_splitSlash {seg bs : Bytes} (h : seg ∈ splitSlash bs) {b : UInt8} (hb : b ∈ seg) :
    b ∈ bs := by
  induction bs generalizing seg with
  | nil =>
      obtain rfl := List.mem_singleton.mp h
      exact hb
  | cons c bs ih =>
      by_cases hc : c = 0x2f
      · rw [hc, splitSlash_slash] at h
        rcases List.mem_cons.mp h with rfl | hmem
        · cases hb
        · exact List.mem_cons_of_mem _ (ih hmem hb)
      · obtain ⟨seg', segs, hsegs, hcons⟩ := splitSlash_cons hc bs
        rw [hcons] at h
        rcases List.mem_cons.mp h with rfl | hmem
        · rcases List.mem_cons.mp hb with rfl | hb
          · exact List.mem_cons_self
          · exact List.mem_cons_of_mem _ (ih (hsegs ▸ List.mem_cons_self) hb)
        · exact List.mem_cons_of_mem _ (ih (hsegs ▸ List.mem_cons_of_mem _ hmem) hb)

theorem splitSlash_of_notMem {seg : Bytes} (h : 0x2f ∉ seg) : splitSlash seg = [seg] := by
  induction seg with
  | nil => rfl
  | cons b seg ih =>
      obtain ⟨hb, hseg⟩ := not_or.mp (mt List.mem_cons.mpr h)
      rw [splitSlash, if_neg (Ne.symm hb), ih hseg]

theorem splitSlash_joinSlash {segs : List Bytes} (hne : segs ≠ []) (h : ∀ seg ∈ segs, 0x2f ∉ seg) :
    splitSlash (joinSlash segs) = segs := by
  induction segs with
  | nil => exact absurd rfl hne
  | cons seg segs ih =>
      obtain ⟨hseg, hsegs⟩ := List.forall_mem_cons.mp h
      cases segs with
      | nil => exact splitSlash_of_notMem hseg
      | cons seg' segs =>
          have hcons : (seg' :: segs) ≠ [] := List.cons_ne_nil _ _
          rw [joinSlash_cons hcons, splitSlash_append, splitSlash_of_notMem hseg, ih hcons hsegs]
          rfl

theorem length_splitSlash (bs : Bytes) : (splitSlash bs).length = bs.count 0x2f + 1 := by
  induction bs with
  | nil => rfl
  | cons b bs ih =>
      by_cases hb : b = 0x2f
      · rw [hb, splitSlash_slash, List.length_cons, ih, List.count_cons_self]
      · obtain ⟨seg, segs, hsegs, hcons⟩ := splitSlash_cons hb bs
        rw [hsegs, List.length_cons] at ih
        rw [hcons, List.length_cons, ih, List.count_cons_of_ne hb]

theorem joinSlash_cons_flatMap (seg : Bytes) (segs : List Bytes) :
    joinSlash (seg :: segs) = seg ++ segs.flatMap fun seg => 0x2f :: seg := by
  induction segs generalizing seg with
  | nil => rw [joinSlash, List.flatMap_nil, List.append_nil]
  | cons seg' segs ih =>
      rw [joinSlash_cons (List.cons_ne_nil _ _), ih, List.flatMap_cons]
      rfl

theorem joinSlash_nil_cons (segs : List Bytes) :
    joinSlash ([] :: segs) = segs.flatMap fun seg => 0x2f :: seg :=
  joinSlash_cons_flatMap [] segs

end AxiomDaemon.Lib

import AxiomDaemon.Lib.Regexp
import AxiomDaemon.Util.Reply
import Mathlib.Data.List.DropRight

/-!
What is used of `util_strings.c` for the names of transactions: comparing the
start of two strings, and splitting a string at delimiters, where white space
around the parts is dropped. Lengths are taken to be numbers without bound.
-/

namespace AxiomDaemon.Util

open AxiomDaemon.Lib

/-- `nr_strnicmp` is zero. -/
def nrStrnicmpEq (s1 s2 : Bytes) (n : ℕ) : Bool :=
  (s1.take n).map lowerByte = (s2.take n).map lowerByte

/-- `nr_str_char_count`. -/
def nrStrCharCount (s : Bytes) (c : UInt8) : ℕ := s.count c

/-! ### Splitting -/

/-- The parts of a string between delimiters. -/
def splitAny (delim : Bytes) : Bytes → List Bytes
  | [] => [[]]
  | b :: bs =>
      if b ∈ delim then [] :: splitAny delim bs
      else
        match splitAny delim bs with
        | [] => [[b]]
        | seg :: segs => (b :: seg) :: segs

/-- The two loops that skip white space, the trailing first. -/
def trimSpace (s : Bytes) : Bytes := (s.rdropWhile isSpace).dropWhile isSpace

/-- `nr_strsplit`, for strings that are not `NULL`. -/
def nrStrsplit (orig delim : Bytes) (useEmpty : Bool) : List Bytes :=
  if orig = [] then [[]]
  else if delim = [] then [orig]
  else ((splitAny delim orig).map trimSpace).filter fun s => useEmpty || s ≠ []

theorem splitAny_slash (bs : Bytes) : splitAny [0x2f] bs = splitSlash bs := by
  induction bs with
  | nil => rfl
  | cons b bs ih =>
      rw [splitAny, splitSlash, ih]
      exact if_congr List.mem_singleton rfl rfl

theorem trimSpace_eq_self {s : Bytes} (hhead : ∀ b ∈ s.head?, isSpace b = false)
    (hlast : ∀ b ∈ s.getLast?, isSpace b = false) : trimSpace s = s := by
  have hright : s.rdropWhile isSpace = s := by
    rw [List.rdropWhile_eq_self_iff]
    intro hne
    rw [hlast _ (List.getLast?_eq_some_getLast hne)]
    exact Bool.false_ne_true
  rw [trimSpace, hright, List.dropWhile_eq_self_iff]
  intro hlen
  rw [hhead _ (by rw [List.head?_eq_getElem?]; exact List.getElem?_eq_getElem hlen)]
  exact Bool.false_ne_true

theorem trimSpace_trimSpace (s : Bytes) : trimSpace (trimSpace s) = trimSpace s := by
  refine trimSpace_eq_self (fun b hb => ?_) fun b hb => ?_
  · exact Bool.eq_false_iff.mpr fun hspace => by
      have h := List.head?_dropWhile_not isSpace (s.rdropWhile isSpace)
      rw [← trimSpace, hb] at h
      simp [hspace] at h
  · have hne : trimSpace s ≠ [] := by
      rintro heq
      rw [heq] at hb
      cases hb
    obtain ⟨front, hfront⟩ : trimSpace s <:+ s.rdropWhile isSpace := List.dropWhile_suffix isSpace
    have hb' : b ∈ (s.rdropWhile isSpace).getLast? := by
      rw [← hfront, List.getLast?_append_of_ne_nil _ hne]
      exact hb
    have hne' : s.rdropWhile isSpace ≠ [] := by
      rintro heq
      rw [heq] at hb'
      cases hb'
    rw [List.getLast?_eq_some_getLast hne'] at hb'
    obtain rfl := Option.some.inj hb'
    exact Bool.eq_false_iff.mpr (List.rdropWhile_last_not isSpace s hne')

theorem trimSpace_sublist (s : Bytes) : (trimSpace s).Sublist s :=
  (List.dropWhile_suffix _).sublist.trans (List.rdropWhile_prefix _ _).sublist

section Slash

variable {orig : Bytes}

theorem nrStrsplit_slash (orig : Bytes) :
    nrStrsplit orig [0x2f] true = (splitSlash orig).map trimSpace := by
  rw [nrStrsplit]
  by_cases horig : orig = []
  · subst horig
    rfl
  · rw [if_neg horig, if_neg (List.cons_ne_nil _ _), splitAny_slash, List.filter_eq_self]
    exact fun _ _ => rfl

theorem of_mem_nrStrsplit {seg : Bytes} (h : seg ∈ nrStrsplit orig [0x2f] true) :
    trimSpace seg = seg ∧ 0x2f ∉ seg := by
  rw [nrStrsplit_slash] at h
  obtain ⟨part, hpart, rfl⟩ := List.mem_map.mp h
  exact ⟨trimSpace_trimSpace part, fun hmem =>
    slash_notMem_splitSlash hpart ((trimSpace_sublist part).subset hmem)⟩

theorem nrStrsplit_joinSlash {segs : List Bytes} (hne : segs ≠ [])
    (h : ∀ seg ∈ segs, trimSpace seg = seg ∧ 0x2f ∉ seg) :
    nrStrsplit (joinSlash segs) [0x2f] true = segs := by
  rw [nrStrsplit_slash, splitSlash_joinSlash hne fun seg hseg => (h seg hseg).2]
  exact (List.map_congr_left fun seg hseg => (h seg hseg).1).trans (List.map_id' segs)

end Slash

end AxiomDaemon.Util

import AxiomDaemon.Lib.Text
import Mathlib.Data.List.Infix
import Mathlib.Data.List.TakeWhile

/-!
Strings of C, read byte by byte. A pointer into a string is what can be read
from it on: the rest of the text and the zero that ends it. A pointer that has
moved past the zero points to nothing, and reading through it is a fault. The
functions of the C library are here as far as they read their argument.
-/

namespace AxiomDaemon.Lib

/-- How a function on C strings goes wrong: it reads or writes where there is
nothing, or computes a length that `int` does not hold. A model whose recursion
is bounded by an argument may also come to an end of that. -/
inductive Fault
  | read
  | write
  | range
  | deep
  deriving DecidableEq

abbrev Checked := Except Fault

namespace CText

@[simp] theorem ok_bind {α β : Type} (a : α) (f : α → Checked β) :
    (Except.ok a : Checked α) >>= f = f a := rfl

@[simp] theorem error_bind {α β : Type} (e : Fault) (f : α → Checked β) :
    (Except.error e : Checked α) >>= f = .error e := rfl

@[simp] theorem map_ok {α β : Type} (f : α → β) (a : α) :
    f <$> (Except.ok a : Checked α) = .ok (f a) := rfl

@[simp] theorem map_error {α β : Type} (f : α → β) (e : Fault) :
    f <$> (Except.error e : Checked α) = .error e := rfl

theorem bind_eq_ok {α β : Type} {x : Checked α} {f : α → Checked β} {b : β} :
    x >>= f = .ok b ↔ ∃ a, x = .ok a ∧ f a = .ok b := by
  cases x with
  | ok a => exact ⟨fun h => ⟨a, rfl, h⟩, fun ⟨a', ha, h⟩ => Except.ok.inj ha ▸ h⟩
  | error e => exact ⟨nofun, nofun⟩

/-- A computation gives what `post` says, or goes wrong in a way that `fault` allows. -/
def Yields {α : Type} (fault : Fault → Prop) (post : α → Prop) : Checked α → Prop
  | .ok a => post a
  | .error e => fault e

section Yields

variable {α β : Type} {fault : Fault → Prop}

theorem Yields.ok {post : α → Prop} {a : α} (h : post a) : Yields fault post (.ok a) := h

theorem Yields.bind {mid : α → Prop} {post : β → Prop} {x : Checked α} {f : α → Checked β}
    (hx : Yields fault mid x) (hf : ∀ a, mid a → Yields fault post (f a)) :
    Yields fault post (x >>= f) := by
  cases x with
  | ok a => exact hf a hx
  | error e => exact hx

theorem Yields.map {mid : α → Prop} {post : β → Prop} {x : Checked α} {f : α → β}
    (hx : Yields fault mid x) (hf : ∀ a, mid a → post (f a)) : Yields fault post (f <$> x) := by
  cases x with
  | ok a => exact hf a hx
  | error e => exact hx

theorem Yields.mono {post post' : α → Prop} {x : Checked α} (hx : Yields fault post x)
    (h : ∀ a, post a → post' a) : Yields fault post' x := by
  cases x with
  | ok a => exact h a hx
  | error e => exact hx

theorem Yields.imp {fault' : Fault → Prop} {post post' : α → Prop} {x : Checked α}
    (hx : Yields fault post x) (hfault : ∀ e, fault e → fault' e) (hpost : ∀ a, post a → post' a) :
    Yields fault' post' x := by
  cases x with
  | ok a => exact hpost a hx
  | error e => exact hfault e hx

end Yields

/-- A computation writes outside of its buffer unless `fits`, and gives what `post` says if
so. -/
structure WritesIf {α : Type} (fits : Prop) (post : α → Prop) (x : Checked α) : Prop where
  ok : fits → ∃ a, x = .ok a ∧ post a
  fault : ¬ fits → x = .error .write

section WritesIf

variable {α β : Type} {fits fits' : Prop}

theorem WritesIf.pure {post : α → Prop} {a : α} (hfits : fits) (h : post a) :
    WritesIf fits post (.ok a) :=
  ⟨fun _ => ⟨a, rfl, h⟩, fun hnot => absurd hfits hnot⟩

theorem WritesIf.bind {mid : α → Prop} {post : β → Prop} {x : Checked α} {f : α → Checked β}
    (hx : WritesIf fits mid x) (himp : fits' → fits)
    (hf : fits → ∀ a, mid a → WritesIf fits' post (f a)) : WritesIf fits' post (x >>= f) := by
  by_cases hfits : fits
  · obtain ⟨a, rfl, ha⟩ := hx.ok hfits
    exact hf hfits a ha
  · rw [hx.fault hfits]
    exact ⟨fun hfits' => absurd (himp hfits') hfits, fun _ => rfl⟩

theorem WritesIf.map {mid : α → Prop} {post : β → Prop} {x : Checked α} {f : α → β}
    (hx : WritesIf fits mid x) (hf : ∀ a, mid a → post (f a)) : WritesIf fits post (f <$> x) := by
  constructor
  · intro hfits
    obtain ⟨a, rfl, ha⟩ := hx.ok hfits
    exact ⟨f a, rfl, hf a ha⟩
  · intro hnot
    rw [hx.fault hnot]
    rfl

theorem WritesIf.congr {post post' : α → Prop} {x : Checked α} (hx : WritesIf fits post x)
    (hiff : fits' ↔ fits) (hpost : ∀ a, post a → post' a) : WritesIf fits' post' x := by
  constructor
  · intro hfits
    obtain ⟨a, ha, h⟩ := hx.ok (hiff.mp hfits)
    exact ⟨a, ha, hpost a h⟩
  · exact fun hnot => hx.fault (mt hiff.mpr hnot)

theorem WritesIf.of_ok {post : α → Prop} {x : Checked α} (hx : WritesIf fits post x) {a : α}
    (h : x = .ok a) : post a := by
  by_cases hfits : fits
  · obtain ⟨a', ha', hpost⟩ := hx.ok hfits
    exact Except.ok.inj (ha'.symm.trans h) ▸ hpost
  · exact nomatch (hx.fault hfits).symm.trans h

theorem WritesIf.foldlM {σ : Type} {step : σ → α → Checked σ} {next : σ → α → σ} {fits : σ → Prop}
    (hstep : ∀ s a, fits s → WritesIf (fits (next s a)) (· = next s a) (step s a)) {s : σ}
    (hs : fits s) (as : List α) :
    WritesIf (∀ done, done <+: as → fits (done.foldl next s)) (· = as.foldl next s)
      (as.foldlM step s) := by
  induction as generalizing s with
  | nil => exact .pure (fun done hdone => by rwa [List.prefix_nil.mp hdone]) rfl
  | cons a as ih =>
      rw [List.foldlM_cons]
      refine (hstep s a hs).bind (fun h => h [a] (by simp)) fun hfits s' hs' => ?_
      obtain rfl : s' = next s a := hs'
      refine (ih hfits).congr ?_ fun _ h => h
      constructor
      · intro h done hdone
        exact h (a :: done) (List.cons_prefix_cons.mpr ⟨rfl, hdone⟩)
      · intro h done hdone
        cases done with
        | nil => exact hs
        | cons b done =>
            obtain ⟨rfl, hrest⟩ := List.cons_prefix_cons.mp hdone
            exact h done hrest

theorem WritesIf.yields_iff {post : α → Prop} {x : Checked α} (hx : WritesIf fits post x) :
    Yields (· ≠ .write) post x ↔ fits := by
  constructor
  · intro h
    by_contra hnot
    rw [hx.fault hnot] at h
    exact h rfl
  · intro hfits
    obtain ⟨a, rfl, ha⟩ := hx.ok hfits
    exact ha

end WritesIf

/-- The pointer to a text that a zero ends. -/
def terminated (text : Bytes) : Bytes := text ++ [0]

@[simp] theorem terminated_nil : terminated [] = [0] := rfl

@[simp] theorem terminated_cons (b : UInt8) (text : Bytes) :
    terminated (b :: text) = b :: terminated text := rfl

theorem terminated_append (s t : Bytes) : terminated (s ++ t) = s ++ terminated t :=
  List.append_assoc s t [0]

theorem terminated_inj {s t : Bytes} : terminated s = terminated t ↔ s = t :=
  List.append_left_inj [0]

theorem drop_terminated {n : ℕ} {text : Bytes} (h : n ≤ text.length) :
    (terminated text).drop n = terminated (text.drop n) :=
  List.drop_append_of_le_length h

/-! ### Reading -/

/-- `*p`. -/
def load : Bytes → Checked UInt8
  | [] => .error .read
  | b :: _ => .ok b

@[simp] theorem load_cons (b : UInt8) (p : Bytes) : load (b :: p) = .ok b := rfl

theorem load_terminated (text : Bytes) : load (terminated text) = .ok (text.head?.getD 0) := by
  cases text with
  | nil => rfl
  | cons b text => rfl

/-- `strchr`. -/
def strchr (c : UInt8) : Bytes → Checked (Option Bytes)
  | [] => .error .read
  | b :: p => if b = c then .ok (some (b :: p)) else if b = 0 then .ok none else strchr c p

/-- Whether the bytes of `needle` are read one after the other. -/
def startsWith : Bytes → Bytes → Checked Bool
  | [], _ => .ok true
  | _ :: _, [] => .error .read
  | c :: needle, b :: p => if b = c then startsWith needle p else .ok false

/-- `strstr`. -/
def strstr (needle : Bytes) : Bytes → Checked (Option Bytes)
  | [] => .error .read
  | b :: p => do
      if ← startsWith needle (b :: p) then return some (b :: p)
      else if b = 0 then return none
      else strstr needle p

/-- `strspn`. -/
def strspn (accept : Bytes) : Bytes → Checked ℕ
  | [] => .error .read
  | b :: p => if b ∈ accept then (· + 1) <$> strspn accept p else .ok 0

/-- `strcspn`. -/
def strcspn (reject : Bytes) : Bytes → Checked ℕ
  | [] => .error .read
  | b :: p => if b = 0 ∨ b ∈ reject then .ok 0 else (· + 1) <$> strcspn reject p

/-- `strlen`. -/
def strlen : Bytes → Checked ℕ
  | [] => .error .read
  | b :: p => if b = 0 then .ok 0 else (· + 1) <$> strlen p

/-- The text of a string, for what reads as much of it as it needs. -/
def readText : Bytes → Checked Bytes
  | [] => .error .read
  | b :: p => if b = 0 then .ok [] else (b :: ·) <$> readText p

/-- A length that is stored as an `int`. -/
def toInt (n : ℕ) : Checked ℕ := if n < 2 ^ 31 then .ok n else .error .range

theorem strchr_terminated {c : UInt8} {body : Bytes} (hbody : c ∉ body) (hzero : 0 ∉ body)
    (r : Bytes) :
    strchr c (terminated (body ++ c :: r)) = .ok (some (c :: terminated r)) := by
  induction body with
  | nil => exact if_pos rfl
  | cons b body ih =>
      obtain ⟨hbc, hbody⟩ := not_or.mp (mt List.mem_cons.mpr hbody)
      obtain ⟨hb, hzero⟩ := not_or.mp (mt List.mem_cons.mpr hzero)
      rw [List.cons_append, terminated_cons, strchr, if_neg (Ne.symm hbc), if_neg (Ne.symm hb)]
      exact ih hbody hzero

theorem strchr_terminated_of_notMem {c : UInt8} (hc : c ≠ 0) {body : Bytes} (hbody : c ∉ body)
    (hzero : 0 ∉ body) : strchr c (terminated body) = .ok none := by
  induction body with
  | nil =>
      rw [terminated_nil, strchr, if_neg (Ne.symm hc), if_pos rfl]
  | cons b body ih =>
      obtain ⟨hbc, hbody⟩ := not_or.mp (mt List.mem_cons.mpr hbody)
      obtain ⟨hb, hzero⟩ := not_or.mp (mt List.mem_cons.mpr hzero)
      rw [terminated_cons, strchr, if_neg (Ne.symm hbc), if_neg (Ne.symm hb)]
      exact ih hbody hzero

theorem exists_strchr {p : Bytes} (h : 0 ∈ p) (c : UInt8) : ∃ found, strchr c p = .ok found := by
  induction p with
  | nil => cases h
  | cons b p ih =>
      rw [strchr]
      split_ifs with hc hz
      · exact ⟨_, rfl⟩
      · exact ⟨_, rfl⟩
      · exact ih ((List.mem_cons.mp h).resolve_left (Ne.symm hz))

/-- What `strchr` finds is a part of the string, and more than nothing. -/
theorem strchr_eq_some {c : UInt8} {p r : Bytes} (h : strchr c p = .ok (some r)) :
    r <:+ p ∧ r ≠ [] := by
  induction p with
  | nil => cases h
  | cons b p ih =>
      rw [strchr] at h
      split_ifs at h with hc hz
      · obtain rfl : b :: p = r := Option.some.inj (Except.ok.inj h)
        exact ⟨List.suffix_rfl, List.cons_ne_nil b p⟩
      · cases h
      · exact ⟨(ih h).1.trans (List.suffix_cons b p), (ih h).2⟩

theorem startsWith_terminated {needle : Bytes} (hneedle : 0 ∉ needle) (text : Bytes) :
    startsWith needle (terminated text) = .ok (decide (needle <+: text)) := by
  induction needle generalizing text with
  | nil => rw [startsWith, decide_eq_true List.nil_prefix]
  | cons c needle ih =>
      obtain ⟨hc, hneedle⟩ := not_or.mp (mt List.mem_cons.mpr hneedle)
      cases text with
      | nil =>
          rw [terminated_nil, startsWith, if_neg hc,
            decide_eq_false fun h => by cases List.prefix_nil.mp h]
      | cons b text =>
          rw [terminated_cons, startsWith]
          split_ifs with hbc
          · rw [ih hneedle, hbc]
            simp only [List.cons_prefix_cons, true_and]
          · rw [decide_eq_false fun h => hbc (List.cons_prefix_cons.mp h).1.symm]

theorem length_tail_lt_of_strchr {c : UInt8} {p r : Bytes} (h : strchr c p = .ok (some r)) :
    r.tail.length < p.length := by
  obtain ⟨hsuffix, hne⟩ := strchr_eq_some h
  have hlen := hsuffix.length_le
  have hpos := List.length_pos_of_ne_nil hne
  rw [List.length_tail]
  omega

/-- The text from where `needle` first stands in it. -/
def findText (needle : Bytes) : Bytes → Option Bytes
  | [] => if needle <+: [] then some [] else none
  | b :: text => if needle <+: b :: text then some (b :: text) else findText needle text

theorem findText_eq_none {needle text : Bytes} :
    findText needle text = none ↔ ¬ needle <:+: text := by
  induction text with
  | nil =>
      simp only [findText, List.prefix_nil, List.infix_nil]
      split_ifs with h
      · exact ⟨nofun, fun hne => absurd h hne⟩
      · exact ⟨fun _ => h, fun _ => rfl⟩
  | cons b text ih =>
      rw [findText, List.infix_cons_iff, not_or]
      split_ifs with h
      · exact ⟨nofun, fun hne => absurd h hne.1⟩
      · exact ⟨fun hnone => ⟨h, ih.mp hnone⟩, fun hne => ih.mpr hne.2⟩

/-- Behind a text in which `needle` is not complete, it is found where it is put. -/
theorem findText_append {needle body : Bytes} (h : ¬ needle <:+: body ++ needle.dropLast)
    (r : Bytes) : findText needle (body ++ (needle ++ r)) = some (needle ++ r) := by
  have hfirst : findText needle (needle ++ r) = some (needle ++ r) := by
    cases hr : needle ++ r with
    | nil =>
        obtain ⟨rfl, rfl⟩ := List.append_eq_nil_iff.mp hr
        rfl
    | cons b t =>
        rw [findText, ← hr, if_pos (List.prefix_append needle r)]
  induction body with
  | nil => exact hfirst
  | cons b body ih =>
      have hrest : ¬ needle <:+: body ++ needle.dropLast := fun hi =>
        h (hi.trans (List.suffix_cons b _).isInfix)
      have hstart : ¬ needle <+: b :: (body ++ (needle ++ r)) := fun hp => by
        have hlong : b :: (body ++ needle.dropLast) <+: b :: (body ++ (needle ++ r)) :=
          List.cons_prefix_cons.mpr ⟨rfl, (List.prefix_append_right_inj body).mpr
            ((List.dropLast_prefix needle).trans (List.prefix_append needle r))⟩
        have hle : needle.length ≤ (b :: (body ++ needle.dropLast)).length := by
          simp only [List.length_cons, List.length_append, List.length_dropLast]
          omega
        exact h (List.prefix_of_prefix_length_le hp hlong hle).isInfix
      rw [List.cons_append, findText, if_neg hstart]
      exact ih hrest

theorem findText_eq_some {needle text r : Bytes} (hneedle : needle ≠ [])
    (h : findText needle text = some r) :
    ∃ body t, text = body ++ (needle ++ t) ∧ r = needle ++ t ∧
      ¬ needle <:+: body ++ needle.dropLast := by
  induction text with
  | nil =>
      rw [findText, if_neg (mt List.prefix_nil.mp hneedle)] at h
      cases h
  | cons b text ih =>
      rw [findText] at h
      split_ifs at h with hstart
      · obtain rfl := Option.some.inj h
        obtain ⟨t, ht⟩ := hstart
        refine ⟨[], t, ht.symm, ht.symm, fun hi => ?_⟩
        have hlen := hi.length_le
        have hpos := List.length_pos_of_ne_nil hneedle
        rw [List.nil_append, List.length_dropLast] at hlen
        omega
      · obtain ⟨body, t, rfl, rfl, hbody⟩ := ih h
        refine ⟨b :: body, t, rfl, rfl, fun hi => ?_⟩
        rw [List.cons_append] at hi
        rcases List.infix_cons_iff.mp hi with hp | hi
        · refine hstart (hp.trans (List.cons_prefix_cons.mpr ⟨rfl, ?_⟩))
          exact (List.prefix_append_right_inj body).mpr
            ((List.dropLast_prefix needle).trans (List.prefix_append needle t))
        · exact hbody hi

theorem strstr_terminated {needle : Bytes} (hneedle : 0 ∉ needle) {text : Bytes} (h : 0 ∉ text) :
    strstr needle (terminated text) = .ok ((findText needle text).map terminated) := by
  have hstarts := startsWith_terminated hneedle
  induction text with
  | nil =>
      have hnil := hstarts []
      rw [terminated_nil] at hnil
      simp only [terminated_nil, strstr, hnil, ok_bind, if_pos, decide_eq_true_eq, findText]
      split_ifs with hprefix
      · rfl
      · rfl
  | cons b text ih =>
      have hcons := hstarts (b :: text)
      obtain ⟨hb, htext⟩ := not_or.mp (mt List.mem_cons.mpr h)
      rw [terminated_cons] at hcons
      simp only [terminated_cons, strstr, hcons, ok_bind, decide_eq_true_eq, findText]
      split_ifs with hprefix hz
      · rfl
      · exact absurd hz (Ne.symm hb)
      · exact ih htext

theorem strstr_eq_some {needle p r : Bytes} (h : strstr needle p = .ok (some r)) :
    r <:+ p ∧ r ≠ [] := by
  induction p with
  | nil => cases h
  | cons b p ih =>
      rw [strstr] at h
      cases hstarts : startsWith needle (b :: p) with
      | error e =>
          rw [hstarts] at h
          cases h
      | ok found =>
          rw [hstarts, ok_bind] at h
          split_ifs at h with hfound hz
          · obtain rfl : b :: p = r := Option.some.inj (Except.ok.inj h)
            exact ⟨List.suffix_rfl, List.cons_ne_nil b p⟩
          · cases h
          · exact ⟨(ih h).1.trans (List.suffix_cons b p), (ih h).2⟩

theorem length_drop_lt_of_strstr {needle p r : Bytes} (h : strstr needle p = .ok (some r))
    {n : ℕ} (hn : 0 < n) : (r.drop n).length < p.length := by
  obtain ⟨hsuffix, hne⟩ := strstr_eq_some h
  have hlen := hsuffix.length_le
  have hpos := List.length_pos_of_ne_nil hne
  rw [List.length_drop]
  omega

theorem strspn_terminated {accept : Bytes} (haccept : 0 ∉ accept) (text : Bytes) :
    strspn accept (terminated text) = .ok (text.takeWhile (· ∈ accept)).length := by
  induction text with
  | nil => exact if_neg haccept
  | cons b text ih =>
      rw [terminated_cons, strspn]
      by_cases hb : b ∈ accept
      · rw [if_pos hb, ih, List.takeWhile_cons_of_pos (by simpa using hb)]
        rfl
      · rw [if_neg hb, List.takeWhile_cons_of_neg (by simpa using hb)]
        rfl

theorem strlen_terminated {text : Bytes} (h : 0 ∉ text) :
    strlen (terminated text) = .ok text.length := by
  induction text with
  | nil => rfl
  | cons b text ih =>
      obtain ⟨hz, htext⟩ := not_or.mp (mt List.mem_cons.mpr h)
      rw [terminated_cons, strlen, if_neg (Ne.symm hz), ih htext]
      rfl

theorem readText_terminated {text : Bytes} (h : 0 ∉ text) :
    readText (terminated text) = .ok text := by
  induction text with
  | nil => rfl
  | cons b text ih =>
      obtain ⟨hz, htext⟩ := not_or.mp (mt List.mem_cons.mpr h)
      rw [terminated_cons, readText, if_neg (Ne.symm hz), ih htext]
      rfl

/-- Behind what `strspn` counts there is something else. -/
theorem strspn_eq_ok {accept p : Bytes} {n : ℕ} (h : strspn accept p = .ok n) :
    ∀ b ∈ (p.drop n).head?, b ∉ accept := by
  induction p generalizing n with
  | nil => cases h
  | cons b p ih =>
      rw [strspn] at h
      split_ifs at h with hb
      · cases hrest : strspn accept p with
        | error e =>
            rw [hrest] at h
            cases h
        | ok m =>
            rw [hrest] at h
            obtain rfl : m + 1 = n := Except.ok.inj h
            exact ih hrest
      · obtain rfl : 0 = n := Except.ok.inj h
        intro c hc
        obtain rfl : b = c := Option.some.inj hc
        exact hb

theorem one_le_of_strcspn {c : UInt8} {p reject : Bytes} (hzero : c ≠ 0) (hc : c ∉ reject) {n : ℕ}
    (h : strcspn reject (c :: p) = .ok n) : 1 ≤ n := by
  rw [strcspn, if_neg (not_or.mpr ⟨hzero, hc⟩)] at h
  cases hrest : strcspn reject p with
  | error e =>
      rw [hrest] at h
      cases h
  | ok m =>
      rw [hrest] at h
      obtain rfl : m + 1 = n := Except.ok.inj h
      exact Nat.succ_pos m

theorem toInt_eq_ok {n m : ℕ} (h : toInt n = .ok m) : n = m := by
  rw [toInt] at h
  split_ifs at h
  exact Except.ok.inj h

theorem toInt_of_lt {n : ℕ} (h : n < 2 ^ 31) : toInt n = .ok n := if_pos h

theorem strcspn_terminated {reject text : Bytes} (h : 0 ∉ text) :
    strcspn reject (terminated text) = .ok (text.takeWhile (· ∉ reject)).length := by
  induction text with
  | nil => exact if_pos (.inl rfl)
  | cons b text ih =>
      obtain ⟨hz, htext⟩ := not_or.mp (mt List.mem_cons.mpr h)
      rw [terminated_cons, strcspn]
      by_cases hb : b ∈ reject
      · rw [if_pos (.inr hb), List.takeWhile_cons_of_neg (by simpa using hb)]
        rfl
      · rw [if_neg (not_or.mpr ⟨Ne.symm hz, hb⟩), ih htext,
          List.takeWhile_cons_of_pos (by simpa using hb)]
        rfl

/-! ### Writing -/

/-- Bytes that are written behind the ones that are in a buffer already. -/
def store (capacity : ℕ) (out bytes : Bytes) : Checked Bytes :=
  if out.length + bytes.length ≤ capacity then .ok (out ++ bytes) else .error .write

theorem store_of_le {capacity : ℕ} {out bytes : Bytes} (h : out.length + bytes.length ≤ capacity) :
    store capacity out bytes = .ok (out ++ bytes) := if_pos h

/-- `sprintf` writes a zero behind its text, which what follows is written over. -/
def sprintf (capacity : ℕ) (out bytes : Bytes) : Checked Bytes :=
  if out.length + bytes.length + 1 ≤ capacity then .ok (out ++ bytes) else .error .write

theorem sprintf_writesIf (capacity : ℕ) (out bytes : Bytes) :
    WritesIf (out.length + bytes.length < capacity) (· = out ++ bytes)
      (sprintf capacity out bytes) :=
  ⟨fun hfits => ⟨_, if_pos hfits, rfl⟩, fun hnot => if_neg hnot⟩

end CText

end AxiomDaemon.Lib

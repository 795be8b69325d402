import AxiomDaemon.Util.SqlObfuscate

/-!
What `nr_sql_obfuscate` does with whole texts: when it stays inside the string,
that it writes nothing of a literal or a number, and when it finds nothing more
to do in its own output.
-/

namespace AxiomDaemon.Util

open AxiomDaemon.Lib AxiomDaemon.Lib.Json AxiomDaemon.Lib.CText

/-! ### Staying inside the string -/

theorem Takes.zero_notMem {s out r : Bytes} (h : Takes s out r) (hzero : 0 ∉ s) : 0 ∉ r :=
  fun hz => hzero (h.suffix.subset hz)

/-- The scan of a string is the scan from any place that it comes to. -/
theorem obfuscateLoop_passes {s t : Bytes} (h : Passes s t) (hzero : 0 ∉ s) :
    ∃ out, Memory.obfuscateLoop .normal (terminated s) =
      (out ++ ·) <$> Memory.obfuscateLoop .normal (terminated t) := by
  induction h with
  | refl s =>
      refine ⟨[], ?_⟩
      cases Memory.obfuscateLoop .normal (terminated s) with
      | ok out => rfl
      | error e => rfl
  | @step s out r t h hr ih =>
      obtain ⟨written, hscan⟩ := ih (h.zero_notMem hzero)
      refine ⟨out ++ written, ?_⟩
      rw [Memory.obfuscateLoop_takes h hzero, hscan]
      cases Memory.obfuscateLoop .normal (terminated t) with
      | ok rest => exact congrArg Except.ok (List.append_assoc out written rest).symm
      | error e => rfl

/-- What the source computes where it stays inside the string is what it computes on a text. -/
theorem obfuscateLoop_eq_or_loneEscape (s : Bytes) (hzero : 0 ∉ s) :
    Memory.obfuscateLoop .normal (terminated s) = .ok (obfuscateLoop .normal s) ∨
      LoneEscape s := by
  induction s using token_induction with
  | takes h ih =>
      rcases ih (h.zero_notMem hzero) with hscan | ⟨t, ht, hcut⟩
      · left
        rw [Memory.obfuscateLoop_takes h hzero, hscan, obfuscateLoop_of_takes h]
        rfl
      · exact .inr ⟨t, .step h ht, hcut⟩
  | stops h =>
      left
      rw [Memory.obfuscateLoop_stops h hzero, obfuscateLoop_of_stops h]
  | @cut s h => exact .inr ⟨s, .refl s, h⟩

theorem obfuscateLoop_of_loneEscape {s : Bytes} (hzero : 0 ∉ s) (h : LoneEscape s) :
    Memory.obfuscateLoop .normal (terminated s) = .error .read := by
  obtain ⟨t, ht, hcut⟩ := h
  obtain ⟨out, hscan⟩ := obfuscateLoop_passes ht hzero
  rw [hscan, Memory.obfuscateLoop_cutEscape hcut fun hz => hzero (ht.suffix.subset hz)]
  rfl

theorem obfuscateLoop_eq {s : Bytes} (hzero : 0 ∉ s) (h : ¬ LoneEscape s) :
    Memory.obfuscateLoop .normal (terminated s) = .ok (obfuscateLoop .normal s) :=
  (obfuscateLoop_eq_or_loneEscape s hzero).resolve_right h

/-- `nr_sql_obfuscate` reads nothing behind the end of its argument exactly if no literal of the
argument is cut off behind a backslash. -/
theorem nrSqlObfuscate_inBounds_iff (raw : Bytes) (hzero : 0 ∉ raw) :
    (∃ out, Memory.nrSqlObfuscate (some (terminated raw)) = .ok out) ↔ ¬ LoneEscape raw := by
  constructor
  · rintro ⟨out, hscan⟩ hlone
    rw [Memory.nrSqlObfuscate, obfuscateLoop_of_loneEscape hzero hlone] at hscan
    cases hscan
  · intro hlone
    refine ⟨some (obfuscateLoop .normal raw), ?_⟩
    rw [Memory.nrSqlObfuscate, obfuscateLoop_eq hzero hlone]
    rfl

theorem nrSqlObfuscate_inBounds_iff_quote :
    (∃ out, Memory.nrSqlObfuscate (some (terminated [quote])) = .ok out) ↔ ¬ LoneEscape [quote] :=
  nrSqlObfuscate_inBounds_iff [quote] (by decide)

/-- A quote and a backslash, and nothing else. -/
theorem nrSqlObfuscate_overruns :
    ¬ ∀ raw : Bytes, 0 ∉ raw →
      ∃ out, Memory.nrSqlObfuscate (some (terminated raw)) = .ok out := by
  intro h
  obtain ⟨out, hscan⟩ := h [quote, backslash] (by decide)
  have hcut : CutEscape [quote, backslash] := .mk (.inl rfl) .nil
  rw [Memory.nrSqlObfuscate, Memory.obfuscateLoop_cutEscape hcut (by decide)] at hscan
  cases hscan

/-! ### What is written -/

/-- A byte that says nothing of a literal or a number. -/
def Harmless (b : UInt8) : Prop := isDigit b = false ∧ b ≠ quote ∧ b ≠ apostrophe

theorem harmless_questionMark : Harmless questionMark := ⟨rfl, by decide, by decide⟩

theorem Takes.harmless {s out r : Bytes} (h : Takes s out r) : ∀ b ∈ out, Harmless b := by
  cases h with
  | literal hq hbody hr => exact List.forall_mem_singleton.mpr harmless_questionMark
  | digits hd hdigits hr => exact List.forall_mem_singleton.mpr harmless_questionMark
  | comment hc => exact List.forall_mem_nil _
  | other hquote hapostrophe hdigit hr =>
      exact List.forall_mem_singleton.mpr ⟨hdigit, hquote, hapostrophe⟩

theorem Takes.length_le {s out r : Bytes} (h : Takes s out r) :
    out.length + r.length ≤ s.length := by
  have hlt := h.length_lt
  have hout : out.length ≤ 1 := by
    cases h with
    | literal hq hbody hr => exact le_rfl
    | digits hd hdigits hr => exact le_rfl
    | comment hc => exact Nat.zero_le 1
    | other hquote hapostrophe hdigit hr => exact le_rfl
  omega

theorem harmless_obfuscateLoop (s : Bytes) : ∀ b ∈ obfuscateLoop .normal s, Harmless b := by
  induction s using token_induction with
  | takes h ih =>
      rw [obfuscateLoop_of_takes h]
      exact List.forall_mem_append.mpr ⟨h.harmless, ih⟩
  | stops h =>
      rw [obfuscateLoop_of_stops h]
      cases h with
      | nil => exact List.forall_mem_nil _
      | openLiteral hq hbody => exact List.forall_mem_singleton.mpr harmless_questionMark
      | openComment hc => exact List.forall_mem_nil _
  | cut h =>
      rw [obfuscateLoop_of_cutEscape h]
      exact List.forall_mem_singleton.mpr harmless_questionMark

theorem length_obfuscateLoop_le (s : Bytes) : (obfuscateLoop .normal s).length ≤ s.length := by
  induction s using token_induction with
  | takes h ih =>
      have hle := h.length_le
      rw [obfuscateLoop_of_takes h, List.length_append]
      omega
  | stops h =>
      rw [obfuscateLoop_of_stops h]
      cases h with
      | nil => exact le_rfl
      | openLiteral hq hbody => exact Nat.succ_le_succ (Nat.zero_le _)
      | openComment hc => exact Nat.zero_le _
  | cut h =>
      rw [obfuscateLoop_of_cutEscape h]
      cases h with
      | mk hq hbody => exact Nat.succ_le_succ (Nat.zero_le _)

theorem not_loneEscape {s : Bytes} (hs : ∀ b ∈ s, Harmless b) : ¬ LoneEscape s := by
  rintro ⟨t, ht, ⟨hq, hbody⟩⟩
  obtain ⟨-, hquote, hapostrophe⟩ := hs _ (ht.suffix.subset List.mem_cons_self)
  exact hq.elim hquote hapostrophe

/-- Two texts that differ in what is hidden both end outside of a literal's escape. -/
theorem SameButLiterals.scans {s t : Bytes} (h : SameButLiterals s t) (hs : 0 ∉ s) (ht : 0 ∉ t) :
    ∃ out, Memory.obfuscateLoop .normal (terminated s) = .ok out ∧
      Memory.obfuscateLoop .normal (terminated t) = .ok out := by
  -- one token of each text, for which the same is written
  have htoken : ∀ {s t w r r' : Bytes}, Takes s w r → Takes t w r' → 0 ∉ s → 0 ∉ t →
      (0 ∉ r → 0 ∉ r' → ∃ out, Memory.obfuscateLoop .normal (terminated r) = .ok out ∧
        Memory.obfuscateLoop .normal (terminated r') = .ok out) →
      ∃ out, Memory.obfuscateLoop .normal (terminated s) = .ok out ∧
        Memory.obfuscateLoop .normal (terminated t) = .ok out := by
    intro s t w r r' h h' hs ht ih
    obtain ⟨out, hout, hout'⟩ := ih (h.zero_notMem hs) (h'.zero_notMem ht)
    refine ⟨w ++ out, ?_, ?_⟩
    · rw [Memory.obfuscateLoop_takes h hs, hout]
      rfl
    · rw [Memory.obfuscateLoop_takes h' ht, hout']
      rfl
  induction h with
  | nil => exact ⟨[], Memory.obfuscateLoop_zero .normal, Memory.obfuscateLoop_zero .normal⟩
  | literal hq hc hd hr hr' h ih =>
      exact htoken (.literal hq hc hr) (.literal hq hd hr') hs ht ih
  | digits hc hd hcd hdd hr hr' h ih =>
      exact htoken (.digits hc hcd hr) (.digits hd hdd hr') hs ht ih
  | comment hc hd h ih => exact htoken (.comment hc) (.comment hd) hs ht ih
  | openComment hc hd =>
      exact ⟨[], Memory.obfuscateLoop_openComment hc hs, Memory.obfuscateLoop_openComment hd ht⟩
  | other hquote hapostrophe hdigit hr hr' h ih =>
      exact htoken (.other hquote hapostrophe hdigit hr) (.other hquote hapostrophe hdigit hr')
        hs ht ih

/-- A text whose length and zero an `int` can count has its output in the block. -/
theorem Buffered.nrSqlObfuscate_of_ok {raw out : Bytes} (hzero : 0 ∉ raw)
    (hlen : raw.length < 2 ^ 31 - 1)
    (h : Memory.obfuscateLoop .normal (terminated raw) = .ok out) :
    Buffered.nrSqlObfuscate (some (terminated raw)) = .ok (some out) := by
  have hout : out.length ≤ raw.length := by
    rcases obfuscateLoop_eq_or_loneEscape raw hzero with heq | hlone
    · rw [← Except.ok.inj (heq.symm.trans h)]
      exact length_obfuscateLoop_le raw
    · rw [obfuscateLoop_of_loneEscape hzero hlone] at h
      cases h
  have hsize : CMemory.int (CMemory.nrStrlen raw + 1) = .ok ((raw.length + 1 : ℕ) : ℤ) := by
    rw [CMemory.nrStrlen_of_lt (by omega), ← Nat.cast_succ]
    exact CMemory.int_of_range (by omega) (by omega)
  have hroom : Buffered.nrMalloc (raw.length + 1) = .ok (raw.length + 1) := by
    rw [Buffered.nrMalloc, if_neg (Nat.succ_ne_zero _), if_neg (by omega)]
  have hstore : out.length + [(0 : UInt8)].length ≤ raw.length + 1 := Nat.succ_le_succ hout
  rw [Buffered.nrSqlObfuscate, CMemory.nrStrlenAt_terminated hzero, ok_bind, hsize, ok_bind,
    CMemory.intToSize_of_lt (by omega), hroom, ok_bind, h, ok_bind, store_of_le hstore, ok_bind]

/-- Nothing that a literal or a number says gets out: texts that differ in no more than that are
written alike, and where the scan stays inside a text there is no digit and no quote in what it
writes, which is no longer than the text. The size of the block is one that `int` holds. -/
theorem nrSqlObfuscate_hides :
    (∀ s t : Bytes, 0 ∉ s → 0 ∉ t → s.length < 2 ^ 31 - 1 → t.length < 2 ^ 31 - 1 →
      SameButLiterals s t →
      ∃ out, Buffered.nrSqlObfuscate (some (terminated s)) = .ok (some out) ∧
        Buffered.nrSqlObfuscate (some (terminated t)) = .ok (some out)) ∧
    ∀ raw : Bytes, 0 ∉ raw → raw.length < 2 ^ 31 - 1 → ¬ LoneEscape raw →
      ∃ out, Buffered.nrSqlObfuscate (some (terminated raw)) = .ok (some out) ∧
        (∀ b ∈ out, isDigit b = false ∧ b ≠ quote ∧ b ≠ apostrophe) ∧
        out.length ≤ raw.length := by
  constructor
  · intro s t hs ht hlen hlen' h
    obtain ⟨out, hout, hout'⟩ := h.scans hs ht
    exact ⟨out, Buffered.nrSqlObfuscate_of_ok hs hlen hout,
      Buffered.nrSqlObfuscate_of_ok ht hlen' hout'⟩
  · intro raw hzero hlen hlone
    exact ⟨_, Buffered.nrSqlObfuscate_of_ok hzero hlen (obfuscateLoop_eq hzero hlone),
      harmless_obfuscateLoop raw, length_obfuscateLoop_le raw⟩

/-- A literal of one letter and one of a digit, and a text of a letter. -/
theorem nrSqlObfuscate_hides_literal :
    (∃ out, Buffered.nrSqlObfuscate (some (terminated [quote, 0x61, quote])) = .ok (some out) ∧
      Buffered.nrSqlObfuscate (some (terminated [quote, 0x31, quote])) = .ok (some out)) ∧
    ∃ out, Buffered.nrSqlObfuscate (some (terminated [0x61])) = .ok (some out) ∧
      (∀ b ∈ out, isDigit b = false ∧ b ≠ quote ∧ b ≠ apostrophe) ∧ out.length ≤ 1 := by
  have hletter : LiteralBody quote [0x61] := .plain (by decide) (by decide) .nil
  have hdigit : LiteralBody quote [0x31] := .plain (by decide) (by decide) .nil
  have hsame : SameButLiterals [quote, 0x61, quote] [quote, 0x31, quote] :=
    .literal (.inl rfl) hletter hdigit nofun nofun .nil
  have hplain : ∀ b ∈ [(0x61 : UInt8)], Harmless b :=
    List.forall_mem_singleton.mpr ⟨rfl, by decide, by decide⟩
  exact ⟨nrSqlObfuscate_hides.1 _ _ (by decide) (by decide) (by decide) (by decide) hsame,
    nrSqlObfuscate_hides.2 [0x61] (by decide) (by decide) (not_loneEscape hplain)⟩

theorem literalBody_letters (n : ℕ) : LiteralBody quote (List.replicate n 0x61) := by
  induction n with
  | zero => exact .nil
  | succ n ih => exact .plain (by decide) (by decide) ih

/-- A literal of so many letters that the text has `2 ^ 31 - 1` bytes: with the zero they are more
than an `int` counts. -/
theorem nrSqlObfuscate_longLiteral :
    ¬ ∀ s t : Bytes, 0 ∉ s → 0 ∉ t → SameButLiterals s t →
      ∃ out, Buffered.nrSqlObfuscate (some (terminated s)) = .ok (some out) ∧
        Buffered.nrSqlObfuscate (some (terminated t)) = .ok (some out) := by
  intro h
  obtain ⟨n, hn⟩ : ∃ n, n = 2 ^ 31 - 3 := ⟨_, rfl⟩
  obtain ⟨s, hs⟩ : ∃ s, s = quote :: (List.replicate n 0x61 ++ [quote]) := ⟨_, rfl⟩
  have hzero : 0 ∉ s := by
    simp [hs, quote, List.mem_replicate]
  have hlength : s.length = n + 2 := by
    simp [hs]
  have hsame : SameButLiterals s [quote, quote] :=
    hs ▸ .literal (.inl rfl) (literalBody_letters n) .nil nofun nofun .nil
  obtain ⟨out, hout, -⟩ := h s [quote, quote] hzero (by decide) hsame
  have hsize : CMemory.int (CMemory.nrStrlen s + 1) = .error .range := by
    rw [CMemory.nrStrlen_of_lt (by omega), hlength]
    exact CMemory.int_of_le (by omega)
  rw [Buffered.nrSqlObfuscate, CMemory.nrStrlenAt_terminated hzero, ok_bind, hsize,
    error_bind] at hout
  cases hout

/-! ### Obfuscating twice -/

/-- Nothing but comments, one behind the other. -/
inductive SkipsComments : Bytes → Bytes → Prop
  | refl (s : Bytes) : SkipsComments s s
  | comment {c r t : Bytes} (hc : IsComment c) (h : SkipsComments r t) : SkipsComments (c ++ r) t

/-- Two bytes that open a comment when they stand side by side. -/
def OpensComment (x y : UInt8) : Prop := x = minus ∧ y = minus ∨ x = slash ∧ y = star

theorem startsComment_iff {s : Bytes} :
    StartsComment s ↔ ∃ x y, OpensComment x y ∧ [x, y] <+: s := by
  constructor
  · rintro (h | h)
    · exact ⟨minus, minus, .inl ⟨rfl, rfl⟩, h⟩
    · exact ⟨slash, star, .inr ⟨rfl, rfl⟩, h⟩
  · rintro ⟨x, y, ⟨rfl, rfl⟩ | ⟨rfl, rfl⟩, h⟩
    · exact .inl h
    · exact .inr h

/-- There are two bytes that are copied, with nothing but comments between them, and that open a
comment as soon as the comments are gone. -/
def JoinsComment (raw : Bytes) : Prop :=
  ∃ x y r t, OpensComment x y ∧ Passes raw (x :: r) ∧ ¬ StartsComment (x :: r) ∧
    SkipsComments r (y :: t) ∧ ¬ StartsComment (y :: t)

theorem JoinsComment.takes {s out r : Bytes} (h : Takes s out r) (hr : JoinsComment r) :
    JoinsComment s := by
  obtain ⟨x, y, u, t, hopens, hpasses, hrest⟩ := hr
  exact ⟨x, y, u, t, hopens, .step h hpasses, hrest⟩

theorem obfuscateLoop_skipsComments {r t : Bytes} (h : SkipsComments r t) :
    obfuscateLoop .normal r = obfuscateLoop .normal t := by
  induction h with
  | refl s => rfl
  | comment hc h ih => rw [obfuscateLoop_comment hc, ih]

/-- The first byte that is written is a question mark or is copied, from behind comments. -/
theorem skipsComments_of_obfuscateLoop {y : UInt8} (hy : y ≠ questionMark) {s w : Bytes}
    (h : obfuscateLoop .normal s = y :: w) :
    ∃ t, SkipsComments s (y :: t) ∧ ¬ StartsComment (y :: t) := by
  induction s using token_induction with
  | @takes s out r htakes ih =>
      rw [obfuscateLoop_of_takes htakes] at h
      cases htakes with
      | literal hq hbody hr => exact absurd (List.cons.inj h).1.symm hy
      | digits hd hdigits hr => exact absurd (List.cons.inj h).1.symm hy
      | comment hc =>
          obtain ⟨t, hskips, hstarts⟩ := ih h
          exact ⟨t, .comment hc hskips, hstarts⟩
      | @other b _ hquote hapostrophe hdigit hr =>
          obtain rfl : b = y := (List.cons.inj h).1
          exact ⟨r, .refl _, hr⟩
  | stops hstops =>
      rw [obfuscateLoop_of_stops hstops] at h
      cases hstops with
      | nil => cases h
      | openLiteral hq hbody => exact absurd (List.cons.inj h).1.symm hy
      | openComment hc => cases h
  | cut hcut =>
      rw [obfuscateLoop_of_cutEscape hcut] at h
      exact absurd (List.cons.inj h).1.symm hy

theorem not_pair_infix_of_length_le_one {x y : UInt8} {out : Bytes} (h : out.length ≤ 1) :
    ¬ [x, y] <:+: out := fun hi => by
  have hle := hi.length_le
  simp only [List.length_cons, List.length_nil] at hle
  omega

/-- Where two bytes stand side by side in the output, they are copied from there, with no more
than comments between them. -/
theorem joinsComment_of_pair {x y : UInt8} (hopens : OpensComment x y) {s : Bytes}
    (h : [x, y] <:+: obfuscateLoop .normal s) : JoinsComment s := by
  have hx : x ≠ questionMark := by
    rcases hopens with ⟨rfl, -⟩ | ⟨rfl, -⟩ <;> decide
  have hy : y ≠ questionMark := by
    rcases hopens with ⟨-, rfl⟩ | ⟨-, rfl⟩ <;> decide
  have hpair : ∀ {b : UInt8} {w : Bytes}, [x, y] <:+: b :: w →
      (x = b ∧ ∃ w', w = y :: w') ∨ [x, y] <:+: w := by
    intro b w hi
    refine (List.infix_cons_iff.mp hi).imp_left fun ⟨w', hw'⟩ => ?_
    obtain ⟨hb, hw⟩ := List.cons.inj hw'
    exact ⟨hb, w', hw.symm⟩
  induction s using token_induction with
  | @takes s out r htakes ih =>
      by_cases hbehind : [x, y] <:+: obfuscateLoop .normal r
      · exact (ih hbehind).takes htakes
      · rw [obfuscateLoop_of_takes htakes] at h
        cases htakes with
        | literal hq hbody hr =>
            rcases hpair h with ⟨hfirst, -⟩ | hi
            · exact absurd hfirst hx
            · exact absurd hi hbehind
        | digits hd hdigits hr =>
            rcases hpair h with ⟨hfirst, -⟩ | hi
            · exact absurd hfirst hx
            · exact absurd hi hbehind
        | comment hc => exact absurd h hbehind
        | other hquote hapostrophe hdigit hr =>
            rcases hpair h with ⟨rfl, w, hw⟩ | hi
            · obtain ⟨t, hskips, hstarts⟩ := skipsComments_of_obfuscateLoop hy hw
              exact ⟨x, y, r, t, hopens, .refl _, hr, hskips, hstarts⟩
            · exact absurd hi hbehind
  | stops hstops =>
      rw [obfuscateLoop_of_stops hstops] at h
      cases hstops with
      | nil => exact absurd h (not_pair_infix_of_length_le_one (Nat.zero_le 1))
      | openLiteral hq hbody => exact absurd h (not_pair_infix_of_length_le_one le_rfl)
      | openComment hc => exact absurd h (not_pair_infix_of_length_le_one (Nat.zero_le 1))
  | cut hcut =>
      rw [obfuscateLoop_of_cutEscape hcut] at h
      exact absurd h (not_pair_infix_of_length_le_one le_rfl)

theorem Passes.obfuscateLoop_suffix {s t : Bytes} (h : Passes s t) :
    obfuscateLoop .normal t <:+ obfuscateLoop .normal s := by
  induction h with
  | refl s => exact List.suffix_rfl
  | step htakes hr ih =>
      rw [obfuscateLoop_of_takes htakes]
      exact ih.trans (List.suffix_append _ _)

theorem pair_of_joinsComment {s : Bytes} (h : JoinsComment s) :
    ∃ x y, OpensComment x y ∧ [x, y] <:+: obfuscateLoop .normal s := by
  obtain ⟨x, y, r, t, hopens, hpasses, hx, hskips, hy⟩ := h
  have hcopied : ∀ {b : UInt8} {u : Bytes}, b = minus ∨ b = slash ∨ b = star →
      ¬ StartsComment (b :: u) → obfuscateLoop .normal (b :: u) = b :: obfuscateLoop .normal u := by
    rintro b u (rfl | rfl | rfl) hu
    · exact obfuscateLoop_other (by decide) (by decide) rfl hu
    · exact obfuscateLoop_other (by decide) (by decide) rfl hu
    · exact obfuscateLoop_other (by decide) (by decide) rfl hu
  have hfirst : x = minus ∨ x = slash ∨ x = star := by
    rcases hopens with ⟨rfl, -⟩ | ⟨rfl, -⟩
    · exact .inl rfl
    · exact .inr (.inl rfl)
  have hsecond : y = minus ∨ y = slash ∨ y = star := by
    rcases hopens with ⟨-, rfl⟩ | ⟨-, rfl⟩
    · exact .inl rfl
    · exact .inr (.inr rfl)
  have hjoined : obfuscateLoop .normal (x :: r) = x :: y :: obfuscateLoop .normal t := by
    rw [hcopied hfirst hx, obfuscateLoop_skipsComments hskips, hcopied hsecond hy]
  refine ⟨x, y, hopens, List.IsInfix.trans ?_ hpasses.obfuscateLoop_suffix.isInfix⟩
  exact ⟨[], obfuscateLoop .normal t, hjoined.symm⟩

/-- A text without quotes and digits comes out as it is exactly if nothing in it opens a comment. -/
theorem obfuscateLoop_eq_self_iff {s : Bytes} (hs : ∀ b ∈ s, Harmless b) :
    obfuscateLoop .normal s = s ↔ ∀ x y, OpensComment x y → ¬ [x, y] <:+: s := by
  induction s with
  | nil =>
      rw [obfuscateLoop_nil]
      exact ⟨fun _ x y _ => not_pair_infix_of_length_le_one (Nat.zero_le 1), fun _ => rfl⟩
  | cons b s ih =>
      obtain ⟨⟨hdigit, hquote, hapostrophe⟩, hs⟩ := List.forall_mem_cons.mp hs
      by_cases hstarts : StartsComment (b :: s)
      · refine iff_of_false (fun heq => ?_) fun hnone => ?_
        · have hlen := congrArg List.length heq
          rw [List.length_cons] at hlen
          rcases takes_or_stops_of_startsComment hstarts with ⟨r, htakes⟩ | hstops
          · have hlt := htakes.length_lt
            have hle := length_obfuscateLoop_le r
            rw [obfuscateLoop_of_takes htakes, List.nil_append] at hlen
            rw [List.length_cons] at hlt
            omega
          · rw [obfuscateLoop_of_stops hstops] at hlen
            cases hlen
        · obtain ⟨x, y, hopens, hprefix⟩ := startsComment_iff.mp hstarts
          exact hnone x y hopens hprefix.isInfix
      · rw [obfuscateLoop_other hquote hapostrophe hdigit hstarts, List.cons_inj_right, ih hs]
        refine forall₂_congr fun x y => forall_congr' fun hopens => not_congr ?_
        rw [List.infix_cons_iff]
        exact (or_iff_right fun hp => hstarts (startsComment_iff.mpr ⟨x, y, hopens, hp⟩)).symm

theorem mem_obfuscateLoop {b : UInt8} {s : Bytes} (h : b ∈ obfuscateLoop .normal s) :
    b = questionMark ∨ b ∈ s := by
  induction s using token_induction with
  | takes htakes ih =>
      rw [obfuscateLoop_of_takes htakes] at h
      rcases List.mem_append.mp h with hout | hrest
      · cases htakes with
        | literal hq hbody hr => exact .inl (List.mem_singleton.mp hout)
        | digits hd hdigits hr => exact .inl (List.mem_singleton.mp hout)
        | comment hc => cases hout
        | other hquote hapostrophe hdigit hr =>
            exact .inr (List.mem_singleton.mp hout ▸ List.mem_cons_self)
      · exact (ih hrest).imp_right fun hb => htakes.suffix.subset hb
  | stops hstops =>
      rw [obfuscateLoop_of_stops hstops] at h
      cases hstops with
      | nil => cases h
      | openLiteral hq hbody => exact .inl (List.mem_singleton.mp h)
      | openComment hc => cases h
  | cut hcut =>
      rw [obfuscateLoop_of_cutEscape hcut] at h
      exact .inl (List.mem_singleton.mp h)

/-- Obfuscating the output of `nr_sql_obfuscate` changes nothing exactly if there is an output,
and there are no two bytes between which nothing but comments was taken out and that open a
comment when they have come together. -/
theorem nrSqlObfuscate_idempotent_iff (raw : Bytes) (hzero : 0 ∉ raw) :
    (∃ out, Memory.nrSqlObfuscate (some (terminated raw)) = .ok (some out) ∧
        Memory.nrSqlObfuscate (some (terminated out)) = .ok (some out)) ↔
      ¬ LoneEscape raw ∧ ¬ JoinsComment raw := by
  have hzero' : 0 ∉ obfuscateLoop .normal raw := fun hz =>
    (mem_obfuscateLoop hz).elim (fun h => absurd h (by decide)) hzero
  have hharmless := harmless_obfuscateLoop raw
  have hagain := obfuscateLoop_eq hzero' (not_loneEscape hharmless)
  constructor
  · rintro ⟨out, hout, hsame⟩
    have hlone : ¬ LoneEscape raw := by
      intro hlone
      rw [Memory.nrSqlObfuscate, obfuscateLoop_of_loneEscape hzero hlone] at hout
      cases hout
    rw [Memory.nrSqlObfuscate, obfuscateLoop_eq hzero hlone] at hout
    obtain rfl : obfuscateLoop .normal raw = out := Option.some.inj (Except.ok.inj hout)
    rw [Memory.nrSqlObfuscate, hagain] at hsame
    have hself := Option.some.inj (Except.ok.inj hsame)
    refine ⟨hlone, fun hjoins => ?_⟩
    obtain ⟨x, y, hopens, hinfix⟩ := pair_of_joinsComment hjoins
    exact (obfuscateLoop_eq_self_iff hharmless).mp hself x y hopens hinfix
  · rintro ⟨hlone, hjoins⟩
    have hself : obfuscateLoop .normal (obfuscateLoop .normal raw) = obfuscateLoop .normal raw :=
      (obfuscateLoop_eq_self_iff hharmless).mpr fun x y hopens hinfix =>
        hjoins (joinsComment_of_pair hopens hinfix)
    refine ⟨_, congrArg (some <$> ·) (obfuscateLoop_eq hzero hlone), ?_⟩
    rw [Memory.nrSqlObfuscate, hagain, hself]
    rfl

theorem nrSqlObfuscate_idempotent_iff_minus :
    (∃ out, Memory.nrSqlObfuscate (some (terminated [minus])) = .ok (some out) ∧
        Memory.nrSqlObfuscate (some (terminated out)) = .ok (some out)) ↔
      ¬ LoneEscape [minus] ∧ ¬ JoinsComment [minus] :=
  nrSqlObfuscate_idempotent_iff [minus] (by decide)

/-- Two minus signs with an empty comment between them: the first pass makes a comment of them,
which the second takes out. -/
theorem nrSqlObfuscate_not_idempotent :
    ¬ ∀ raw : Bytes, 0 ∉ raw →
      ∃ out, Memory.nrSqlObfuscate (some (terminated raw)) = .ok (some out) ∧
        Memory.nrSqlObfuscate (some (terminated out)) = .ok (some out) := by
  intro h
  obtain ⟨out, hout, hsame⟩ := h [minus, slash, star, star, slash, minus] (by decide)
  have hsign : ∀ r, ¬ StartsComment (minus :: r) → Takes (minus :: r) [minus] r := fun r =>
    .other (by decide) (by decide) rfl
  have hblock : IsComment (slash :: ([star] ++ [star, slash])) := .block rfl (by decide)
  have hcomment : Takes [slash, star, star, slash, minus] [] [minus] := .comment hblock
  have hfirst : Memory.nrSqlObfuscate (some (terminated [minus, slash, star, star, slash, minus])) =
      .ok (some [minus, minus]) := by
    rw [Memory.nrSqlObfuscate, Memory.obfuscateLoop_takes (hsign _ (by decide)) (by decide),
      Memory.obfuscateLoop_takes hcomment (by decide),
      Memory.obfuscateLoop_takes (hsign _ (by decide)) (by decide), Memory.obfuscateLoop_zero]
    rfl
  have hsecond : Memory.nrSqlObfuscate (some (terminated [minus, minus])) = .ok (some []) := by
    have hopen : IsOpenComment [minus, minus] := .line List.not_mem_nil
    rw [Memory.nrSqlObfuscate, Memory.obfuscateLoop_openComment hopen (by decide)]
    rfl
  rw [hfirst] at hout
  obtain rfl : [minus, minus] = out := Option.some.inj (Except.ok.inj hout)
  rw [hsecond] at hsame
  cases hsame

end AxiomDaemon.Util

import AxiomDaemon.Lib.CText
import AxiomDaemon.Util.JsonEscape

/-!
`nr_json_escape` in memory: what it reads of a string and what it writes into a
buffer. A character of several bytes is read byte by byte, so that the zero at
the end of the string stops a character that is cut off there.
-/

namespace AxiomDaemon.Util

open AxiomDaemon.Lib AxiomDaemon.Lib.Json AxiomDaemon.Lib.CText

namespace Memory

/-- The number of bytes that follow the first byte of a character, and the bits of the first byte
that belong to the code point. -/
def leadByte (b : UInt8) : Option (ℕ × ℕ) :=
  if b.toNat < 0xe0 then some (1, b.toNat % 0x20)
  else if b.toNat < 0xf0 then some (2, b.toNat % 0x10)
  else if b.toNat < 0xf8 then some (3, b.toNat % 8)
  else if b.toNat < 0xfc then some (4, b.toNat % 4)
  else if b.toNat < 0xfe then some (5, b.toNat % 2)
  else none

/-- The loop over the bytes that follow: the code point and what is behind the character. -/
def continuation : ℕ → Bytes → ℕ → Checked (Option (ℕ × Bytes))
  | 0, p, codePoint => .ok (some (codePoint, p))
  | _ + 1, [], _ => .error .read
  | n + 1, b :: p, codePoint =>
      if isContinuation b then continuation n p (codePoint * 0x40 + b.toNat % 0x40) else .ok none

theorem continuation_suffix {n codePoint c : ℕ} {p r : Bytes}
    (h : continuation n p codePoint = .ok (some (c, r))) : r <:+ p := by
  induction n generalizing p codePoint with
  | zero =>
      obtain ⟨-, rfl⟩ := Prod.mk.inj (Option.some.inj (Except.ok.inj h))
      exact List.suffix_rfl
  | succ n ih =>
      cases p with
      | nil => cases h
      | cons b p =>
          rw [continuation] at h
          split_ifs at h
          · exact (ih h).trans (List.suffix_cons b p)
          · cases h

/-- What is written for the character that was read: two surrogates for one of four bytes, nothing
for longer ones. -/
def escapeCharacter (n codePoint : ℕ) : Option Bytes :=
  if n ≤ 2 then some (escapeUnit (codePoint % 2 ^ 16))
  else if n = 3 then some (escapePair codePoint)
  else none

/-- The loop of `nr_json_escape`, up to the quote and the zero at the end of the result. -/
def escapeLoop (capacity : ℕ) : Bytes → Bytes → Checked Bytes
  | [], _ => .error .read
  | b :: p, out =>
      if b = 0 then store capacity out [quote, 0]
      else
        match escapeChar b with
        | some e => do
            let out ← store capacity out [backslash, e]
            escapeLoop capacity p out
        | none =>
            if b.toNat < 0xc0 then do
              let out ← store capacity out
                (if b.toNat ≤ 0x1f ∨ b.toNat ≥ 0x7f then escapeFault b else [b])
              escapeLoop capacity p out
            else
              let fault := do
                let out ← store capacity out (escapeFault b)
                escapeLoop capacity p out
              match leadByte b with
              | none => fault
              | some (n, payload) =>
                  match _h : continuation n p payload with
                  | .error e => .error e
                  | .ok none => fault
                  | .ok (some (codePoint, r)) =>
                      match escapeCharacter n codePoint with
                      | none => fault
                      | some text => do
                          let out ← sprintf capacity out text
                          escapeLoop capacity r out
termination_by p => p.length
decreasing_by
  all_goals first
    | exact Nat.lt_succ_self _
    | exact Nat.lt_succ_of_le (continuation_suffix _h).length_le

/-- `nr_json_escape` into a buffer of a given size, if there is one: the buffer as it is left. -/
def nrJsonEscape (dest : Option ℕ) (json : Option Bytes) : Checked Bytes :=
  match dest with
  | none => .ok []
  | some capacity => do
      let out ← store capacity [] [quote]
      escapeLoop capacity (json.getD (terminated [])) out

/-- On a string the bytes that follow are there, or one of them is none that may follow. -/
theorem continuation_terminated (n : ℕ) (s : Bytes) (codePoint : ℕ) :
    continuation n (terminated s) codePoint = .ok none ∨
      ∃ cs r, s = cs ++ r ∧ cs.length = n ∧ (∀ b ∈ cs, isContinuation b) ∧
        continuation n (terminated s) codePoint =
          .ok (some (cs.foldl (fun c b => c * 0x40 + b.toNat % 0x40) codePoint, terminated r)) := by
  induction n generalizing s codePoint with
  | zero => exact .inr ⟨[], s, rfl, rfl, List.forall_mem_nil _, rfl⟩
  | succ n ih =>
      cases s with
      | nil => exact .inl rfl
      | cons b s =>
          rw [terminated_cons, continuation]
          split_ifs with hb
          · rcases ih s (codePoint * 0x40 + b.toNat % 0x40) with
              hnone | ⟨cs, r, rfl, hlen, hcs, hsome⟩
            · exact .inl hnone
            · exact .inr ⟨b :: cs, r, rfl, by rw [List.length_cons, hlen],
                List.forall_mem_cons.mpr ⟨hb, hcs⟩, hsome⟩
          · exact .inl rfl

end Memory

/-! ### One character at a time -/

/-- A printable character of ASCII. -/
def IsPrintable (b : UInt8) : Prop := 0x20 ≤ b.toNat ∧ b.toNat ≤ 0x7e

/-- The loop writes `piece` for the first character of `s` and goes on with `rest`. -/
structure EscapeStep (s piece rest : Bytes) : Prop where
  loop : escapeLoop s = piece ++ escapeLoop rest
  suffix : rest <:+ s
  progress : rest.length < s.length
  room : piece.length + 6 * rest.length ≤ 6 * s.length
  printable : ∀ b ∈ piece, IsPrintable b
  memory : ∀ capacity out, out.length + piece.length + 1 ≤ capacity →
    Memory.escapeLoop capacity (terminated s) out =
      Memory.escapeLoop capacity (terminated rest) (out ++ piece)

theorem isPrintable_hexDigit {d : ℕ} (h : d < 16) : IsPrintable (hexDigit d) := by
  have hall : ∀ d : Fin 16, 0x20 ≤ (hexDigit d).toNat ∧ (hexDigit d).toNat ≤ 0x7e := by decide
  exact hall ⟨d, h⟩

theorem isPrintable_escapeUnit (u : ℕ) : ∀ b ∈ escapeUnit u, IsPrintable b := by
  have hdigit : ∀ n, IsPrintable (hexDigit (n % 16)) := fun n =>
    isPrintable_hexDigit (Nat.mod_lt n (by decide))
  intro b hb
  simp only [escapeUnit, List.mem_cons, List.not_mem_nil, or_false] at hb
  rcases hb with rfl | rfl | rfl | rfl | rfl | rfl
  · exact ⟨by decide, by decide⟩
  · exact ⟨by decide, by decide⟩
  · exact hdigit _
  · exact hdigit _
  · exact hdigit _
  · exact hdigit _

theorem isPrintable_escapePair (c : ℕ) : ∀ b ∈ escapePair c, IsPrintable b :=
  List.forall_mem_append.mpr ⟨isPrintable_escapeUnit _, isPrintable_escapeUnit _⟩

theorem store_eq {capacity : ℕ} {out bytes : Bytes} (h : out.length + bytes.length + 1 ≤ capacity) :
    store capacity out bytes = .ok (out ++ bytes) :=
  if_pos (by omega)

theorem isPrintable_of_escapeChar {b e : UInt8} (h : escapeChar b = some e) : IsPrintable e := by
  simp only [escapeChar] at h
  split_ifs at h <;> obtain rfl := Option.some.inj h <;> exact ⟨by decide, by decide⟩

theorem escapeStep_char {b e : UInt8} (hb : b ≠ 0) (he : escapeChar b = some e) (s : Bytes) :
    EscapeStep (b :: s) [backslash, e] s where
  loop := by
    rw [escapeLoop.eq_def]
    simp only [he]
    rfl
  suffix := List.suffix_cons b s
  progress := Nat.lt_succ_self _
  room := by
    simp only [List.length_cons, List.length_nil]
    omega
  printable := by
    simp only [List.forall_mem_cons, List.not_mem_nil, false_imp_iff, implies_true, and_true]
    exact ⟨⟨by decide, by decide⟩, isPrintable_of_escapeChar he⟩
  memory := by
    intro capacity out hroom
    rw [terminated_cons, Memory.escapeLoop, if_neg hb, he]
    simp only [store_eq hroom, ok_bind]

theorem escapeStep_single {b : UInt8} (hb : b ≠ 0) (he : escapeChar b = none)
    (hlead : b.toNat < 0xc0) (s : Bytes) :
    EscapeStep (b :: s) (if b.toNat ≤ 0x1f ∨ b.toNat ≥ 0x7f then escapeFault b else [b]) s where
  loop := by
    rw [escapeLoop.eq_def]
    simp only [he]
    rw [if_pos hlead]
    split_ifs with hcontrol
    · rfl
    · rfl
  suffix := List.suffix_cons b s
  progress := Nat.lt_succ_self _
  room := by
    split_ifs with hcontrol
    · change 6 + 6 * s.length ≤ 6 * (s.length + 1)
      omega
    · change 1 + 6 * s.length ≤ 6 * (s.length + 1)
      omega
  printable := by
    split_ifs with hcontrol
    · exact isPrintable_escapeUnit _
    · refine List.forall_mem_singleton.mpr ?_
      rw [IsPrintable]
      omega
  memory := by
    intro capacity out hroom
    rw [terminated_cons, Memory.escapeLoop, if_neg hb, he]
    simp only [if_pos hlead, store_eq hroom, ok_bind]

/-- The first byte of a character that is not complete or too long. -/
theorem escapeStep_fault {b : UInt8} (hb : b ≠ 0) (he : escapeChar b = none)
    (hlead : ¬ b.toNat < 0xc0) {s : Bytes}
    (hloop : escapeLoop (b :: s) = escapeFault b ++ escapeLoop s)
    (hfault : Memory.leadByte b = none ∨ ∃ n payload, Memory.leadByte b = some (n, payload) ∧
      (Memory.continuation n (terminated s) payload = .ok none ∨
        ∃ c r, Memory.continuation n (terminated s) payload = .ok (some (c, r)) ∧
          Memory.escapeCharacter n c = none)) :
    EscapeStep (b :: s) (escapeFault b) s where
  loop := hloop
  suffix := List.suffix_cons b s
  progress := Nat.lt_succ_self _
  room := by
    change 6 + 6 * s.length ≤ 6 * (s.length + 1)
    omega
  printable := isPrintable_escapeUnit _
  memory := by
    intro capacity out hroom
    rw [terminated_cons, Memory.escapeLoop, if_neg hb, he]
    simp only [if_neg hlead, store_eq hroom, ok_bind]
    rcases hfault with hnone | ⟨n, payload, hsome, hcont | ⟨c, r, hcont, htext⟩⟩
    · rw [hnone]
    · simp only [hsome]
      split
      · next e h =>
          rw [hcont] at h
          cases h
      · rfl
      · next h =>
          rw [hcont] at h
          cases h
    · simp only [hsome]
      split
      · next e h =>
          rw [hcont] at h
          cases h
      · rfl
      · next c' r' h =>
          rw [hcont] at h
          obtain ⟨rfl, rfl⟩ := Prod.mk.inj (Option.some.inj (Except.ok.inj h))
          rw [htext]

theorem escapeStep_character {b : UInt8} (hb : b ≠ 0) (he : escapeChar b = none)
    (hlead : ¬ b.toNat < 0xc0) {n payload c : ℕ} {cs r text : Bytes}
    (hsome : Memory.leadByte b = some (n, payload)) (hlen : cs.length = n) (hn : 0 < n)
    (hcont : Memory.continuation n (terminated (cs ++ r)) payload = .ok (some (c, terminated r)))
    (htext : Memory.escapeCharacter n c = some text)
    (hloop : escapeLoop (b :: (cs ++ r)) = text ++ escapeLoop r) :
    EscapeStep (b :: (cs ++ r)) text r := by
  have hshape : (∀ b ∈ text, IsPrintable b) ∧ text.length ≤ 6 * n := by
    rw [Memory.escapeCharacter] at htext
    split_ifs at htext with hshort hpair
    · obtain rfl := Option.some.inj htext
      exact ⟨isPrintable_escapeUnit _, by change 6 ≤ 6 * n; omega⟩
    · obtain rfl := Option.some.inj htext
      exact ⟨isPrintable_escapePair _, by change 12 ≤ 6 * n; omega⟩
  refine ⟨hloop, (List.suffix_append cs r).trans (List.suffix_cons b _), ?_, ?_, hshape.1, ?_⟩
  · rw [List.length_cons, List.length_append]
    omega
  · have hroom := hshape.2
    rw [List.length_cons, List.length_append]
    omega
  · intro capacity out hroom
    rw [terminated_cons, Memory.escapeLoop, if_neg hb, he]
    simp only [if_neg hlead, hsome]
    split
    · next e h =>
        rw [hcont] at h
        cases h
    · next h =>
        rw [hcont] at h
        cases h
    · next c' r' h =>
        rw [hcont] at h
        obtain ⟨rfl, rfl⟩ := Prod.mk.inj (Option.some.inj (Except.ok.inj h))
        rw [htext]
        simp only [sprintf, if_pos hroom, ok_bind]

theorem escapeUnit_mod (u : ℕ) : escapeUnit (u % 2 ^ 16) = escapeUnit u := by
  rw [escapeUnit, escapeUnit, show u % 2 ^ 16 / 4096 % 16 = u / 4096 % 16 by omega,
    show u % 2 ^ 16 / 256 % 16 = u / 256 % 16 by omega,
    show u % 2 ^ 16 / 16 % 16 = u / 16 % 16 by omega, show u % 2 ^ 16 % 16 = u % 16 by omega]

theorem exists_escapeStep_two {b : UInt8} (hb : b ≠ 0) (he : escapeChar b = none)
    (hlo : ¬ b.toNat < 0xc0) (hhi : b.toNat < 0xe0) (s : Bytes) :
    ∃ piece rest, EscapeStep (b :: s) piece rest := by
  have hlead : Memory.leadByte b = some (1, b.toNat % 0x20) := if_pos hhi
  have hfault : escapeLoop (b :: s) = escapeFault b ++ escapeLoop s →
      Memory.continuation 1 (terminated s) (b.toNat % 0x20) = .ok none →
      ∃ piece rest, EscapeStep (b :: s) piece rest := fun hloop hnone =>
    ⟨_, _, escapeStep_fault hb he hlo hloop (.inr ⟨1, _, hlead, .inl hnone⟩)⟩
  rw [escapeLoop.eq_def] at hfault
  simp only [he, if_neg hlo, if_pos hhi] at hfault
  cases s with
  | nil => exact hfault (List.append_nil _).symm rfl
  | cons b₁ cs =>
      by_cases hcont : isContinuation b₁
      · have hread : Memory.continuation 1 (terminated ([b₁] ++ cs)) (b.toNat % 0x20) =
            .ok (some (b.toNat % 0x20 * 0x40 + b₁.toNat % 0x40, terminated cs)) := if_pos hcont
        refine ⟨_, _, escapeStep_character hb he hlo hlead rfl Nat.one_pos hread rfl ?_⟩
        rw [escapeUnit_mod, escapeLoop.eq_def]
        simp only [List.cons_append, List.nil_append, he, if_neg hlo, if_pos hhi, if_pos hcont]
      · exact hfault (if_neg hcont) (if_neg hcont)

theorem exists_escapeStep_three {b : UInt8} (hb : b ≠ 0) (he : escapeChar b = none)
    (hlo : ¬ b.toNat < 0xe0) (hhi : b.toNat < 0xf0) (s : Bytes) :
    ∃ piece rest, EscapeStep (b :: s) piece rest := by
  have hlo' : ¬ b.toNat < 0xc0 := by omega
  have hlead : Memory.leadByte b = some (2, b.toNat % 0x10) := by
    rw [Memory.leadByte, if_neg hlo, if_pos hhi]
  have hfault : escapeLoop (b :: s) = escapeFault b ++ escapeLoop s →
      Memory.continuation 2 (terminated s) (b.toNat % 0x10) = .ok none →
      ∃ piece rest, EscapeStep (b :: s) piece rest := fun hloop hnone =>
    ⟨_, _, escapeStep_fault hb he hlo' hloop (.inr ⟨2, _, hlead, .inl hnone⟩)⟩
  rw [escapeLoop.eq_def] at hfault
  simp only [he, if_neg hlo', if_neg hlo, if_pos hhi] at hfault
  rcases s with _ | ⟨b₁, _ | ⟨b₂, cs⟩⟩
  · exact hfault rfl rfl
  · refine hfault rfl ?_
    simp only [terminated_cons, Memory.continuation]
    split_ifs <;> rfl
  · by_cases hcont : (isContinuation b₁ && isContinuation b₂) = true
    · obtain ⟨h₁, h₂⟩ := Bool.and_eq_true_iff.mp hcont
      have hread : Memory.continuation 2 (terminated ([b₁, b₂] ++ cs)) (b.toNat % 0x10) =
          .ok (some ((b.toNat % 0x10 * 0x40 + b₁.toNat % 0x40) * 0x40 + b₂.toNat % 0x40,
            terminated cs)) := by
        simp only [List.cons_append, List.nil_append, terminated_cons, Memory.continuation,
          if_pos h₁, if_pos h₂]
      refine ⟨_, _, escapeStep_character hb he hlo' hlead rfl Nat.two_pos hread rfl ?_⟩
      rw [escapeUnit_mod, escapeLoop.eq_def]
      simp only [List.cons_append, List.nil_append, he, if_neg hlo', if_neg hlo, if_pos hhi,
        if_pos hcont]
    · refine hfault (if_neg hcont) ?_
      rw [Bool.and_eq_true_iff] at hcont
      simp only [terminated_cons, Memory.continuation]
      split_ifs with h₁ h₂
      · exact absurd ⟨h₁, h₂⟩ hcont
      · rfl
      · rfl

theorem exists_escapeStep_four {b : UInt8} (hb : b ≠ 0) (he : escapeChar b = none)
    (hlo : ¬ b.toNat < 0xf0) (hhi : b.toNat < 0xf8) (s : Bytes) :
    ∃ piece rest, EscapeStep (b :: s) piece rest := by
  have hlo' : ¬ b.toNat < 0xc0 := by omega
  have hlo'' : ¬ b.toNat < 0xe0 := by omega
  have hlead : Memory.leadByte b = some (3, b.toNat % 8) := by
    rw [Memory.leadByte, if_neg hlo'', if_neg hlo, if_pos hhi]
  have hfault : escapeLoop (b :: s) = escapeFault b ++ escapeLoop s →
      Memory.continuation 3 (terminated s) (b.toNat % 8) = .ok none →
      ∃ piece rest, EscapeStep (b :: s) piece rest := fun hloop hnone =>
    ⟨_, _, escapeStep_fault hb he hlo' hloop (.inr ⟨3, _, hlead, .inl hnone⟩)⟩
  rw [escapeLoop.eq_def] at hfault
  simp only [he, if_neg hlo', if_neg hlo'', if_neg hlo, if_pos hhi] at hfault
  rcases s with _ | ⟨b₁, _ | ⟨b₂, _ | ⟨b₃, cs⟩⟩⟩
  · exact hfault rfl rfl
  · refine hfault rfl ?_
    simp only [terminated_cons, Memory.continuation]
    split_ifs <;> rfl
  · refine hfault rfl ?_
    simp only [terminated_cons, Memory.continuation]
    split_ifs <;> rfl
  · by_cases hcont : (isContinuation b₁ && isContinuation b₂ && isContinuation b₃) = true
    · obtain ⟨h₁₂, h₃⟩ := Bool.and_eq_true_iff.mp hcont
      obtain ⟨h₁, h₂⟩ := Bool.and_eq_true_iff.mp h₁₂
      have hread : Memory.continuation 3 (terminated ([b₁, b₂, b₃] ++ cs)) (b.toNat % 8) =
          .ok (some (((b.toNat % 8 * 0x40 + b₁.toNat % 0x40) * 0x40 + b₂.toNat % 0x40) * 0x40 +
            b₃.toNat % 0x40, terminated cs)) := by
        simp only [List.cons_append, List.nil_append, terminated_cons, Memory.continuation,
          if_pos h₁, if_pos h₂, if_pos h₃]
      refine ⟨_, _, escapeStep_character hb he hlo' hlead rfl (by decide) hread rfl ?_⟩
      rw [escapeLoop.eq_def]
      simp only [List.cons_append, List.nil_append, he, if_neg hlo', if_neg hlo'', if_neg hlo,
        if_pos hhi, if_pos hcont]
    · refine hfault (if_neg hcont) ?_
      rw [Bool.and_eq_true_iff, Bool.and_eq_true_iff] at hcont
      simp only [terminated_cons, Memory.continuation]
      split_ifs with h₁ h₂ h₃
      · exact absurd ⟨⟨h₁, h₂⟩, h₃⟩ hcont
      · rfl
      · rfl
      · rfl

theorem exists_escapeStep {b : UInt8} (hb : b ≠ 0) (s : Bytes) :
    ∃ piece rest, EscapeStep (b :: s) piece rest := by
  cases he : escapeChar b with
  | some e => exact ⟨_, _, escapeStep_char hb he s⟩
  | none =>
      by_cases hc0 : b.toNat < 0xc0
      · exact ⟨_, _, escapeStep_single hb he hc0 s⟩
      by_cases he0 : b.toNat < 0xe0
      · exact exists_escapeStep_two hb he hc0 he0 s
      by_cases hf0 : b.toNat < 0xf0
      · exact exists_escapeStep_three hb he he0 hf0 s
      by_cases hf8 : b.toNat < 0xf8
      · exact exists_escapeStep_four hb he hf0 hf8 s
      refine ⟨_, _, escapeStep_fault hb he hc0 ?_ ?_⟩
      · rw [escapeLoop.eq_def]
        simp only [he, if_neg hc0, if_neg he0, if_neg hf0, if_neg hf8]
      · -- five and six bytes are read, but not written
        have hlong : ∀ {n payload : ℕ}, 3 < n → Memory.leadByte b = some (n, payload) →
            Memory.leadByte b = none ∨ ∃ n payload, Memory.leadByte b = some (n, payload) ∧
              (Memory.continuation n (terminated s) payload = .ok none ∨
                ∃ c r, Memory.continuation n (terminated s) payload = .ok (some (c, r)) ∧
                  Memory.escapeCharacter n c = none) := by
          intro n payload hn hlead
          refine .inr ⟨n, payload, hlead, ?_⟩
          rcases Memory.continuation_terminated n s payload with hnone | ⟨cs, r, -, -, -, hsome⟩
          · exact .inl hnone
          · exact .inr ⟨_, _, hsome, by
              rw [Memory.escapeCharacter, if_neg (by omega), if_neg (by omega)]⟩
        by_cases hfc : b.toNat < 0xfc
        · exact hlong (by decide : 3 < 4)
            (by rw [Memory.leadByte, if_neg he0, if_neg hf0, if_neg hf8, if_pos hfc])
        by_cases hfe : b.toNat < 0xfe
        · exact hlong (by decide : 3 < 5)
            (by rw [Memory.leadByte, if_neg he0, if_neg hf0, if_neg hf8, if_neg hfc, if_pos hfe])
        exact .inl (by
          rw [Memory.leadByte, if_neg he0, if_neg hf0, if_neg hf8, if_neg hfc, if_neg hfe])

/-! ### The whole string -/

/-- What holds of a string if it holds behind its first character holds of every string. -/
theorem escape_induction {motive : Bytes → Prop} (nil : motive [])
    (step : ∀ {s piece rest : Bytes}, EscapeStep s piece rest → motive rest → motive s)
    (zero : ∀ {s : Bytes}, 0 ∈ s → motive s) (s : Bytes) : motive s := by
  induction hlen : s.length using Nat.strong_induction_on generalizing s with
  | _ n ih =>
      subst hlen
      cases s with
      | nil => exact nil
      | cons b s =>
          by_cases hb : b = 0
          · exact zero (List.mem_cons.mpr (.inl hb.symm))
          · obtain ⟨piece, rest, h⟩ := exists_escapeStep hb s
            exact step h (ih rest.length h.progress rest rfl)

theorem EscapeStep.zero_notMem {s piece rest : Bytes} (h : EscapeStep s piece rest)
    (hzero : 0 ∉ s) : 0 ∉ rest :=
  fun hz => hzero (h.suffix.subset hz)

theorem length_escapeLoop_le {s : Bytes} (hzero : 0 ∉ s) :
    (escapeLoop s).length ≤ 6 * s.length := by
  induction s using escape_induction with
  | nil => exact Nat.zero_le _
  | step h ih =>
      have hroom := h.room
      have hrest := ih (h.zero_notMem hzero)
      rw [h.loop, List.length_append]
      omega
  | zero h => exact absurd h hzero

theorem isPrintable_escapeLoop {s : Bytes} (hzero : 0 ∉ s) : ∀ b ∈ escapeLoop s, IsPrintable b := by
  induction s using escape_induction with
  | nil => exact List.forall_mem_nil _
  | step h ih =>
      rw [h.loop]
      exact List.forall_mem_append.mpr ⟨h.printable, ih (h.zero_notMem hzero)⟩
  | zero h => exact absurd h hzero

/-- Six bytes for each byte of the string, and two, are all the room that is needed. -/
theorem escapeLoop_terminated {capacity : ℕ} {s : Bytes} (hzero : 0 ∉ s) (out : Bytes)
    (hroom : out.length + 6 * s.length + 2 ≤ capacity) :
    Memory.escapeLoop capacity (terminated s) out = .ok (out ++ (escapeLoop s ++ [quote, 0])) := by
  induction s using escape_induction generalizing out with
  | nil =>
      rw [terminated_nil, Memory.escapeLoop, if_pos rfl]
      exact if_pos hroom
  | step h ih =>
      have hpiece := h.room
      rw [h.memory capacity out (by omega),
        ih (h.zero_notMem hzero) (out ++ _) (by rw [List.length_append]; omega), h.loop]
      simp only [List.append_assoc]
  | zero h => exact absurd h hzero

/-- With as much room as the escaping of the string can need, the buffer holds the escaped text and
a zero. -/
theorem Memory.nrJsonEscape_of_room {json : Bytes} (hzero : 0 ∉ json) {capacity : ℕ}
    (hroom : 6 * json.length + 3 ≤ capacity) :
    Memory.nrJsonEscape (some capacity) (some (terminated json)) =
      .ok (Util.nrJsonEscape json ++ [0]) := by
  have hquote : store capacity [] [quote] = .ok [quote] :=
    if_pos (by rw [List.length_nil, List.length_singleton]; omega)
  rw [Memory.nrJsonEscape]
  simp only [hquote, ok_bind, Option.getD_some]
  rw [escapeLoop_terminated hzero _ (by rw [List.length_singleton]; omega), Util.nrJsonEscape]
  simp only [List.cons_append, List.nil_append, List.append_assoc]

theorem length_nrJsonEscape_le {json : Bytes} (hzero : 0 ∉ json) :
    (nrJsonEscape json).length ≤ 6 * json.length + 2 := by
  have hle := length_escapeLoop_le hzero
  rw [nrJsonEscape, List.length_cons, List.length_append, List.length_singleton]
  omega

/-- `nr_json_escape` stays inside a buffer with six bytes for each byte of the string and three
more, reads nothing behind the string, and writes a JSON string of printable characters. -/
theorem nrJsonEscape_bounded (json : Bytes) (hzero : 0 ∉ json) :
    Memory.nrJsonEscape (some (6 * json.length + 3)) (some (terminated json)) =
        .ok (nrJsonEscape json ++ [0]) ∧
      (nrJsonEscape json).length ≤ 6 * json.length + 2 ∧
      (∀ b ∈ nrJsonEscape json, 0x20 ≤ b.toNat ∧ b.toNat ≤ 0x7e) ∧
      ∃ units, Reads (nrJsonEscape json) (.str units) := by
  refine ⟨Memory.nrJsonEscape_of_room hzero (Nat.le_refl _), length_nrJsonEscape_le hzero, ?_,
    exists_reads_nrJsonEscape json⟩
  · have hquote : IsPrintable quote := ⟨by decide, by decide⟩
    exact List.forall_mem_cons.mpr ⟨hquote, List.forall_mem_append.mpr
      ⟨isPrintable_escapeLoop hzero, List.forall_mem_singleton.mpr hquote⟩⟩

theorem nrJsonEscape_bounded_cut :
    Memory.nrJsonEscape (some 9) (some (terminated [0xe2])) = .ok (nrJsonEscape [0xe2] ++ [0]) ∧
      (nrJsonEscape [0xe2]).length ≤ 8 ∧
      (∀ b ∈ nrJsonEscape [0xe2], 0x20 ≤ b.toNat ∧ b.toNat ≤ 0x7e) ∧
      ∃ units, Reads (nrJsonEscape [0xe2]) (.str units) :=
  nrJsonEscape_bounded [0xe2] (by decide)

end AxiomDaemon.Util

import AxiomDaemon.Axiom.Metrics
import AxiomDaemon.Lib.ReadNumber
import AxiomDaemon.Util.SqlObfuscate

/-!
`nr_sql_normalize` and the identifiers of a statement, `util_sql.c` and
`nr_slowsqls.c`. The placeholders of an `IN` list become one. The keyword is
found byte by byte: what a text is taken apart into here are the stretches
after each of which the search starts anew. Lengths are taken to be numbers
without bound.
-/

namespace AxiomDaemon.Util

open AxiomDaemon.Lib AxiomDaemon.Lib.Json AxiomDaemon.Lib.CText AxiomDaemon.Axiom

/-- What a list of placeholders is made of. -/
def isPlaceholder (b : UInt8) : Bool := b = questionMark || b = comma || isSpace b

def IsLetterI (b : UInt8) : Prop := b = 0x69 ∨ b = 0x49

def IsLetterN (b : UInt8) : Prop := b = 0x6e ∨ b = 0x4e

instance : DecidablePred IsLetterI := fun b => inferInstanceAs (Decidable (b = 0x69 ∨ b = 0x49))

instance : DecidablePred IsLetterN := fun b => inferInstanceAs (Decidable (b = 0x6e ∨ b = 0x4e))

/-- The states of `nr_sql_normalize`: what has been seen of the keyword, and which kind of list
the scan is in. -/
inductive NormalizeState
  | initial
  | seenI
  | seenIn
  | placeholders
  | otherList
  deriving DecidableEq

namespace NormalizeState

def next : NormalizeState → UInt8 → NormalizeState
  | initial, b => if IsLetterI b then seenI else initial
  | seenI, b => if IsLetterN b then seenIn else initial
  | seenIn, b => if b = lparen then placeholders else if isSpace b then seenIn else initial
  | placeholders, b =>
      if isPlaceholder b then placeholders else if b = rparen then initial else otherList
  | otherList, b => if b = rparen then initial else otherList

def written : NormalizeState → UInt8 → Bytes
  | placeholders, b =>
      if isPlaceholder b then [] else if b = rparen then [questionMark, rparen] else [b]
  | _, b => [b]

end NormalizeState

/-- The loop of `nr_sql_normalize`: what it writes. -/
def normalizeLoop : NormalizeState → Bytes → Bytes
  | _, [] => []
  | state, b :: p => state.written b ++ normalizeLoop (state.next b) p

/-- `nr_sql_normalize`. -/
def nrSqlNormalize (obfuscatedSql : Option Bytes) : Option Bytes :=
  match obfuscatedSql with
  | none | some [] => none
  | some sql => some (normalizeLoop .initial sql)

/-- `nr_sql_normalized_id`. -/
def nrSqlNormalizedId (obfuscatedSql : Option Bytes) : UInt32 :=
  match nrSqlNormalize obfuscatedSql with
  | none => 0
  | some normalized => nrMkhash normalized

namespace Memory

/-- The loop of `nr_sql_normalize` with its buffer, up to the zero that ends the result. -/
def normalizeLoop (capacity : ℕ) : NormalizeState → Bytes → Bytes → Checked Bytes
  | _, [], _ => .error .read
  | state, b :: p, out =>
      if b = 0 then store capacity out [0]
      else do
        let out ← store capacity out (state.written b)
        normalizeLoop capacity (state.next b) p out

/-- `nr_sql_normalize`, which allocates a byte more than the string has: the buffer as it is
left. -/
def nrSqlNormalize (obfuscatedSql : Option Bytes) : Checked (Option Bytes) :=
  match obfuscatedSql with
  | none => .ok none
  | some p => do
      if (← load p) = 0 then return none
      else
        let length ← strlen p
        some <$> normalizeLoop (length + 1) .initial p []

/-- `nr_sql_id` of `nr_slowsqls.c`. -/
def nrSqlId (sql : Option Bytes) : Checked UInt32 := do
  match ← nrSqlObfuscate sql with
  | none => return 0
  | some obfuscated => return nrSqlNormalizedId (some obfuscated)

end Memory

/-! ### The stretches of a text -/

/-- The two letters of the keyword, in either case, and white space. -/
inductive IsWord : Bytes → Prop
  | mk {i n : UInt8} (hi : IsLetterI i) (hn : IsLetterN n) {blanks : Bytes}
      (hblanks : ∀ b ∈ blanks, isSpace b) : IsWord (i :: n :: blanks)

/-- A stretch of a text after which the search for the keyword starts anew. In the middle of a
list, between `front` and `back`, there may be placeholders, `xs`, which are not copied. The flag
says whether the list holds nothing else; one question mark stands for them then. -/
inductive Stretch : Bytes → Bytes → Bytes → Bool → Prop
  | plain {b : UInt8} (hb : ¬ IsLetterI b) : Stretch [b] [] [] false
  | letter {i c : UInt8} (hi : IsLetterI i) (hc : ¬ IsLetterN c) : Stretch [i, c] [] [] false
  | word {w : Bytes} {c : UInt8} (hw : IsWord w) (hspace : isSpace c = false) (hc : c ≠ lparen) :
      Stretch (w ++ [c]) [] [] false
  | list {w xs : Bytes} (hw : IsWord w) (hxs : ∀ b ∈ xs, isPlaceholder b) :
      Stretch (w ++ [lparen]) xs [rparen] true
  | otherList {w xs body : Bytes} {c : UInt8} (hw : IsWord w) (hxs : ∀ b ∈ xs, isPlaceholder b)
      (hc : isPlaceholder c = false) (hend : c ≠ rparen) (hbody : rparen ∉ body) :
      Stretch (w ++ [lparen]) xs (c :: (body ++ [rparen])) false

/-- The last stretch of a text. The flag says whether it is the keyword and white space. -/
inductive LastStretch : Bytes → Bytes → Bytes → Bool → Prop
  | nil : LastStretch [] [] [] false
  | letter {i : UInt8} (hi : IsLetterI i) : LastStretch [i] [] [] false
  | word {w : Bytes} (hw : IsWord w) : LastStretch w [] [] true
  | list {w xs : Bytes} (hw : IsWord w) (hxs : ∀ b ∈ xs, isPlaceholder b) :
      LastStretch (w ++ [lparen]) xs [] false
  | otherList {w xs body : Bytes} {c : UInt8} (hw : IsWord w) (hxs : ∀ b ∈ xs, isPlaceholder b)
      (hc : isPlaceholder c = false) (hend : c ≠ rparen) (hbody : rparen ∉ body) :
      LastStretch (w ++ [lparen]) xs (c :: body) false

/-- A text as stretches: the placeholders of each with the flag that says whether the list is
closed behind them, and whether the text ends at the keyword. -/
inductive Stretches : Bytes → List (Bytes × Bool) → Bool → Prop
  | last {front xs back : Bytes} {keyword : Bool} (h : LastStretch front xs back keyword) :
      Stretches (front ++ (xs ++ back)) [(xs, false)] keyword
  | cons {front xs back s : Bytes} {closed keyword : Bool} {lists : List (Bytes × Bool)}
      (h : Stretch front xs back closed) (hs : Stretches s lists keyword) :
      Stretches (front ++ (xs ++ (back ++ s))) ((xs, closed) :: lists) keyword

/-- What is written for the placeholders of a list. -/
def collapsed (closed : Bool) : Bytes := if closed then [questionMark] else []

/-- The state behind a text. -/
def NormalizeState.run (state : NormalizeState) (s : Bytes) : NormalizeState :=
  s.foldl NormalizeState.next state

theorem normalizeLoop_append (state : NormalizeState) (s t : Bytes) :
    normalizeLoop state (s ++ t) = normalizeLoop state s ++ normalizeLoop (state.run s) t := by
  induction s generalizing state with
  | nil => rfl
  | cons b s ih =>
      rw [List.cons_append, normalizeLoop, normalizeLoop, ih, List.append_assoc]
      rfl

theorem run_append (state : NormalizeState) (s t : Bytes) :
    state.run (s ++ t) = (state.run s).run t :=
  List.foldl_append

/-- The scan copies a text and goes from one state to the other. -/
def Copies (state : NormalizeState) (s : Bytes) (state' : NormalizeState) : Prop :=
  normalizeLoop state s = s ∧ state.run s = state'

theorem Copies.trans {state state' state'' : NormalizeState} {s t : Bytes}
    (h : Copies state s state') (h' : Copies state' t state'') : Copies state (s ++ t) state'' := by
  refine ⟨?_, ?_⟩
  · rw [normalizeLoop_append, h.1, h.2, h'.1]
  · rw [run_append, h.2, h'.2]

theorem copies_of_stays {state : NormalizeState} {s : Bytes}
    (h : ∀ b ∈ s, state.next b = state ∧ state.written b = [b]) : Copies state s state := by
  induction s with
  | nil => exact ⟨rfl, rfl⟩
  | cons b s ih =>
      obtain ⟨⟨hnext, hwritten⟩, hs⟩ := List.forall_mem_cons.mp h
      obtain ⟨hloop, hrun⟩ := ih hs
      refine ⟨?_, ?_⟩
      · rw [normalizeLoop, hnext, hwritten, hloop]
        rfl
      · rw [NormalizeState.run, List.foldl_cons, hnext]
        exact hrun

theorem copies_singleton {state state' : NormalizeState} {b : UInt8} (hnext : state.next b = state')
    (hwritten : state.written b = [b]) : Copies state [b] state' :=
  ⟨by rw [normalizeLoop, normalizeLoop, hwritten, List.append_nil], hnext⟩

theorem copies_word {w : Bytes} (hw : IsWord w) : Copies .initial w .seenIn := by
  cases hw with
  | @mk i n hi hn blanks hblanks =>
      have hfirst : Copies .initial [i] .seenI := copies_singleton (if_pos hi) rfl
      have hsecond : Copies .seenI [n] .seenIn := copies_singleton (if_pos hn) rfl
      refine hfirst.trans (hsecond.trans (copies_of_stays fun b hb => ⟨?_, rfl⟩))
      have hspace : isSpace b = true := hblanks b hb
      have hparen : b ≠ lparen := by
        rintro rfl
        exact absurd hspace (by decide)
      rw [NormalizeState.next, if_neg hparen, if_pos hspace]

theorem copies_open {w : Bytes} (hw : IsWord w) : Copies .initial (w ++ [lparen]) .placeholders :=
  (copies_word hw).trans (copies_singleton rfl rfl)

theorem copies_body {body : Bytes} (hbody : rparen ∉ body) : Copies .otherList body .otherList :=
  copies_of_stays fun b hb => by
    have hb : b ≠ rparen := fun h => hbody (h ▸ hb)
    exact ⟨if_neg hb, rfl⟩

theorem copies_other {c : UInt8} (hc : isPlaceholder c = false) (hend : c ≠ rparen) {body : Bytes}
    (hbody : rparen ∉ body) : Copies .placeholders (c :: body) .otherList := by
  have hne : ¬ isPlaceholder c = true := by
    rw [hc]
    exact Bool.false_ne_true
  have hfirst : Copies .placeholders [c] .otherList := copies_singleton
    (by rw [NormalizeState.next, if_neg hne, if_neg hend])
    (by rw [NormalizeState.written, if_neg hne, if_neg hend])
  exact hfirst.trans (copies_body hbody)

theorem run_placeholders {xs : Bytes} (hxs : ∀ b ∈ xs, isPlaceholder b) :
    normalizeLoop .placeholders xs = [] ∧
      NormalizeState.run .placeholders xs = .placeholders := by
  induction xs with
  | nil => exact ⟨rfl, rfl⟩
  | cons b xs ih =>
      obtain ⟨hb, hxs⟩ := List.forall_mem_cons.mp hxs
      obtain ⟨hloop, hrun⟩ := ih hxs
      have hnext : NormalizeState.placeholders.next b = .placeholders := if_pos hb
      refine ⟨?_, ?_⟩
      · rw [normalizeLoop, hnext, hloop, NormalizeState.written, if_pos hb]
        rfl
      · rw [NormalizeState.run, List.foldl_cons, hnext]
        exact hrun

/-- What is written for a stretch, and that the search starts anew behind it. -/
theorem Stretch.run {front xs back : Bytes} {closed : Bool} (h : Stretch front xs back closed) :
    normalizeLoop .initial (front ++ (xs ++ back)) = front ++ (collapsed closed ++ back) ∧
      NormalizeState.run .initial (front ++ (xs ++ back)) = .initial := by
  have hcopied : ∀ {s : Bytes}, Copies .initial s .initial →
      normalizeLoop .initial (s ++ ([] ++ [])) = s ++ (collapsed false ++ []) ∧
        NormalizeState.run .initial (s ++ ([] ++ [])) = .initial := by
    intro s hs
    rw [show s ++ ([] ++ []) = s from List.append_nil s,
      show s ++ (collapsed false ++ []) = s from List.append_nil s]
    exact hs
  cases h with
  | plain hb => exact hcopied (copies_singleton (if_neg hb) rfl)
  | letter hi hc =>
      have hfirst : Copies .initial [_] .seenI := copies_singleton (if_pos hi) rfl
      exact hcopied (hfirst.trans (copies_singleton (if_neg hc) rfl))
  | @word w c hw hspace hc =>
      have hnext : NormalizeState.seenIn.next c = .initial := by
        rw [NormalizeState.next, if_neg hc, hspace, if_neg Bool.false_ne_true]
      exact hcopied ((copies_word hw).trans (copies_singleton hnext rfl))
  | list hw hxs =>
      obtain ⟨hloop, hrun⟩ := copies_open hw
      obtain ⟨hloop', hrun'⟩ := run_placeholders hxs
      rw [normalizeLoop_append, hloop, hrun, normalizeLoop_append, hloop', hrun', run_append, hrun,
        run_append, hrun']
      exact ⟨rfl, rfl⟩
  | otherList hw hxs hc hend hbody =>
      obtain ⟨hloop, hrun⟩ := copies_open hw
      obtain ⟨hloop', hrun'⟩ := run_placeholders hxs
      have hclose : Copies .otherList [rparen] .initial := copies_singleton rfl rfl
      obtain ⟨hback, hrest⟩ := (copies_other hc hend hbody).trans hclose
      rw [List.cons_append] at hback hrest
      rw [normalizeLoop_append, hloop, hrun, normalizeLoop_append, hloop', hrun', run_append, hrun,
        run_append, hrun', hback, hrest]
      exact ⟨rfl, rfl⟩

/-- What is written for the last stretch, and whether the scan has seen the keyword there. -/
theorem LastStretch.run {front xs back : Bytes} {keyword : Bool}
    (h : LastStretch front xs back keyword) :
    normalizeLoop .initial (front ++ (xs ++ back)) = front ++ (collapsed false ++ back) ∧
      (NormalizeState.run .initial (front ++ (xs ++ back)) = .seenIn ↔ keyword = true) := by
  have hcopied : ∀ {s : Bytes} {state : NormalizeState} {keyword : Bool},
      (state = .seenIn ↔ keyword = true) → Copies .initial s state →
      normalizeLoop .initial (s ++ ([] ++ [])) = s ++ (collapsed false ++ []) ∧
        (NormalizeState.run .initial (s ++ ([] ++ [])) = .seenIn ↔ keyword = true) := by
    intro s state keyword hstate hs
    rw [show s ++ ([] ++ []) = s from List.append_nil s,
      show s ++ (collapsed false ++ []) = s from List.append_nil s, hs.2]
    exact ⟨hs.1, hstate⟩
  cases h with
  | nil => exact hcopied (by decide) ⟨rfl, rfl⟩
  | letter hi => exact hcopied (by decide) (copies_singleton (if_pos hi) rfl)
  | word hw => exact hcopied (by decide) (copies_word hw)
  | list hw hxs =>
      obtain ⟨hloop, hrun⟩ := copies_open hw
      obtain ⟨hloop', hrun'⟩ := run_placeholders hxs
      rw [List.append_nil, normalizeLoop_append, hloop, hrun, hloop', run_append, hrun, hrun']
      exact ⟨rfl, by decide⟩
  | otherList hw hxs hc hend hbody =>
      obtain ⟨hloop, hrun⟩ := copies_open hw
      obtain ⟨hloop', hrun'⟩ := run_placeholders hxs
      obtain ⟨hback, hrest⟩ := copies_other hc hend hbody
      rw [normalizeLoop_append, hloop, hrun, normalizeLoop_append, hloop', hrun', run_append, hrun,
        run_append, hrun', hback, hrest]
      exact ⟨rfl, by decide⟩

theorem exists_span (f : UInt8 → Bool) (s : Bytes) :
    (∀ b ∈ s, f b) ∨ ∃ xs c t, s = xs ++ c :: t ∧ (∀ b ∈ xs, f b) ∧ f c = false := by
  induction s with
  | nil => exact .inl (List.forall_mem_nil _)
  | cons b s ih =>
      cases hb : f b with
      | false => exact .inr ⟨[], b, s, rfl, List.forall_mem_nil _, hb⟩
      | true =>
          rcases ih with hall | ⟨xs, c, t, rfl, hxs, hc⟩
          · exact .inl (List.forall_mem_cons.mpr ⟨hb, hall⟩)
          · exact .inr ⟨b :: xs, c, t, rfl, List.forall_mem_cons.mpr ⟨hb, hxs⟩, hc⟩

theorem stretch_or_last_list {w : Bytes} (hw : IsWord w) (t : Bytes) :
    (∃ front xs back closed u, Stretch front xs back closed ∧
      w ++ lparen :: t = front ++ (xs ++ (back ++ u)) ∧ u.length < (w ++ lparen :: t).length) ∨
    ∃ front xs back keyword, LastStretch front xs back keyword ∧
      w ++ lparen :: t = front ++ (xs ++ back) := by
  rcases exists_span isPlaceholder t with hxs | ⟨xs, c, u, rfl, hxs, hc⟩
  · refine .inr ⟨_, t, [], false, .list hw hxs, ?_⟩
    simp only [List.append_assoc, List.cons_append, List.nil_append, List.append_nil]
  · by_cases hend : c = rparen
    · subst hend
      refine .inl ⟨_, xs, _, true, u, .list hw hxs, ?_, ?_⟩
      · simp only [List.append_assoc, List.cons_append, List.nil_append]
      · simp only [List.length_append, List.length_cons]
        omega
    · by_cases hclosed : rparen ∈ u
      · obtain ⟨body, u, rfl, hbody⟩ := List.eq_append_cons_of_mem hclosed
        refine .inl ⟨_, xs, _, false, u, .otherList hw hxs hc hend hbody, ?_, ?_⟩
        · simp only [List.append_assoc, List.cons_append, List.nil_append]
        · simp only [List.length_append, List.length_cons]
          omega
      · refine .inr ⟨_, xs, _, false, .otherList hw hxs hc hend hclosed, ?_⟩
        simp only [List.append_assoc, List.cons_append, List.nil_append]

theorem stretch_or_last (s : Bytes) :
    (∃ front xs back closed t, Stretch front xs back closed ∧
      s = front ++ (xs ++ (back ++ t)) ∧ t.length < s.length) ∨
    ∃ front xs back keyword, LastStretch front xs back keyword ∧ s = front ++ (xs ++ back) := by
  cases s with
  | nil => exact .inr ⟨[], [], [], false, .nil, rfl⟩
  | cons i s =>
      by_cases hi : IsLetterI i
      · cases s with
        | nil => exact .inr ⟨[i], [], [], false, .letter hi, rfl⟩
        | cons n s =>
            by_cases hn : IsLetterN n
            · rcases exists_span isSpace s with hblanks | ⟨blanks, c, t, rfl, hblanks, hc⟩
              · refine .inr ⟨_, [], [], true, .word (.mk hi hn hblanks), ?_⟩
                exact (List.append_nil _).symm
              · have hw : IsWord (i :: n :: blanks) := .mk hi hn hblanks
                by_cases hparen : c = lparen
                · subst hparen
                  exact stretch_or_last_list hw t
                · refine .inl ⟨_, [], [], false, t, .word hw hc hparen, ?_, ?_⟩
                  · simp only [List.append_assoc, List.cons_append, List.nil_append]
                  · simp only [List.length_cons, List.length_append]
                    omega
            · exact .inl ⟨[i, n], [], [], false, s, .letter hi hn, rfl, by
                simp only [List.length_cons]; omega⟩
      · exact .inl ⟨[i], [], [], false, s, .plain hi, rfl, Nat.lt_succ_self _⟩

theorem exists_stretches (s : Bytes) : ∃ lists keyword, Stretches s lists keyword := by
  induction hlen : s.length using Nat.strong_induction_on generalizing s with
  | _ n ih =>
      subst hlen
      rcases stretch_or_last s with ⟨front, xs, back, closed, t, h, rfl, hlt⟩ |
        ⟨front, xs, back, keyword, h, rfl⟩
      · obtain ⟨lists, keyword, hs⟩ := ih t.length hlt t rfl
        exact ⟨_, keyword, .cons h hs⟩
      · exact ⟨_, keyword, .last h⟩

theorem Stretch.normalizeLoop_append {front xs back : Bytes} {closed : Bool}
    (h : Stretch front xs back closed) (s : Bytes) :
    normalizeLoop .initial (front ++ (xs ++ (back ++ s))) =
      front ++ (collapsed closed ++ (back ++ normalizeLoop .initial s)) := by
  have hassoc : front ++ (xs ++ (back ++ s)) = front ++ (xs ++ back) ++ s := by
    simp only [List.append_assoc]
  rw [hassoc, Util.normalizeLoop_append, h.run.1, h.run.2]
  simp only [List.append_assoc]

/-! ### The room that a text takes -/

/-- In all lists of a text together there are at least as many placeholders as there are lists
that hold nothing else and are closed. -/
def ListsFit (lists : List (Bytes × Bool)) : Prop :=
  lists.countP (·.2) ≤ (lists.map fun l => l.1.length).sum

theorem length_normalizeLoop {s : Bytes} {lists : List (Bytes × Bool)} {keyword : Bool}
    (h : Stretches s lists keyword) :
    (normalizeLoop .initial s).length + (lists.map fun l => l.1.length).sum =
      s.length + lists.countP (·.2) := by
  induction h with
  | last h =>
      rw [h.run.1]
      simp only [collapsed, List.length_append, List.map_cons, List.map_nil, List.sum_cons,
        List.sum_nil, List.countP_cons, List.countP_nil, Bool.false_eq_true, if_false,
        List.length_nil]
      omega
  | @cons front xs back s closed keyword lists h hs ih =>
      rw [h.normalizeLoop_append]
      simp only [List.length_append, List.map_cons, List.sum_cons, List.countP_cons]
      cases closed with
      | true =>
          simp only [collapsed, if_true, List.length_singleton]
          omega
      | false =>
          simp only [collapsed, Bool.false_eq_true, if_false, List.length_nil]
          omega

/-- The loop goes wrong exactly if what it writes, with the zero at its end, is longer than the
buffer. -/
theorem normalizeLoop_terminated (capacity : ℕ) (state : NormalizeState) {s : Bytes}
    (hzero : 0 ∉ s) (out : Bytes) :
    Memory.normalizeLoop capacity state (terminated s) out =
      if out.length + (normalizeLoop state s).length + 1 ≤ capacity then
        .ok (out ++ (normalizeLoop state s ++ [0])) else .error .write := by
  induction s generalizing state out with
  | nil => rfl
  | cons b s ih =>
      obtain ⟨hb, hs⟩ := not_or.mp (mt List.mem_cons.mpr hzero)
      rw [terminated_cons, Memory.normalizeLoop, if_neg (Ne.symm hb), normalizeLoop, store,
        List.length_append]
      by_cases hroom : out.length + (state.written b).length ≤ capacity
      · rw [if_pos hroom, ok_bind, ih _ hs, List.length_append]
        simp only [List.append_assoc, Nat.add_assoc]
      · rw [if_neg hroom, if_neg (by omega)]
        rfl

/-- `nr_sql_normalize` stays inside its buffer exactly if the placeholders that it leaves out are
as many as the ones that it writes. -/
theorem nrSqlNormalize_fits_iff (sql : Bytes) (hne : sql ≠ []) (hzero : 0 ∉ sql) :
    (∃ normalized, Memory.nrSqlNormalize (some (terminated sql)) = .ok normalized) ↔
      ∃ lists keyword, Stretches sql lists keyword ∧ ListsFit lists := by
  have hrun : Memory.nrSqlNormalize (some (terminated sql)) =
      if (normalizeLoop .initial sql).length ≤ sql.length then
        .ok (some (normalizeLoop .initial sql ++ [0])) else .error .write := by
    obtain ⟨b, s, rfl⟩ := List.exists_cons_of_ne_nil hne
    have hb : b ≠ 0 := fun h => hzero (List.mem_cons.mpr (.inl h.symm))
    rw [Memory.nrSqlNormalize, terminated_cons, load_cons, ok_bind, if_neg hb, ← terminated_cons,
      strlen_terminated hzero, ok_bind, normalizeLoop_terminated _ _ hzero, List.length_nil,
      Nat.zero_add, List.nil_append]
    simp only [Nat.add_le_add_iff_right]
    split_ifs with hroom
    · rfl
    · rfl
  rw [hrun]
  constructor
  · rintro ⟨normalized, h⟩
    split_ifs at h with hroom
    obtain ⟨lists, keyword, hs⟩ := exists_stretches sql
    have hlen := length_normalizeLoop hs
    refine ⟨lists, keyword, hs, ?_⟩
    rw [ListsFit]
    omega
  · rintro ⟨lists, keyword, hs, hfit⟩
    have hlen := length_normalizeLoop hs
    rw [ListsFit] at hfit
    exact ⟨_, if_pos (by omega)⟩

theorem nrSqlNormalize_fits_iff_in :
    (∃ normalized, Memory.nrSqlNormalize (some (terminated [0x69, 0x6e])) = .ok normalized) ↔
      ∃ lists keyword, Stretches [0x69, 0x6e] lists keyword ∧ ListsFit lists :=
  nrSqlNormalize_fits_iff [0x69, 0x6e] (List.cons_ne_nil _ _) (by decide)

/-- The keyword and an empty list: a question mark is put between the parentheses. -/
theorem nrSqlNormalize_overflows :
    ¬ ∀ sql : Bytes, sql ≠ [] → 0 ∉ sql →
      ∃ normalized, Memory.nrSqlNormalize (some (terminated sql)) = .ok normalized := by
  intro h
  obtain ⟨normalized, hrun⟩ :=
    h [0x69, 0x6e, lparen, rparen] (List.cons_ne_nil _ _) (by decide)
  have hrun' : Memory.nrSqlNormalize (some (terminated [0x69, 0x6e, lparen, rparen])) =
      .error .write := rfl
  rw [hrun'] at hrun
  cases hrun

/-! ### Statements that differ in the lengths of their lists -/

/-- Placeholders with a comma between one and the next, and white space wherever it may stand. -/
inductive IsPlaceholderList : Bytes → Prop
  | one {l r : Bytes} (hl : ∀ b ∈ l, isSpace b) (hr : ∀ b ∈ r, isSpace b) :
      IsPlaceholderList (l ++ questionMark :: r)
  | more {l r rest : Bytes} (hl : ∀ b ∈ l, isSpace b) (hr : ∀ b ∈ r, isSpace b)
      (h : IsPlaceholderList rest) : IsPlaceholderList (l ++ questionMark :: (r ++ comma :: rest))

/-- The keyword, with white space in front of it, is the last word of the text. -/
def EndsAtKeyword (p : Bytes) : Prop :=
  ∃ before b w, isSpace b = true ∧ IsWord w ∧ p = before ++ b :: w

/-- A list for every text in front of one. -/
def Fills (pieces lists : List Bytes) : Prop :=
  List.Forall₂ (fun _ xs => IsPlaceholderList xs) pieces lists

/-- The texts with their lists between them. -/
def render : List Bytes → List Bytes → Bytes → Bytes
  | p :: pieces, xs :: lists, last => p ++ lparen :: (xs ++ rparen :: render pieces lists last)
  | _, _, last => last

/-- The shortest of the statements. -/
def shortest (pieces : List Bytes) (last : Bytes) : Bytes :=
  render pieces (pieces.map fun _ => [questionMark]) last

/-- What the texts are that `nr_sql_normalize` should make of statements that differ in their
lists only, and that they have one identifier. What it makes of the empty statement is nothing. -/
structure SharesId (pieces : List Bytes) (last : Bytes) : Prop where
  text : ∀ lists, Fills pieces lists →
    (nrSqlNormalize (some (render pieces lists last))).getD [] = shortest pieces last
  sameText : ∀ lists lists', Fills pieces lists → Fills pieces lists' →
    nrSqlNormalize (some (render pieces lists last)) =
      nrSqlNormalize (some (render pieces lists' last))
  normalizedId : ∀ lists lists', Fills pieces lists → Fills pieces lists' →
    nrSqlNormalizedId (some (render pieces lists last)) =
      nrSqlNormalizedId (some (render pieces lists' last))
  sqlId : ∀ raw raw' lists lists', Fills pieces lists → Fills pieces lists' →
    Memory.nrSqlObfuscate raw = .ok (some (render pieces lists last)) →
    Memory.nrSqlObfuscate raw' = .ok (some (render pieces lists' last)) →
    Memory.nrSqlId raw = Memory.nrSqlId raw'

/-- The placeholders of every list of the text are what is written for them. -/
def LeftAlone (lists : List (Bytes × Bool)) : Prop := ∀ l ∈ lists, l.1 = collapsed l.2

/-- The scan of the text copies it and comes to the keyword at its end. -/
def ReachesKeyword (p : Bytes) : Prop := ∃ lists, Stretches p lists true ∧ LeftAlone lists

/-- The scan copies the text. -/
def StaysSame (p : Bytes) : Prop := ∃ lists keyword, Stretches p lists keyword ∧ LeftAlone lists

theorem IsPlaceholderList.isPlaceholder {xs : Bytes} (h : IsPlaceholderList xs) :
    ∀ b ∈ xs, isPlaceholder b := by
  have hspace : ∀ {l : Bytes}, (∀ b ∈ l, isSpace b) → ∀ b ∈ l, Util.isPlaceholder b := by
    intro l hl b hb
    rw [Util.isPlaceholder, hl b hb, Bool.or_true]
  induction h with
  | one hl hr =>
      exact List.forall_mem_append.mpr ⟨hspace hl, List.forall_mem_cons.mpr ⟨rfl, hspace hr⟩⟩
  | more hl hr h ih =>
      refine List.forall_mem_append.mpr ⟨hspace hl, List.forall_mem_cons.mpr ⟨rfl, ?_⟩⟩
      exact List.forall_mem_append.mpr ⟨hspace hr, List.forall_mem_cons.mpr ⟨rfl, ih⟩⟩

theorem Stretches.run {s : Bytes} {lists : List (Bytes × Bool)} {keyword : Bool}
    (h : Stretches s lists keyword) :
    NormalizeState.run .initial s = .seenIn ↔ keyword = true := by
  induction h with
  | last h => exact h.run.2
  | @cons front xs back s closed keyword lists h hs ih =>
      have hassoc : front ++ (xs ++ (back ++ s)) = front ++ (xs ++ back) ++ s := by
        simp only [List.append_assoc]
      rw [hassoc, run_append, h.run.2]
      exact ih

theorem Stretches.copied {s : Bytes} {lists : List (Bytes × Bool)} {keyword : Bool}
    (h : Stretches s lists keyword) (hsame : LeftAlone lists) :
    normalizeLoop .initial s = s := by
  induction h with
  | last h =>
      rw [h.run.1, ← hsame _ List.mem_cons_self]
  | cons h hs ih =>
      obtain ⟨hfirst, hrest⟩ := List.forall_mem_cons.mp hsame
      rw [h.normalizeLoop_append, ← hfirst, ih hrest]

/-- Where the placeholders of a list are not what is written for them, the difference is seen. -/
theorem Stretch.differs {front xs back : Bytes} {closed : Bool} (h : Stretch front xs back closed)
    (hxs : xs ≠ collapsed closed) (s t : Bytes) :
    front ++ (collapsed closed ++ (back ++ s)) ≠ front ++ (xs ++ (back ++ t)) := by
  intro heq
  replace heq := List.append_cancel_left heq
  cases h with
  | plain hb => exact hxs rfl
  | letter hi hc => exact hxs rfl
  | word hw hspace hc => exact hxs rfl
  | list hw hplaceholders =>
      cases xs with
      | nil => exact absurd (List.cons.inj heq).1 (by decide)
      | cons x xs =>
          obtain ⟨rfl, hrest⟩ := List.cons.inj heq
          cases xs with
          | nil => exact hxs rfl
          | cons y ys =>
              obtain rfl : rparen = y := (List.cons.inj hrest).1
              exact absurd (hplaceholders rparen (List.mem_cons_of_mem _ List.mem_cons_self))
                (by decide)
  | @otherList w xs body c hw hplaceholders hc hend hbody =>
      cases xs with
      | nil => exact hxs rfl
      | cons x xs =>
          obtain rfl : c = x := (List.cons.inj heq).1
          rw [hplaceholders c List.mem_cons_self] at hc
          cases hc

theorem Stretches.differs {s : Bytes} {lists : List (Bytes × Bool)} {keyword : Bool}
    (h : Stretches s lists keyword) (hchanged : ¬ LeftAlone lists) :
    normalizeLoop .initial s ≠ s ∧
      (keyword = true → ∀ t u, normalizeLoop .initial s ++ t ≠ s ++ u) := by
  induction h with
  | @last front xs back keyword h =>
      have hxs : xs ≠ [] := fun hxs => hchanged (List.forall_mem_singleton.mpr hxs)
      have hlen := List.length_pos_of_ne_nil hxs
      refine ⟨fun heq => ?_, fun hkeyword => ?_⟩
      · have hle := congrArg List.length heq
        rw [h.run.1] at hle
        simp only [collapsed, List.length_append, Bool.false_eq_true, if_false,
          List.length_nil] at hle
        omega
      · cases h with
        | word hw => exact absurd rfl hxs
        | nil => cases hkeyword
        | letter hi => cases hkeyword
        | list hw hp => cases hkeyword
        | otherList hw hp hc hend hbody => cases hkeyword
  | @cons front xs back s closed keyword lists h hs ih =>
      rw [h.normalizeLoop_append]
      by_cases hxs : xs = collapsed closed
      · obtain ⟨hne, hnever⟩ := ih fun hrest => hchanged (List.forall_mem_cons.mpr ⟨hxs, hrest⟩)
        rw [hxs]
        refine ⟨fun heq => ?_, fun hkeyword t u heq => hnever hkeyword t u ?_⟩
        · exact hne (List.append_cancel_left (List.append_cancel_left
            (List.append_cancel_left heq)))
        · simp only [List.append_assoc] at heq
          exact List.append_cancel_left (List.append_cancel_left (List.append_cancel_left heq))
      · refine ⟨h.differs hxs _ _, fun _ t u heq => ?_⟩
        simp only [List.append_assoc] at heq
        exact h.differs hxs _ _ heq

/-- Behind the keyword a list of placeholders becomes one placeholder. -/
theorem normalizeLoop_seenIn {xs : Bytes} (hxs : ∀ b ∈ xs, isPlaceholder b) (s : Bytes) :
    normalizeLoop .seenIn (lparen :: (xs ++ rparen :: s)) =
      lparen :: questionMark :: rparen :: normalizeLoop .initial s := by
  obtain ⟨hloop, hrun⟩ := run_placeholders hxs
  have hopen : normalizeLoop .seenIn (lparen :: (xs ++ rparen :: s)) =
      lparen :: normalizeLoop .placeholders (xs ++ rparen :: s) := rfl
  rw [hopen, normalizeLoop_append, hloop, hrun]
  rfl

theorem normalizeLoop_of_ne_seenIn {state : NormalizeState} (h : state ≠ .seenIn) (s : Bytes) :
    normalizeLoop state (lparen :: ([questionMark] ++ rparen :: s)) =
        lparen :: questionMark :: rparen :: normalizeLoop .initial s ∧
      normalizeLoop state (lparen :: ([questionMark, comma, questionMark] ++ rparen :: s)) =
        lparen :: questionMark :: comma :: questionMark :: rparen :: normalizeLoop .initial s := by
  cases state with
  | initial => exact ⟨rfl, rfl⟩
  | seenI => exact ⟨rfl, rfl⟩
  | seenIn => exact absurd rfl h
  | placeholders => exact ⟨rfl, rfl⟩
  | otherList => exact ⟨rfl, rfl⟩

theorem isPlaceholderList_one : IsPlaceholderList [questionMark] :=
  .one (l := []) (r := []) (List.forall_mem_nil _) (List.forall_mem_nil _)

theorem isPlaceholderList_two : IsPlaceholderList [questionMark, comma, questionMark] :=
  .more (l := []) (r := []) (List.forall_mem_nil _) (List.forall_mem_nil _) isPlaceholderList_one

theorem fills_shortest (pieces : List Bytes) :
    Fills pieces (pieces.map fun _ => [questionMark]) := by
  induction pieces with
  | nil => exact .nil
  | cons p pieces ih => exact .cons isPlaceholderList_one ih

theorem normalizeLoop_render {pieces : List Bytes} {last : Bytes}
    (hpieces : ∀ p ∈ pieces, ReachesKeyword p) (hlast : StaysSame last) {lists : List Bytes}
    (hfills : Fills pieces lists) :
    normalizeLoop .initial (render pieces lists last) = shortest pieces last := by
  induction hfills with
  | nil =>
      obtain ⟨ls, keyword, hs, hsame⟩ := hlast
      exact hs.copied hsame
  | @cons p xs pieces lists hxs hfills ih =>
      obtain ⟨⟨ls, hs, hsame⟩, hpieces⟩ := List.forall_mem_cons.mp hpieces
      rw [render, normalizeLoop_append, hs.copied hsame, hs.run.mpr rfl,
        normalizeLoop_seenIn hxs.isPlaceholder, ih hpieces]
      rfl

theorem reachesKeyword_of_render {pieces : List Bytes} {last : Bytes}
    (h : ∀ lists, Fills pieces lists →
      normalizeLoop .initial (render pieces lists last) = shortest pieces last) :
    (∀ p ∈ pieces, ReachesKeyword p) ∧ StaysSame last := by
  induction pieces with
  | nil =>
      have hlast : normalizeLoop .initial last = last := h [] .nil
      obtain ⟨ls, keyword, hs⟩ := exists_stretches last
      refine ⟨nofun, ls, keyword, hs, ?_⟩
      by_contra hchanged
      exact (hs.differs hchanged).1 hlast
  | cons p pieces ih =>
      have hshort := fills_shortest pieces
      have hone := h _ (.cons isPlaceholderList_one hshort)
      have htwo := h _ (.cons isPlaceholderList_two hshort)
      rw [render, normalizeLoop_append] at hone htwo
      -- a list of two placeholders shows whether the scan is at the keyword
      have hstate : NormalizeState.run .initial p = .seenIn := by
        by_contra hstate
        have hcopied := normalizeLoop_of_ne_seenIn hstate
          (render pieces (pieces.map fun _ => [questionMark]) last)
        rw [hcopied.1] at hone
        rw [hcopied.2, ← hone] at htwo
        have hlen := congrArg List.length (List.append_cancel_left htwo)
        simp only [List.length_cons] at hlen
        omega
      obtain ⟨ls, keyword, hs⟩ := exists_stretches p
      have hkeyword := hs.run.mp hstate
      have hsame : LeftAlone ls := by
        by_contra hchanged
        exact (hs.differs hchanged).2 hkeyword _ _ hone
      obtain ⟨hpieces, hlast⟩ := ih fun lists hfills => by
        have hrest := h _ (.cons isPlaceholderList_one hfills)
        rw [render, normalizeLoop_append, hs.copied hsame, hstate,
          normalizeLoop_seenIn isPlaceholderList_one.isPlaceholder] at hrest
        have hbehind := List.append_cancel_left (hrest : _ = p ++ lparen :: questionMark :: rparen ::
          shortest pieces last)
        exact (List.cons.inj (List.cons.inj (List.cons.inj hbehind).2).2).2
      exact ⟨List.forall_mem_cons.mpr ⟨⟨ls, hkeyword ▸ hs, hsame⟩, hpieces⟩, hlast⟩

theorem nrSqlNormalize_getD (sql : Bytes) :
    (nrSqlNormalize (some sql)).getD [] = normalizeLoop .initial sql := by
  cases sql with
  | nil => rfl
  | cons b s => rfl

/-- There is nothing to normalize in the empty statement, and in no other one. -/
theorem nrSqlNormalize_eq_of_loop_eq {s t : Bytes}
    (h : normalizeLoop .initial s = normalizeLoop .initial t) :
    nrSqlNormalize (some s) = nrSqlNormalize (some t) := by
  cases s with
  | nil =>
      cases t with
      | nil => rfl
      | cons b t => cases h
  | cons b s =>
      cases t with
      | nil => cases h
      | cons c t => exact congrArg some h

/-- Statements that differ in their lists only have one identifier exactly if the scan comes to
the keyword in front of every one of the lists, and finds nothing to change anywhere else. -/
theorem sharesId_iff (pieces : List Bytes) (last : Bytes) :
    SharesId pieces last ↔ (∀ p ∈ pieces, ReachesKeyword p) ∧ StaysSame last := by
  constructor
  · intro h
    exact reachesKeyword_of_render fun lists hfills => nrSqlNormalize_getD _ ▸ h.text lists hfills
  · rintro ⟨hpieces, hlast⟩
    have hloop : ∀ {lists}, Fills pieces lists →
        normalizeLoop .initial (render pieces lists last) = shortest pieces last :=
      normalizeLoop_render hpieces hlast
    have hsame : ∀ lists lists', Fills pieces lists → Fills pieces lists' →
        nrSqlNormalize (some (render pieces lists last)) =
          nrSqlNormalize (some (render pieces lists' last)) := fun lists lists' hfills hfills' =>
      nrSqlNormalize_eq_of_loop_eq ((hloop hfills).trans (hloop hfills').symm)
    have hid : ∀ lists lists', Fills pieces lists → Fills pieces lists' →
        nrSqlNormalizedId (some (render pieces lists last)) =
          nrSqlNormalizedId (some (render pieces lists' last)) := by
      intro lists lists' hfills hfills'
      rw [nrSqlNormalizedId, nrSqlNormalizedId, hsame lists lists' hfills hfills']
    refine ⟨fun lists hfills => ?_, hsame, hid, ?_⟩
    · rw [nrSqlNormalize_getD]
      exact hloop hfills
    · intro raw raw' lists lists' hfills hfills' hraw hraw'
      rw [Memory.nrSqlId, Memory.nrSqlId, hraw, hraw', ok_bind, ok_bind]
      change Except.ok _ = Except.ok _
      rw [hid lists lists' hfills hfills']

/-- A column whose name ends in the two letters: they and the white space behind them are taken
for the keyword, and the first letter of the keyword is gone with the byte that shows they were
not. -/
theorem not_sharesId :
    ¬ ∀ (pieces : List Bytes) (last : Bytes), (∀ p ∈ pieces, EndsAtKeyword p) →
      SharesId pieces last := by
  intro h
  have hword : IsWord (ascii "IN ") := .mk (.inr rfl) (.inr rfl) (List.forall_mem_singleton.mpr rfl)
  have hpiece : EndsAtKeyword (ascii "login IN ") := ⟨ascii "login", 0x20, _, rfl, hword, rfl⟩
  have hshares := h [ascii "login IN "] [] (List.forall_mem_singleton.mpr hpiece)
  have htext :=
    hshares.text [[questionMark, comma, questionMark]] (.cons isPlaceholderList_two .nil)
  have hlen := congrArg List.length htext
  rw [nrSqlNormalize_getD] at hlen
  exact absurd hlen (by decide)

end AxiomDaemon.Util

import AxiomDaemon.Util.Reply
import AxiomDaemon.Util.SqlComments

/-!
What a statement does and to which table, `nr_sql_get_operation_and_table` of
`util_sql.c`, on a string in memory. Lengths of spans are of type `int`; a span
that is too long for it is a fault of its own.
-/

namespace AxiomDaemon.Util

open AxiomDaemon.Lib AxiomDaemon.Lib.Json AxiomDaemon.Lib.CText

abbrev backquote : UInt8 := 0x60
abbrev semicolon : UInt8 := 0x3b

/-- `NR_SQL_DELIMITER_CHARS`. -/
def delimiterChars : Bytes :=
  whitespaceChars ++ [apostrophe, quote, backquote, lparen, lbracket, 0x40, lbrace]

/-- What ends the name of a table, but for a dot. -/
def closingChars : Bytes := [rbracket, rbrace, rparen, semicolon, comma, star, slash]

/-- `nr_sql_parse_type_t`. -/
inductive SqlParseType
  | update
  | fromTable
  | intoTable
  deriving DecidableEq

/-- `operations`. -/
def sqlOperations : List (Bytes × SqlParseType) :=
  [(ascii "select", .fromTable), (ascii "update", .update), (ascii "insert", .intoTable),
    (ascii "replace", .intoTable), (ascii "delete", .fromTable)]

namespace Memory

/-- Whether `name` is read, upper or lower case: `nr_strnicmp` with the length of `name`, and the
comparisons of `nr_tolower` with one letter after the other. -/
def startsWithNoCase : Bytes → Bytes → Checked Bool
  | [], _ => .ok true
  | _ :: _, [] => .error .read
  | c :: name, b :: p =>
      if lowerByte b = lowerByte c then startsWithNoCase name p else .ok false

/-- The first of the operations that the statement starts with. -/
def findOperation (sql : Bytes) :
    List (Bytes × SqlParseType) → Checked (Option (Bytes × SqlParseType))
  | [] => .ok none
  | operation :: operations => do
      if ← startsWithNoCase operation.1 sql then return some operation
      else findOperation sql operations

/-- `nr_sql_parse_over`. -/
def nrSqlParseOver (str : Bytes) (character : UInt8) : Checked (Option Bytes) := do
  let cend ← strchr character str
  return cend.map (·.drop 1)

/-- The keyword and a delimiter, or the end of the statement. -/
def keywordAhead (keyword x : Bytes) : Checked Bool := do
  if ← startsWithNoCase keyword x then
    let next ← load (x.drop 4)
    let found ← strchr next (terminated delimiterChars)
    return found.isSome
  else return false

theorem strchr_nrSqlParseOver {str r : Bytes} {c : UInt8}
    (h : nrSqlParseOver str c = .ok (some r)) : r.length < str.length := by
  rw [nrSqlParseOver] at h
  cases hfound : strchr c str with
  | error e =>
      rw [hfound] at h
      cases h
  | ok cend =>
      rw [hfound, ok_bind] at h
      cases cend with
      | none => cases h
      | some cend =>
          obtain rfl : cend.drop 1 = r := Option.some.inj (Except.ok.inj h)
          rw [List.drop_one]
          exact length_tail_lt_of_strchr hfound

/-- The loop that looks for the keyword in front of the table: where it has found the keyword or
the end of the statement, if it does not give up. -/
def findKeyword (keyword : Bytes) : Bytes → Checked (Option Bytes)
  | [] => .error .read
  | b :: x =>
      if _hb : b = 0 then .ok (some (b :: x))
      else
        match _hp : nrSqlWhitespaceCommentPrefix (some (b :: x)) with
        | .error e => .error e
        | .ok none => .ok none
        | .ok (some []) => .error .read
        | .ok (some (c :: y)) =>
            if _hc : c = apostrophe ∨ c = quote then
              match _ho : nrSqlParseOver y c with
              | .error e => .error e
              | .ok none => .ok none
              | .ok (some r) => findKeyword keyword r
            else do
              if ← keywordAhead keyword (c :: y) then return some ((c :: y).drop 4)
              else
                match _hs : nrStrcspn (c :: y) (whitespaceChars ++ [apostrophe, quote]) with
                | .error e => .error e
                | .ok sl => findKeyword keyword ((c :: y).drop sl)
termination_by x => x.length
decreasing_by
  · have hlen := (nrSqlWhitespaceCommentPrefix_eq_some _hp).1.length_le
    have hlt := strchr_nrSqlParseOver _ho
    rw [List.length_cons] at hlen
    omega
  · obtain ⟨hsuffix, hspace⟩ := nrSqlWhitespaceCommentPrefix_eq_some _hp
    have hlen := hsuffix.length_le
    rw [List.length_drop]
    by_cases hzero : c = 0
    · have hne : c :: y ≠ b :: x := fun he => _hb ((List.cons.inj he).1 ▸ hzero)
      have hlt := hsuffix.sublist.length_le.lt_of_ne fun he => hne (hsuffix.eq_of_length he)
      omega
    · have hsl := one_le_of_strcspn hzero (by
        simp only [List.mem_append, List.mem_cons, List.not_mem_nil, or_false, not_or]
        exact ⟨hspace c rfl, not_or.mp _hc⟩) (nrStrcspn_eq_ok _hs)
      have hpos : 0 < (c :: y).length := Nat.succ_pos _
      omega

/-- The quote in front of a name, if there is one, is stepped over. -/
def skipOpening : Bytes → Checked Bytes
  | [] => .error .read
  | b :: x =>
      .ok (if b = backquote ∨ b = apostrophe ∨ b = quote ∨ b = lbrace then x else b :: x)

theorem length_skipOpening {x start : Bytes} (h : skipOpening x = .ok start) :
    start.length ≤ x.length := by
  cases x with
  | nil => cases h
  | cons b x =>
      obtain rfl := Except.ok.inj h
      split
      · exact Nat.le_succ _
      · exact le_rfl

/-- The loop over the parts of a name: the last part, unless it is empty. -/
def tableName (x : Bytes) : Checked (Option Bytes) :=
  match _hstart : skipOpening x with
  | .error e => .error e
  | .ok start => do
      let length ← nrStrcspn start (delimiterChars ++ closingChars ++ [dot])
      let sl ← nrStrspn (start.drop length) (delimiterChars ++ closingChars)
      match _hdot : (start.drop length).drop sl with
      | [] => .error .read
      | c :: rest =>
          if c = dot then tableName rest
          else return if length = 0 then none else some (start.take length)
termination_by x.length
decreasing_by
  have hle := length_skipOpening _hstart
  have hlen := congrArg List.length _hdot
  simp only [List.length_drop, List.length_cons] at hlen
  omega

/-- Where the name of the table is expected, if the scan does not give up before. -/
def findTable (opflag : SqlParseType) (sql : Bytes) : Checked (Option Bytes) :=
  match opflag with
  | .update => do
      let sl ← nrStrcspn sql whitespaceChars
      return some (sql.drop sl)
  | .fromTable => findKeyword (ascii "from") sql
  | .intoTable => findKeyword (ascii "into") sql

/-- The table at `x`: there may be a parenthesis around its name, or around a query. -/
def tableAt : Bytes → Checked (Option Bytes)
  | [] => .error .read
  | b :: x =>
      if b = lparen then do
        let c ← load x
        if c = backquote ∨ c = apostrophe ∨ c = quote then tableName x
        else
          let sl ← nrStrcspn x (whitespaceChars ++
            [comma, backquote, rparen, apostrophe, quote, semicolon])
          let c ← load (x.drop sl)
          if c = rparen ∨ c = comma then tableName x
          else return some (ascii "(subquery)")
      else tableName (b :: x)

/-- `nr_sql_get_operation_and_table`: the operation and the table. The flags say whether there is
a place for the one and for the other. -/
def nrSqlGetOperationAndTable (sql : Option Bytes) (operationPtr tablePtr : Bool) :
    Checked (Option Bytes × Option Bytes) := do
  if ¬ tablePtr ∨ ¬ operationPtr then return (none, none)
  else
    match ← nrSqlWhitespaceCommentPrefix sql with
    | none => return (none, none)
    | some sql =>
        match ← findOperation sql sqlOperations with
        | none => return (none, none)
        | some (opname, opflag) =>
            match ← findTable opflag sql with
            | none => return (some opname, none)
            | some x =>
                match ← nrSqlWhitespaceCommentPrefix (some x) with
                | none => return (some opname, none)
                | some x => return (some opname, ← tableAt x)

end Memory

/-! ### What the parser finds -/

/-- A name that starts the text, upper or lower case. -/
def IsPrefixNoCase (name text : Bytes) : Prop := name.map lowerByte <+: text.map lowerByte

/-- A part of the text that holds no delimiter and no dot, and something. -/
structure IsTableName (text name : Bytes) : Prop where
  ne_nil : name ≠ []
  inText : name <:+: text
  delimiter : ∀ b ∈ name, b ∉ delimiterChars ++ closingChars ++ [dot]

/-- What the operation and the table of a statement are. -/
structure OperationAndTable (sql : Bytes) (found : Option Bytes × Option Bytes) : Prop where
  operation : ∀ name ∈ found.1, name ∈ sqlOperations.map Prod.fst ∧
    ∃ statement, IsStatement sql statement ∧ IsPrefixNoCase name statement
  table : ∀ name ∈ found.2, name = ascii "(subquery)" ∨ IsTableName sql name

theorem lowerByte_ne_zero {b : UInt8} (hb : b ≠ 0) : lowerByte b ≠ 0 := by
  rw [lowerByte]
  split_ifs with h
  · intro he
    have hlo := UInt8.le_iff_toNat_le.mp h.1
    have hhi := UInt8.le_iff_toNat_le.mp h.2
    have heq := congrArg UInt8.toNat he
    simp only [UInt8.toNat_add, UInt8.reduceToNat] at hlo hhi heq
    omega
  · exact hb

namespace Memory

theorem startsWithNoCase_terminated {name : Bytes} (hname : 0 ∉ name) (t : Bytes) :
    startsWithNoCase name (terminated t) =
      .ok (decide (name.map lowerByte <+: t.map lowerByte)) := by
  induction name generalizing t with
  | nil =>
      rw [startsWithNoCase, List.map_nil, decide_eq_true List.nil_prefix]
  | cons c name ih =>
      obtain ⟨hc, hname⟩ := not_or.mp (mt List.mem_cons.mpr hname)
      cases t with
      | nil =>
          have hlower : lowerByte 0 ≠ lowerByte c := Ne.symm (lowerByte_ne_zero (Ne.symm hc))
          rw [terminated_nil, startsWithNoCase, if_neg hlower]
          rfl
      | cons b t =>
          rw [terminated_cons, startsWithNoCase, List.map_cons, List.map_cons]
          simp only [List.cons_prefix_cons]
          split_ifs with hbc
          · rw [ih hname]
            simp only [hbc, true_and]
          · rw [decide_eq_false fun h => hbc h.1.symm]

/-- The pointer is at a place of the text. -/
def At (text p : Bytes) : Prop := ∃ t, t <:+ text ∧ p = terminated t

theorem yields_findOperation (t : Bytes) {operations : List (Bytes × SqlParseType)}
    (hzero : ∀ operation ∈ operations, 0 ∉ operation.1) (fault : Fault → Prop) :
    Yields fault (fun found => ∀ operation ∈ found, operation ∈ operations ∧
      IsPrefixNoCase operation.1 t) (findOperation (terminated t) operations) := by
  induction operations with
  | nil => exact Yields.ok nofun
  | cons operation operations ih =>
      obtain ⟨hop, hzero⟩ := List.forall_mem_cons.mp hzero
      rw [findOperation, startsWithNoCase_terminated hop, ok_bind]
      split_ifs with hstarts
      · refine Yields.ok fun found hfound => ?_
        obtain rfl := Option.some.inj hfound
        have hprefix : _ <+: _ := of_decide_eq_true hstarts
        exact ⟨List.mem_cons_self, hprefix⟩
      · exact (ih hzero).mono fun found h operation hfound =>
          ⟨List.mem_cons_of_mem _ (h operation hfound).1, (h operation hfound).2⟩

theorem yields_nrSqlParseOver {t : Bytes} (hzero : 0 ∉ t) {c : UInt8} (hc : c ≠ 0)
    (fault : Fault → Prop) :
    Yields fault (fun r => ∀ p ∈ r, At t p) (nrSqlParseOver (terminated t) c) := by
  rw [nrSqlParseOver]
  by_cases hmem : c ∈ t
  · obtain ⟨body, r, rfl, hbody⟩ := List.eq_append_cons_of_mem hmem
    rw [strchr_terminated hbody fun hz => hzero (List.mem_append_left _ hz), ok_bind]
    refine Yields.ok fun p hp => ?_
    obtain rfl := Option.some.inj hp
    exact ⟨r, (List.suffix_cons c r).trans (List.suffix_append body _), rfl⟩
  · rw [strchr_terminated_of_notMem hc hmem hzero, ok_bind]
    exact Yields.ok nofun

/-- The keyword is looked at together with the byte behind it, which may be the zero. -/
theorem yields_keywordAhead {keyword : Bytes} (hkeyword : 0 ∉ keyword)
    (hlength : keyword.length = 4) (t : Bytes) (fault : Fault → Prop) :
    Yields fault (fun ahead => ahead = true → At t ((terminated t).drop 4))
      (keywordAhead keyword (terminated t)) := by
  rw [keywordAhead, startsWithNoCase_terminated hkeyword, ok_bind]
  split_ifs with hstarts
  · have hlen := (of_decide_eq_true hstarts : _ <+: _).length_le
    rw [List.length_map, List.length_map, hlength] at hlen
    obtain ⟨found, hfound⟩ :=
      exists_strchr (show (0 : UInt8) ∈ terminated delimiterChars by decide)
        ((t.drop 4).head?.getD 0)
    rw [drop_terminated hlen, load_terminated, ok_bind, hfound, ok_bind]
    exact Yields.ok fun _ => ⟨t.drop 4, List.drop_suffix 4 t, rfl⟩
  · exact Yields.ok nofun

theorem At.of_suffix {text t p : Bytes} (h : At t p) (ht : t <:+ text) : At text p := by
  obtain ⟨u, hu, rfl⟩ := h
  exact ⟨u, hu.trans ht, rfl⟩

/-- The loop comes to its end inside the statement, at the keyword or behind everything. -/
theorem yields_findKeyword {text keyword : Bytes} (hkeyword : 0 ∉ keyword)
    (hlength : keyword.length = 4) (hzero : 0 ∉ text) {t : Bytes} (ht : t <:+ text) :
    Yields (Long text) (fun x => ∀ p ∈ x, At text p) (findKeyword keyword (terminated t)) := by
  induction hlen : t.length using Nat.strong_induction_on generalizing t with
  | _ n ih =>
      subst hlen
      cases t with
      | nil =>
          rw [terminated_nil, findKeyword, dif_pos rfl]
          exact Yields.ok fun p hp => ⟨[], ht, (Option.some.inj hp).symm⟩
      | cons b t =>
          have hb : b ≠ 0 := fun hb => hzero (ht.subset (List.mem_cons.mpr (.inl hb.symm)))
          have hprefix := yields_nrSqlWhitespaceCommentPrefix ht hzero
          rw [terminated_cons] at hprefix ⊢
          rw [findKeyword, dif_neg hb]
          split
          · next e he =>
              rw [he] at hprefix
              exact hprefix
          · exact Yields.ok nofun
          · next he =>
              rw [he] at hprefix
              obtain ⟨u, hu, -⟩ := hprefix [] rfl
              exact absurd hu.symm (List.append_ne_nil_of_right_ne_nil u (List.cons_ne_nil 0 []))
          · next c y he =>
              rw [he] at hprefix
              obtain ⟨u, hu, hstatement⟩ := hprefix (c :: y) rfl
              have hsuffix := hstatement.skips.suffix
              split
              · next hc =>
                  have hc0 : c ≠ 0 := by
                    rintro rfl
                    exact absurd hc (by decide)
                  obtain ⟨d, u, rfl⟩ : ∃ d v, u = d :: v := by
                    cases u with
                    | nil => exact absurd (List.cons.inj hu).1 hc0
                    | cons d v => exact ⟨d, v, rfl⟩
                  rw [terminated_cons] at hu
                  obtain ⟨rfl, rfl⟩ := List.cons.inj hu
                  have hbehind := (List.suffix_cons c u).trans hsuffix
                  have hover := yields_nrSqlParseOver (fun hz => hzero (ht.subset
                    (hbehind.subset hz))) hc0 (Long text)
                  split
                  · next e ho =>
                      rw [ho] at hover
                      exact hover
                  · exact Yields.ok nofun
                  · next r ho =>
                      rw [ho] at hover
                      obtain ⟨v, hv, rfl⟩ := hover r rfl
                      have hle := hv.length_le
                      have hle' := hsuffix.length_le
                      rw [List.length_cons] at hle'
                      exact ih v.length (by omega) ((hv.trans hbehind).trans ht) rfl
              · next hc =>
                  rw [hu]
                  refine (yields_keywordAhead hkeyword hlength u _).bind fun ahead hahead => ?_
                  split_ifs with hfound
                  · refine Yields.ok fun p hp => ?_
                    obtain rfl := Option.some.inj hp
                    exact (hahead hfound).of_suffix (hsuffix.trans ht)
                  · have hspan := yields_nrStrcspn (hsuffix.trans ht) hzero
                      (whitespaceChars ++ [apostrophe, quote])
                    split
                    · next e hs =>
                        rw [hs] at hspan
                        exact hspan
                    · next sl hs =>
                        rw [hs] at hspan
                        obtain rfl : sl = _ := hspan
                        rw [drop_takeWhile_terminated]
                        refine ih _ ?_ (((List.dropWhile_suffix _).trans hsuffix).trans ht) rfl
                        cases u with
                        | nil => exact Nat.succ_pos _
                        | cons d u =>
                            obtain ⟨rfl, -⟩ := List.cons.inj hu
                            -- neither white space nor a quote, so the span is not empty
                            have hd : c ∉ whitespaceChars ++ [apostrophe, quote] := by
                              simp only [List.mem_append, List.mem_cons, List.not_mem_nil,
                                or_false, not_or]
                              exact ⟨hstatement.space c rfl, not_or.mp hc⟩
                            have hle := (List.dropWhile_suffix (l := u)
                              (· ∉ whitespaceChars ++ [apostrophe, quote])).length_le
                            have hle' := hsuffix.length_le
                            rw [List.dropWhile_cons_of_pos (by simpa using hd)]
                            rw [List.length_cons] at hle'
                            omega

theorem zero_notMem_delimiters : (0 : UInt8) ∉ delimiterChars ++ closingChars := by decide

theorem yields_tableName {text t : Bytes} (ht : t <:+ text) (hzero : 0 ∉ text) :
    Yields (Long text) (fun name => ∀ s ∈ name, IsTableName text s) (tableName (terminated t)) := by
  induction hlen : t.length using Nat.strong_induction_on generalizing t with
  | _ n ih =>
      subst hlen
      have hopening : ∃ u, u <:+ t ∧ skipOpening (terminated t) = .ok (terminated u) := by
        cases t with
        | nil => exact ⟨[], List.suffix_rfl, rfl⟩
        | cons b t =>
            rw [terminated_cons, skipOpening]
            split
            · exact ⟨t, List.suffix_cons b t, rfl⟩
            · exact ⟨b :: t, List.suffix_rfl, rfl⟩
      obtain ⟨u, hu, hstart⟩ := hopening
      rw [tableName]
      split
      · next e he =>
          rw [hstart] at he
          cases he
      · next start he =>
          rw [hstart] at he
          obtain rfl : terminated u = start := Except.ok.inj he
          refine (yields_nrStrcspn (hu.trans ht) hzero _).bind ?_
          rintro length rfl
          rw [drop_takeWhile_terminated]
          have hafter := (List.dropWhile_suffix (l := u)
            (· ∉ delimiterChars ++ closingChars ++ [dot])).trans hu
          refine (yields_nrStrspn (hafter.trans ht) zero_notMem_delimiters).bind ?_
          rintro sl rfl
          rw [drop_takeWhile_terminated]
          split
          · next he =>
              exact absurd he (List.append_ne_nil_of_right_ne_nil _ (List.cons_ne_nil 0 []))
          · next c rest he =>
              split_ifs with hdot hempty
              · subst hdot
                obtain ⟨w, hw⟩ : ∃ w, (u.dropWhile (· ∉ delimiterChars ++ closingChars ++
                    [dot])).dropWhile (· ∈ delimiterChars ++ closingChars) = dot :: w := by
                  cases hv : (u.dropWhile (· ∉ delimiterChars ++ closingChars ++
                    [dot])).dropWhile (· ∈ delimiterChars ++ closingChars) with
                  | nil =>
                      rw [hv] at he
                      exact absurd (List.cons.inj he).1 (by decide)
                  | cons d w =>
                      rw [hv] at he
                      exact ⟨w, by rw [(List.cons.inj he).1]⟩
                rw [hw, terminated_cons] at he
                obtain ⟨-, rfl⟩ := List.cons.inj he
                have hrest : dot :: w <:+ t := hw ▸ (List.dropWhile_suffix _).trans hafter
                have hle := hrest.length_le
                rw [List.length_cons] at hle
                exact ih w.length (by omega) (((List.suffix_cons dot w).trans hrest).trans ht) rfl
              · exact Yields.ok nofun
              · refine Yields.ok fun s hs => ?_
                obtain rfl := Option.some.inj hs
                rw [take_takeWhile_terminated]
                refine ⟨fun hnil => hempty (congrArg List.length hnil), ?_, fun b hb => ?_⟩
                · exact (List.takeWhile_prefix _).isInfix.trans (hu.trans ht).isInfix
                · simpa using List.mem_takeWhile_imp hb

theorem yields_tableAt {text t : Bytes} (ht : t <:+ text) (hzero : 0 ∉ text) :
    Yields (Long text)
      (fun name => ∀ s ∈ name, s = ascii "(subquery)" ∨ IsTableName text s)
      (tableAt (terminated t)) := by
  have hname : ∀ {u : Bytes}, u <:+ text → Yields (Long text)
      (fun name => ∀ s ∈ name, s = ascii "(subquery)" ∨ IsTableName text s)
      (tableName (terminated u)) := fun hu =>
    (yields_tableName hu hzero).mono fun name h s hs => .inr (h s hs)
  cases t with
  | nil => exact hname ht
  | cons b t =>
      have ht' := (List.suffix_cons b t).trans ht
      rw [terminated_cons, tableAt]
      split_ifs with hparen
      · rw [load_terminated, ok_bind]
        split_ifs with hquote
        · exact hname ht'
        · refine (yields_nrStrcspn ht' hzero _).bind ?_
          rintro sl rfl
          rw [drop_takeWhile_terminated, load_terminated, ok_bind]
          split_ifs with hend
          · exact hname ht'
          · exact Yields.ok fun s hs => .inl (Option.some.inj hs).symm
      · rw [← terminated_cons]
        exact hname ht

theorem yields_findTable {text t : Bytes} (ht : t <:+ text) (hzero : 0 ∉ text)
    (opflag : SqlParseType) :
    Yields (Long text) (fun x => ∀ p ∈ x, At text p) (findTable opflag (terminated t)) := by
  cases opflag with
  | update =>
      refine (yields_nrStrcspn ht hzero whitespaceChars).bind ?_
      rintro sl rfl
      rw [drop_takeWhile_terminated]
      refine Yields.ok fun p hp => ?_
      exact ⟨_, (List.dropWhile_suffix _).trans ht, (Option.some.inj hp).symm⟩
  | fromTable => exact yields_findKeyword (by decide) rfl hzero ht
  | intoTable => exact yields_findKeyword (by decide) rfl hzero ht

theorem yields_nrSqlGetOperationAndTable {sql : Bytes} (hzero : 0 ∉ sql)
    (operationPtr tablePtr : Bool) :
    Yields (Long sql) (OperationAndTable sql)
      (nrSqlGetOperationAndTable (some (terminated sql)) operationPtr tablePtr) := by
  rw [nrSqlGetOperationAndTable]
  split_ifs with hptr
  · exact Yields.ok ⟨nofun, nofun⟩
  · refine (yields_nrSqlWhitespaceCommentPrefix List.suffix_rfl hzero).bind fun x hx => ?_
    cases x with
    | none => exact Yields.ok ⟨nofun, nofun⟩
    | some p =>
        obtain ⟨statement, rfl, hstatement⟩ := hx p rfl
        have hsuffix := hstatement.skips.suffix
        refine (yields_findOperation statement (by decide) (Long sql)).bind fun found hfound => ?_
        cases found with
        | none => exact Yields.ok ⟨nofun, nofun⟩
        | some operation =>
            obtain ⟨hmem, hprefix⟩ := hfound operation rfl
            have hop : ∀ name ∈ some operation.1, name ∈ sqlOperations.map Prod.fst ∧
                ∃ statement, IsStatement sql statement ∧ IsPrefixNoCase name statement := by
              intro name hname
              obtain rfl := Option.some.inj hname
              exact ⟨List.mem_map_of_mem hmem, statement, hstatement, hprefix⟩
            refine (yields_findTable hsuffix hzero operation.2).bind fun x hx => ?_
            cases x with
            | none => exact Yields.ok ⟨hop, nofun⟩
            | some p =>
                obtain ⟨t, ht, rfl⟩ := hx p rfl
                refine (yields_nrSqlWhitespaceCommentPrefix ht hzero).bind fun x hx => ?_
                cases x with
                | none => exact Yields.ok ⟨hop, nofun⟩
                | some p =>
                    obtain ⟨u, rfl, hu⟩ := hx p rfl
                    refine (yields_tableAt (hu.skips.suffix.trans ht) hzero).bind fun name hname => ?_
                    exact Yields.ok ⟨hop, hname⟩

end Memory

/-- The parser comes to an end on every statement, reads nothing behind it, and finds an operation
that the statement starts with and a table that is a part of it, if any. A span that is too long
for an `int`, in a text of 2^31 bytes or more, is all that it can stumble over. -/
theorem nrSqlGetOperationAndTable_sound (sql : Bytes) (hzero : 0 ∉ sql)
    (operationPtr tablePtr : Bool) :
    (∃ found, Memory.nrSqlGetOperationAndTable (some (terminated sql)) operationPtr tablePtr =
        .ok found ∧ OperationAndTable sql found) ∨
      (Memory.nrSqlGetOperationAndTable (some (terminated sql)) operationPtr tablePtr =
        .error .range ∧ 2 ^ 31 ≤ sql.length) := by
  have hyields := Memory.yields_nrSqlGetOperationAndTable hzero operationPtr tablePtr
  cases hresult :
      Memory.nrSqlGetOperationAndTable (some (terminated sql)) operationPtr tablePtr with
  | ok found =>
      rw [hresult] at hyields
      exact .inl ⟨found, rfl, hyields⟩
  | error e =>
      rw [hresult] at hyields
      obtain ⟨rfl, hlong⟩ := hyields
      exact .inr ⟨rfl, hlong⟩

theorem nrSqlGetOperationAndTable_sound_select :
    (∃ found, Memory.nrSqlGetOperationAndTable (some (terminated (ascii "select"))) true true =
        .ok found ∧ OperationAndTable (ascii "select") found) ∨
      (Memory.nrSqlGetOperationAndTable (some (terminated (ascii "select"))) true true =
        .error .range ∧ 2 ^ 31 ≤ (ascii "select").length) :=
  nrSqlGetOperationAndTable_sound (ascii "select") (by decide) true true

/-- An update with a first word of `n` letters behind its six. -/
theorem nrSqlGetOperationAndTable_update {n : ℕ} (h : 2 ^ 31 ≤ n) :
    Memory.nrSqlGetOperationAndTable
      (some (terminated (ascii "update" ++ List.replicate n 0x61))) true true = .error .range := by
  set letters := List.replicate n (0x61 : UInt8) with hletters
  have htext : terminated (ascii "update" ++ letters) =
      [0x75, 0x70, 0x64, 0x61, 0x74, 0x65] ++ terminated letters := terminated_append _ _
  have hprefix : Memory.nrSqlWhitespaceCommentPrefix
      (some (terminated (ascii "update" ++ letters))) =
      .ok (some (terminated (ascii "update" ++ letters))) := by
    rw [htext]
    simp only [List.cons_append, List.nil_append]
    rw [Memory.nrSqlWhitespaceCommentPrefix, load_cons, ok_bind, if_neg (by decide),
      Memory.nrStrspn, strspn, if_neg (by decide), ok_bind, toInt, if_pos (by decide), ok_bind,
      List.drop_zero, Memory.skipComments, if_neg (by decide)]
    rfl
  have hfind : Memory.findOperation (terminated (ascii "update" ++ letters)) sqlOperations =
      .ok (some (ascii "update", .update)) := by
    rw [htext]
    rfl
  have hclean : 0 ∉ ascii "update" ++ letters := by
    rw [List.mem_append, not_or, hletters, List.mem_replicate]
    exact ⟨by decide, fun hz => absurd hz.2 (by decide)⟩
  have hspan : (ascii "update" ++ letters).takeWhile (· ∉ whitespaceChars) =
      ascii "update" ++ letters := by
    apply List.takeWhile_eq_self_iff.mpr
    intro b hb
    rcases List.mem_append.mp hb with hb | hb
    · have hword : (ascii "update").all (· ∉ whitespaceChars) = true := rfl
      exact List.all_eq_true.mp hword b hb
    · obtain rfl := List.eq_of_mem_replicate hb
      rfl
  have hlong : ¬ (ascii "update" ++ letters).length < 2 ^ 31 := by
    rw [List.length_append, hletters, List.length_replicate]
    omega
  rw [Memory.nrSqlGetOperationAndTable, if_neg (by decide), hprefix, ok_bind]
  change Memory.findOperation _ _ >>= _ = _
  rw [hfind, ok_bind]
  change (Memory.nrStrcspn _ _ >>= _) >>= _ = _
  rw [Memory.nrStrcspn, strcspn_terminated hclean, hspan, ok_bind, toInt, if_neg hlong]
  rfl

/-- A word of 2^31 bytes is too long for the `int` that its length goes into. -/
theorem nrSqlGetOperationAndTable_range :
    ¬ ∀ sql : Bytes, 0 ∉ sql →
      ∃ found, Memory.nrSqlGetOperationAndTable (some (terminated sql)) true true = .ok found := by
  intro h
  obtain ⟨found, hfound⟩ := h (ascii "update" ++ List.replicate (2 ^ 31) 0x61) (by
    rw [List.mem_append, not_or, List.mem_replicate]
    exact ⟨by decide, fun hz => absurd hz.2 (by decide)⟩)
  rw [nrSqlGetOperationAndTable_update le_rfl] at hfound
  cases hfound

end AxiomDaemon.Util

import AxiomDaemon.Axiom.SegmentTraces

/-!
The nodes that the second pass prints, as JSON. A node is closed before the
next one of the same parent is opened, and the comma between the two is due
because the parent is in the set of segments with a child. Segments without a
sampled ancestor have no such parent: their nodes follow each other with
nothing in between, and only one of them can be printed.
-/

namespace AxiomDaemon.Axiom

open AxiomDaemon.Lib AxiomDaemon.Lib.Json AxiomDaemon.Util

/-! ### The string pool -/

theorem nrStringGet_mono {pool pool' : NrPool} (h : pool <+: pool') {idx : ℕ} {string : Bytes}
    (hget : nrStringGet pool idx = some string) : nrStringGet pool' idx = some string := by
  obtain ⟨more, rfl⟩ := h
  rw [nrStringGet] at hget ⊢
  split at hget
  · simp at hget
  · next hidx =>
      rw [if_neg hidx]
      obtain ⟨hlt, -⟩ := List.getElem?_eq_some_iff.mp hget
      rw [List.getElem?_append_left hlt, hget]

theorem nrStringAdd_grows (pool : NrPool) (string : Bytes) :
    pool <+: (nrStringAdd pool string).1 := by
  rw [nrStringAdd]
  split
  · exact List.prefix_refl _
  · exact List.prefix_append _ _

theorem nrStringGet_nrStringAdd (pool : NrPool) (string : Bytes) :
    nrStringGet (nrStringAdd pool string).1 (nrStringAdd pool string).2 = some string := by
  rw [nrStringAdd]
  split
  · next hmem =>
      simp only [nrStringGet, Nat.add_one_ne_zero, if_false, Nat.add_sub_cancel]
      rw [List.getElem?_eq_getElem (List.idxOf_lt_length_of_mem hmem)]
      simp
  · simp [nrStringGet]

/-! ### Attributes -/

/-- The texts of a segment that are copied into the trace are JSON: those of
the typed attributes that are JSON already, and that of the hash of user
attributes. -/
structure AttributesJson (segment : NrSegment) : Prop where
  typed : ∀ key value, (key, some value, true) ∈ typedAttributes segment →
    ∃ v, parse value = some v
  user : ∀ json, segment.userAttributes = some json → ∃ texts members,
    List.Forall₂ Member texts members ∧ json = lbrace :: (commaJoin texts ++ [rbrace])

/-- A hash that was opened after `base` and has the members `texts` so far. -/
structure OpenHash (base : Bytes) (texts : List Bytes) (buf : Bytes) : Prop where
  members : ∃ members, List.Forall₂ Member texts members
  closed : ∀ t ∈ texts, EndsClosed t
  buf_eq : buf = base ++ lbrace :: commaJoin texts

theorem nrBufferPeekEnd_append_singleton (buf : Bytes) (b : UInt8) :
    nrBufferPeekEnd (buf ++ [b]) = b := by
  rw [nrBufferPeekEnd, List.getLastD_concat]

theorem openHash_nil (base : Bytes) : OpenHash base [] (base ++ [lbrace]) :=
  ⟨⟨[], .nil⟩, by simp, rfl⟩

theorem OpenHash.peekEnd_eq_lbrace_iff {base buf : Bytes} {texts : List Bytes}
    (h : OpenHash base texts buf) : nrBufferPeekEnd buf = lbrace ↔ texts = [] := by
  rw [h.buf_eq]
  by_cases hnil : texts = []
  · rw [hnil]
    exact iff_of_true (nrBufferPeekEnd_append_singleton base lbrace) rfl
  · obtain ⟨bs, b, heq, hb⟩ := endsClosed_commaJoin hnil h.closed
    refine iff_of_false ?_ hnil
    rw [heq, ← List.cons_append, ← List.append_assoc, nrBufferPeekEnd_append_singleton]
    exact hb

theorem OpenHash.add_texts {base buf : Bytes} {texts : List Bytes} (h : OpenHash base texts buf)
    {us : List Bytes} (hus : us ≠ []) :
    (if nrBufferPeekEnd buf ≠ lbrace then buf ++ [comma] else buf) ++ commaJoin us =
      base ++ lbrace :: commaJoin (texts ++ us) := by
  by_cases hnil : texts = []
  · rw [if_neg (not_not.mpr (h.peekEnd_eq_lbrace_iff.mpr hnil)), h.buf_eq, hnil]
    simp [commaJoin]
  · rw [if_pos fun hend => hnil (h.peekEnd_eq_lbrace_iff.mp hend), h.buf_eq,
      commaJoin_append hnil hus]
    simp

theorem OpenHash.add {base buf : Bytes} {texts : List Bytes} (h : OpenHash base texts buf)
    {key : Bytes} (hkey : key.all isPlainAscii = true) {value : Option Bytes} {rawJson : Bool}
    (hraw : rawJson = true → ∀ text, value = some text → ∃ v, parse text = some v) :
    ∃ texts', OpenHash base texts' (addHashKeyValueToBuffer buf key value rawJson) := by
  cases value with
  | none => exact ⟨texts, h⟩
  | some value =>
      -- the text that stands for the value, and that it ends it
      have hvalue : ∃ v, Embeds (if rawJson then value else nrJsonEscape value) v ∧
          EndsClosed (if rawJson then value else nrJsonEscape value) := by
        cases rawJson with
        | true =>
            obtain ⟨v, hv⟩ := hraw rfl value rfl
            exact ⟨v, embeds_of_parse hv, endsClosed_of_parse hv⟩
        | false =>
            obtain ⟨units, hunits⟩ := exists_reads_nrJsonEscape value
            exact ⟨_, hunits.embeds, quote :: escapeLoop value, quote, rfl, by decide⟩
      obtain ⟨v, hv, hclosed⟩ := hvalue
      obtain ⟨members, hmembers⟩ := h.members
      set text := if rawJson then value else nrJsonEscape value with htext
      have hmember : Member (quote :: (key ++ quote :: colon :: text)) (key.map UInt8.toNat, v) :=
        .mk (spells_ascii hkey) hv
      have hend : EndsClosed (quote :: (key ++ quote :: colon :: text)) := by
        have happ := hclosed.append (quote :: (key ++ [quote, colon]))
        simpa using happ
      refine ⟨texts ++ [quote :: (key ++ quote :: colon :: text)],
        ⟨members ++ [_], List.rel_append hmembers (.cons hmember .nil)⟩, ?_, ?_⟩
      · intro t ht
        rcases List.mem_append.mp ht with hold | hnew
        · exact h.closed t hold
        · rw [List.mem_singleton.mp hnew]
          exact hend
      · rw [← h.add_texts (List.cons_ne_nil _ _)]
        simp only [addHashKeyValueToBuffer, commaJoin, htext]
        cases rawJson <;> simp

theorem typedAttributes_keys (segment : NrSegment) :
    ∀ a ∈ typedAttributes segment, a.1.all isPlainAscii = true := by
  rw [typedAttributes]
  cases segment.type with
  | custom => simp
  | datastore data =>
      simp only [List.forall_mem_cons]
      refine ⟨by decide, by decide, by decide, by decide, by decide, by decide, by decide,
        by decide, by simp⟩
  | external ext =>
      simp only [List.forall_mem_cons]
      exact ⟨by decide, by decide, by decide, by decide, by simp⟩

theorem OpenHash.addTyped {base buf : Bytes} {texts : List Bytes} (h : OpenHash base texts buf)
    {segment : NrSegment} (hjson : AttributesJson segment) :
    ∃ texts', OpenHash base texts' (addTypedAttributesToBuffer buf segment) := by
  have hfold : ∀ attrs ⊆ typedAttributes segment, ∀ buf texts, OpenHash base texts buf →
      ∃ texts', OpenHash base texts'
        (attrs.foldl (fun buf a => addHashKeyValueToBuffer buf a.1 a.2.1 a.2.2) buf) := by
    intro attrs
    induction attrs with
    | nil => exact fun _ buf texts h => ⟨texts, h⟩
    | cons a attrs ih =>
        intro hsub buf texts h
        obtain ⟨key, value, rawJson⟩ := a
        have hmem : (key, value, rawJson) ∈ typedAttributes segment := hsub (by simp)
        have hraw : rawJson = true → ∀ text, value = some text → ∃ v, parse text = some v := by
          rintro rfl text rfl
          exact hjson.typed key text hmem
        obtain ⟨texts', h'⟩ := h.add (typedAttributes_keys segment _ hmem) hraw
        exact ih (fun b hb => hsub (by simp [hb])) _ texts' h'
  exact hfold _ (fun _ ha => ha) buf texts h

theorem OpenHash.addUser {base buf : Bytes} {texts : List Bytes} (h : OpenHash base texts buf)
    {segment : NrSegment} (hjson : AttributesJson segment) :
    ∃ texts' members, List.Forall₂ Member texts' members ∧
      addAttributeHashToBuffer buf segment.userAttributes = base ++ lbrace :: commaJoin texts' := by
  obtain ⟨members, hmembers⟩ := h.members
  cases huser : segment.userAttributes with
  | none => exact ⟨texts, members, hmembers, h.buf_eq⟩
  | some json =>
      obtain ⟨us, usMembers, hus, rfl⟩ := hjson.user json huser
      have hinner : ((lbrace :: (commaJoin us ++ [rbrace])).drop 1).take
          ((lbrace :: (commaJoin us ++ [rbrace])).length - 2) = commaJoin us := by
        simp
      rw [addAttributeHashToBuffer]
      by_cases hnil : us = []
      · rw [if_neg (by simp [hnil, commaJoin])]
        exact ⟨texts, members, hmembers, h.buf_eq⟩
      · have hlen : 0 < (commaJoin us).length := by
          cases hus with
          | nil => exact absurd rfl hnil
          | @cons t m ts ms ht hts =>
              obtain ⟨-, -⟩ := ht
              by_cases hts' : ts = []
              · subst hts'
                simp [commaJoin]
              · rw [commaJoin_cons_of_ne_nil _ hts']
                simp
        rw [if_pos (by simp; omega), hinner]
        exact ⟨texts ++ us, members ++ usMembers, List.rel_append hmembers hus, h.add_texts hnil⟩

/-- All attributes of a segment, added to a hash that was just opened. -/
theorem exists_attributes (txn : NrTxn) {segment : NrSegment} (hjson : AttributesJson segment)
    (base : Bytes) (names : NrPool) :
    let r := if segment.asyncContext ≠ 0 then
        addAsyncAttributeToBuffer txn (addTypedAttributesToBuffer (base ++ [lbrace]) segment)
          segment names
      else (addTypedAttributesToBuffer (base ++ [lbrace]) segment, names)
    names <+: r.2 ∧ ∃ texts members, List.Forall₂ Member texts members ∧
      addAttributeHashToBuffer r.1 segment.userAttributes =
        base ++ lbrace :: commaJoin texts := by
  intro r
  obtain ⟨texts, htyped⟩ := (openHash_nil base).addTyped hjson
  by_cases hasync : segment.asyncContext ≠ 0
  · have hr : r = addAsyncAttributeToBuffer txn
        (addTypedAttributesToBuffer (base ++ [lbrace]) segment) segment names := if_pos hasync
    obtain ⟨texts', h'⟩ := htyped.add (show (ascii "async_context").all isPlainAscii = true by decide)
      (show false = true → ∀ text, some (poolReference
        (nrStringAdd names (traceString txn segment.asyncContext)).2) = some text →
          ∃ v, parse text = some v from fun h => absurd h (by decide))
    rw [hr]
    exact ⟨nrStringAdd_grows _ _, h'.addUser hjson⟩
  · have hr : r = (addTypedAttributesToBuffer (base ++ [lbrace]) segment, names) := if_neg hasync
    rw [hr]
    exact ⟨List.prefix_refl _, htyped.addUser hjson⟩

/-! ### Nodes -/

/-- A segment is printed if it is sampled and took any time. -/
def shown (sample : Option (List ℕ)) (segment : NrSegment) : Bool :=
  isSampled sample segment && decide (segment.startTime ≠ segment.stopTime)

/-- The node of a segment: its times in milliseconds, a reference to its name,
its attributes and the nodes below it. -/
def nodeJson (segment : NrSegment) (idx : ℕ) (members : List (List ℕ × Json))
    (children : List Json) : Json :=
  .arr [.num (decimal (segment.startTime / 1000)), .num (decimal (segment.stopTime / 1000)),
    .str ((poolReference idx).map UInt8.toNat), .obj members, .arr children]

/-- The nodes say what the forest is: one node for every tree, in order, with
the name that the pool of names has at its reference. -/
inductive NodesJson (txn : NrTxn) (names : NrPool) : Forest NrSegment → List Json → Prop
  | nil : NodesJson txn names .nil []
  | node {segment : NrSegment} {children rest : Forest NrSegment} {idx : ℕ}
      {members : List (List ℕ × Json)} {childNodes nodes : List Json}
      (name : nrStringGet names idx = some (traceString txn segment.name))
      (below : NodesJson txn names children childNodes)
      (after : NodesJson txn names rest nodes) :
      NodesJson txn names (.node segment children rest)
        (nodeJson segment idx members childNodes :: nodes)

theorem NodesJson.mono {txn : NrTxn} {names names' : NrPool} (h : names <+: names')
    {f : Forest NrSegment} {js : List Json} (hjs : NodesJson txn names f js) :
    NodesJson txn names' f js := by
  induction hjs with
  | nil => exact .nil
  | node name _ _ ihb iha => exact .node (nrStringGet_mono h name) ihb iha

theorem NodesJson.append {txn : NrTxn} {names : NrPool} {f g : Forest NrSegment}
    {js ks : List Json} (hf : NodesJson txn names f js) (hg : NodesJson txn names g ks) :
    NodesJson txn names (f.append g) (js ++ ks) := by
  induction hf with
  | nil => exact hg
  | node name below _ _ ih => exact .node name below ih

theorem NodesJson.length_eq {txn : NrTxn} {names : NrPool} {f : Forest NrSegment}
    {js : List Json} (h : NodesJson txn names f js) : js.length = f.length := by
  induction h with
  | nil => rfl
  | node _ _ _ _ ih => rw [List.length_cons, Forest.length, ih]

/-- The text of a node up to the bracket that opens its children. -/
def nodeOpening (startMs stopMs idx : ℕ) (attributes : List Bytes) : Bytes :=
  nodeHead startMs stopMs idx ++ (commaJoin attributes ++ [rbrace, comma, lbracket])

/-- The text of a node with the texts of its children. -/
def nodeText (startMs stopMs idx : ℕ) (attributes children : List Bytes) : Bytes :=
  nodeOpening startMs stopMs idx attributes ++ (commaJoin children ++ [rbracket, rbracket])

theorem spells_poolReference (idx : ℕ) :
    Spells (poolReference idx) ((poolReference idx).map UInt8.toNat) := by
  refine spells_ascii (List.all_eq_true.mpr fun b hb => ?_)
  rcases List.mem_cons.mp hb with rfl | hmem
  · decide
  · exact isPlainAscii_of_isDigit (isDigit_of_mem_decimal hmem)

theorem reads_nodeText {segment : NrSegment} {stopMs : ℕ} (hstop : stopMs = segment.stopTime / 1000)
    (idx : ℕ) {attributes children : List Bytes} {members : List (List ℕ × Json)}
    {childNodes : List Json} (hattributes : List.Forall₂ Member attributes members)
    (hchildren : List.Forall₂ Reads children childNodes) :
    Reads (nodeText (segment.startTime / 1000) stopMs idx attributes children)
      (nodeJson segment idx members childNodes) := by
  have hembeds : List.Forall₂ Embeds
      [decimal (segment.startTime / 1000), decimal stopMs, quote :: (poolReference idx ++ [quote]),
        lbrace :: (commaJoin attributes ++ [rbrace]),
        lbracket :: (commaJoin children ++ [rbracket])]
      [.num (decimal (segment.startTime / 1000)), .num (decimal (segment.stopTime / 1000)),
        .str ((poolReference idx).map UInt8.toNat), .obj members, .arr childNodes] := by
    refine .cons (intText_decimal _).embeds (.cons ?_ (.cons ?_ (.cons ?_ (.cons ?_ .nil))))
    · rw [hstop]
      exact (intText_decimal _).embeds
    · exact (reads_str (spells_poolReference idx)).embeds
    · exact (reads_obj hattributes).embeds
    · exact (reads_arr (hchildren.imp fun _ _ h => h.embeds)).embeds
  have hreads := reads_arr hembeds
  simpa [nodeText, nodeOpening, nodeHead, nodeJson, commaJoin] using hreads

/-! ### One segment -/

/-- Whether the innermost open node has a child already; none if no node is
open. -/
def TraceData.hasChild (t : TraceData) : Option Bool :=
  t.currentPath.head?.map fun p => decide (p.address ∈ t.sampledAncestorsWithChild)

/-- Texts as they are added one after the other: after the first one only a
child of an open node gets a comma. -/
def separated : Option Bool → List Bytes → Bytes
  | none, texts => texts.flatten
  | some false, texts => commaJoin texts
  | some true, texts => (texts.map (comma :: ·)).flatten

/-- `TraceData.hasChild` after texts were added. -/
def hasChildAfter (hasChild : Option Bool) (texts : List Bytes) : Option Bool :=
  hasChild.map fun b => b || decide (texts ≠ [])

@[simp] theorem separated_nil (hasChild : Option Bool) : separated hasChild [] = [] := by
  rcases hasChild with _ | _ | _ <;> rfl

@[simp] theorem hasChildAfter_nil (hasChild : Option Bool) :
    hasChildAfter hasChild [] = hasChild := by
  rcases hasChild with _ | _ | _ <;> rfl

theorem separated_some_false (texts : List Bytes) :
    separated (some false) texts = commaJoin texts := rfl

theorem separated_singleton (hasChild : Option Bool) (text : Bytes) :
    separated hasChild [text] = (if hasChild = some true then [comma] else []) ++ text := by
  rcases hasChild with _ | _ | _ <;> simp [separated, commaJoin]

theorem separated_append (hasChild : Option Bool) (ts us : List Bytes) :
    separated hasChild (ts ++ us) =
      separated hasChild ts ++ separated (hasChildAfter hasChild ts) us := by
  rcases hasChild with _ | _ | _
  · exact List.flatten_append
  · cases ts with
    | nil => simp
    | cons t ts =>
        rw [List.cons_append, separated_some_false, separated_some_false, commaJoin_cons_eq,
          commaJoin_cons_eq]
        simp [hasChildAfter, separated]
  · simp [separated, hasChildAfter]

theorem hasChildAfter_append (hasChild : Option Bool) (ts us : List Bytes) :
    hasChildAfter hasChild (ts ++ us) = hasChildAfter (hasChildAfter hasChild ts) us := by
  rcases hasChild with _ | b
  · rfl
  · by_cases hts : ts = []
    · simp [hts, hasChildAfter]
    · simp [hts, hasChildAfter]

/-- A node is opened: its text so far is added, its segment becomes the
innermost open one, and the parent has a child now. -/
def TraceData.push (t : TraceData) (segment : NrSegment) (text : Bytes) : TraceData :=
  { t with
    buf := t.buf ++ text
    currentPath := segment :: t.currentPath
    sampledAncestorsWithChild :=
      (t.currentPath.head?.map NrSegment.address).toList ++ t.sampledAncestorsWithChild }

/-- What is added for the node of a sampled segment before its children: a comma
if there was a child before, and the opening of the node. -/
theorem nrSegmentIterationPassTrace_sampled (txn : NrTxn) {segment : NrSegment} (names : NrPool)
    {t : TraceData} (hsampled : isSampled t.sample segment = true)
    (htimes : segment.startTime ≤ segment.stopTime) (hjson : AttributesJson segment) :
    ∃ names' idx attributes members,
      nrSegmentIterationPassTrace txn segment (traceString txn segment.name) names t =
        (names', t.push segment ((if t.hasChild = some true then [comma] else []) ++
          nodeOpening (segment.startTime / 1000) (segment.stopTime / 1000) idx attributes)) ∧
      names <+: names' ∧ nrStringGet names' idx = some (traceString txn segment.name) ∧
      List.Forall₂ Member attributes members := by
  set added := nrStringAdd names (traceString txn segment.name) with hadded
  set sep := if t.hasChild = some true then [comma] else [] with hsep
  -- everything before the brace that opens the attributes
  set base := t.buf ++ (sep ++ lbracket :: (decimal (segment.startTime / 1000) ++
    comma :: (decimal (segment.stopTime / 1000) ++
      comma :: quote :: (poolReference added.2 ++ [quote, comma])))) with hbase
  obtain ⟨hgrows, attributes, members, hmembers, hattributes⟩ :=
    exists_attributes txn hjson base added.1
  have hms : segment.startTime / 1000 ≤ segment.stopTime / 1000 := Nat.div_le_div_right htimes
  have hcomma : (if (t.currentPath.head?.any fun p =>
      p.address ∈ t.sampledAncestorsWithChild) then t.buf ++ [comma] else t.buf) =
        t.buf ++ sep := by
    rw [hsep, TraceData.hasChild]
    cases t.currentPath.head? with
    | none => simp
    | some p =>
        by_cases hp : p.address ∈ t.sampledAncestorsWithChild
        · simp [hp]
        · simp [hp]
  have hopen : t.buf ++ sep ++ nodeHead (segment.startTime / 1000) (segment.stopTime / 1000)
      added.2 = base ++ [lbrace] := by
    simp [hbase, nodeHead]
  refine ⟨_, added.2, attributes, members, ?_, (nrStringAdd_grows _ _).trans hgrows,
    nrStringGet_mono hgrows (nrStringGet_nrStringAdd _ _), hmembers⟩
  simp only [nrSegmentIterationPassTrace, hsampled, Bool.not_true, ← hadded, hcomma,
    if_neg (Nat.not_lt.mpr hms), hopen, hattributes]
  simp only [hbase, nodeOpening, nodeHead, TraceData.push, Bool.false_eq_true, if_false, List.append_assoc,
    List.cons_append, List.nil_append, Prod.mk.injEq, TraceData.mk.injEq, true_and]
  cases t.currentPath.head? with
  | none => rfl
  | some p => rfl

/-! ### The pass over a forest -/

section Pass

variable {txn : NrTxn} {guid : ℕ → Bytes} {absStartTime : ℕ}

variable (txn guid absStartTime) in
theorem callback_not_shown {segment : NrSegment} {u : NrSegmentUserdata} {t : TraceData}
    (htrace : u.trace = some t) (htimes : segment.startTime ≤ segment.stopTime)
    (hshown : shown t.sample segment = false) (parent : Option NrSegment) (childrenSize : ℕ) :
    ∃ spans registered, nrSegmentTracesStotIteratorCallback txn guid absStartTime parent segment
      childrenSize u = ({ u with spans }, registered) := by
  rw [nrSegmentTracesStotIteratorCallback]
  by_cases hzero : segment.startTime = segment.stopTime
  · exact ⟨u.spans, false, if_pos hzero⟩
  · have hsampled : isSampled t.sample segment = false := by
      simpa [shown, hzero] using hshown
    refine ⟨u.spans.map (nrSegmentIterationPassSpan guid absStartTime segment
      (traceString txn segment.name)), true, ?_⟩
    rw [if_neg hzero, if_neg (Nat.not_lt.mpr htimes)]
    simp only [htrace, nrSegmentIterationPassTrace, hsampled, Bool.not_false, if_true]

variable (txn guid absStartTime) in
theorem callback_shown {segment : NrSegment} {u : NrSegmentUserdata} {t : TraceData}
    (htrace : u.trace = some t) (htimes : segment.startTime ≤ segment.stopTime)
    (hshown : shown t.sample segment = true) (parent : Option NrSegment) (childrenSize : ℕ) :
    isSampled t.sample segment = true ∧
    ∃ spans, nrSegmentTracesStotIteratorCallback txn guid absStartTime parent segment
      childrenSize u =
        ({ u with
            spans
            segmentNames := (nrSegmentIterationPassTrace txn segment
              (traceString txn segment.name) u.segmentNames t).1
            trace := some (nrSegmentIterationPassTrace txn segment
              (traceString txn segment.name) u.segmentNames t).2 }, true) := by
  obtain ⟨hsampled, hzero⟩ : isSampled t.sample segment = true ∧
      segment.startTime ≠ segment.stopTime := by
    simpa [shown] using hshown
  refine ⟨hsampled, u.spans.map (nrSegmentIterationPassSpan guid absStartTime segment
    (traceString txn segment.name)), ?_⟩
  rw [nrSegmentTracesStotIteratorCallback, if_neg hzero, if_neg (Nat.not_lt.mpr htimes)]
  simp only [htrace]

/-- What a part of the pass adds to the trace: the texts of the nodes of the
forest `g`, with the commas that are due. The open nodes are the same
afterwards; the set of segments with a child only changed for the innermost
open one and for the segments in `addresses`. -/
structure Prints (txn : NrTxn) (g : Forest NrSegment) (addresses : List ℕ)
    (u u' : NrSegmentUserdata) (t t' : TraceData) (texts : List Bytes) (js : List Json) : Prop where
  trace : u'.trace = some t'
  success : u'.success = u.success
  names : u.segmentNames <+: u'.segmentNames
  buf : t'.buf = t.buf ++ separated t.hasChild texts
  sample : t'.sample = t.sample
  path : t'.currentPath = t.currentPath
  hasChild : t'.hasChild = hasChildAfter t.hasChild texts
  frame : ∀ x ∉ addresses, (∀ p ∈ t.currentPath.head?, p.address ≠ x) →
    (x ∈ t'.sampledAncestorsWithChild ↔ x ∈ t.sampledAncestorsWithChild)
  reads : List.Forall₂ Reads texts js
  json : NodesJson txn u'.segmentNames g js

theorem prints_nil {u : NrSegmentUserdata} {t : TraceData} (htrace : u.trace = some t) :
    Prints txn .nil [] u u t t [] [] where
  trace := htrace
  success := rfl
  names := List.prefix_refl _
  buf := by simp
  sample := rfl
  path := rfl
  hasChild := by simp
  frame := fun _ _ _ => Iff.rfl
  reads := .nil
  json := .nil

theorem Prints.append {g g' : Forest NrSegment} {xs xs' : List ℕ}
    {u u' u'' : NrSegmentUserdata} {t t' t'' : TraceData} {texts texts' : List Bytes}
    {js js' : List Json} (h : Prints txn g xs u u' t t' texts js)
    (h' : Prints txn g' xs' u' u'' t' t'' texts' js') :
    Prints txn (g.append g') (xs ++ xs') u u'' t t'' (texts ++ texts') (js ++ js') where
  trace := h'.trace
  success := h'.success.trans h.success
  names := h.names.trans h'.names
  buf := by rw [h'.buf, h.buf, h.hasChild, List.append_assoc, separated_append]
  sample := h'.sample.trans h.sample
  path := h'.path.trans h.path
  hasChild := by rw [h'.hasChild, h.hasChild, hasChildAfter_append]
  frame := by
    intro x hx hhead
    simp only [List.mem_append, not_or] at hx
    rw [h'.frame x hx.2 (by rwa [h.path]), h.frame x hx.1 hhead]
  reads := List.rel_append h.reads h'.reads
  json := (h.json.mono h'.names).append h'.json

theorem Prints.of_spans {g : Forest NrSegment} {xs : List ℕ} {u u' : NrSegmentUserdata}
    {t t' : TraceData} {texts : List Bytes} {js : List Json} {spans : Option SpanData}
    (h : Prints txn g xs { u with spans } u' t t' texts js) : Prints txn g xs u u' t t' texts js :=
  ⟨h.trace, h.success, h.names, h.buf, h.sample, h.path, h.hasChild, h.frame, h.reads, h.json⟩

theorem Prints.mono {g : Forest NrSegment} {xs ys : List ℕ} {u u' : NrSegmentUserdata}
    {t t' : TraceData} {texts : List Bytes} {js : List Json}
    (h : Prints txn g xs u u' t t' texts js) (hsub : xs ⊆ ys) :
    Prints txn g ys u u' t t' texts js :=
  { h with frame := fun x hx => h.frame x fun hmem => hx (hsub hmem) }

theorem Prints.leave {g : Forest NrSegment} {xs : List ℕ} {u u' : NrSegmentUserdata}
    {t t' : TraceData} {texts : List Bytes} {js : List Json}
    (h : Prints txn g xs u u' t t' texts js) {segment : NrSegment}
    (hnot : ∀ p ∈ t.currentPath.head?, p.address ≠ segment.address) (registered : Bool) :
    Prints txn g xs u
      (if registered then nrSegmentTracesStotIteratorPostCallback segment u' else u')
      t t' texts js := by
  cases registered with
  | false => exact h
  | true =>
      have hclose : t'.close segment = t' := by
        rw [TraceData.close, isCurrent, h.path, if_neg]
        cases hhead : t.currentPath.head? with
        | none => simp
        | some p => simpa using hnot p hhead
      refine { h with trace := ?_ }
      rw [if_pos rfl, nrSegmentTracesStotIteratorPostCallback, h.trace, Option.map_some, hclose]

theorem TraceData.mem_push_iff (t : TraceData) {segment : NrSegment} {text : Bytes} {x : ℕ}
    (hx : ∀ p ∈ t.currentPath.head?, p.address ≠ x) :
    x ∈ (t.push segment text).sampledAncestorsWithChild ↔ x ∈ t.sampledAncestorsWithChild := by
  have hparent : x ∉ (t.currentPath.head?.map NrSegment.address).toList := by
    intro hmem
    obtain ⟨p, hp, heq⟩ := Option.map_eq_some_iff.mp (Option.mem_toList.mp hmem)
    exact hx p hp heq
  rw [TraceData.push, List.mem_append]
  exact or_iff_right hparent

theorem TraceData.hasChild_push (t : TraceData) {segment : NrSegment} (text : Bytes)
    (hhead : ∀ p ∈ t.currentPath.head?, p.address ≠ segment.address)
    (hnew : segment.address ∉ t.sampledAncestorsWithChild) :
    (t.push segment text).hasChild = some false := by
  show some (decide (segment.address ∈ (t.push segment text).sampledAncestorsWithChild)) = some false
  rw [decide_eq_false fun hmem => hnew ((t.mem_push_iff hhead).mp hmem)]

/-- A shown segment whose children were printed: its node, as the next child
of the innermost open one. -/
theorem prints_node {segment : NrSegment} {g : Forest NrSegment} {xs : List ℕ}
    {u u' : NrSegmentUserdata} {t t' : TraceData} {texts : List Bytes} {js : List Json}
    {spans : Option SpanData} (hsampled : isSampled t.sample segment = true)
    (htimes : segment.startTime ≤ segment.stopTime) (hjson : AttributesJson segment)
    (hhead : ∀ p ∈ t.currentPath.head?, p.address ≠ segment.address ∧ p.address ∉ xs)
    (hnew : segment.address ∉ t.sampledAncestorsWithChild)
    (hchildren : Prints txn g xs
      { u with
        spans
        segmentNames := (nrSegmentIterationPassTrace txn segment
          (traceString txn segment.name) u.segmentNames t).1
        trace := some (nrSegmentIterationPassTrace txn segment
          (traceString txn segment.name) u.segmentNames t).2 } u'
      (nrSegmentIterationPassTrace txn segment (traceString txn segment.name) u.segmentNames t).2
      t' texts js) :
    ∃ text j, Prints txn (.node segment g .nil) (segment.address :: xs) u
      (nrSegmentTracesStotIteratorPostCallback segment u') t (t'.close segment) [text] [j] := by
  obtain ⟨names', idx, attributes, members, hpass, hnames, hname, hattributes⟩ :=
    nrSegmentIterationPassTrace_sampled txn u.segmentNames hsampled htimes hjson
  rw [hpass] at hchildren
  -- the node has no child before its children are visited
  have hfalse := t.hasChild_push
    ((if t.hasChild = some true then [comma] else []) ++
      nodeOpening (segment.startTime / 1000) (segment.stopTime / 1000) idx attributes)
    (fun p hp => (hhead p hp).1) hnew
  have hpath : t'.currentPath = segment :: t.currentPath := hchildren.path
  have hclose : t'.close segment =
      { t' with buf := t'.buf ++ [rbracket, rbracket], currentPath := t.currentPath } := by
    rw [TraceData.close, isCurrent, hpath, if_pos (by simp)]
    rfl
  -- the set as it is seen from outside the node
  have hset : ∀ x, x ≠ segment.address → x ∉ xs → (x ∈ t'.sampledAncestorsWithChild ↔
      x ∈ (t.push segment []).sampledAncestorsWithChild) := by
    intro x hx hxs
    refine hchildren.frame x hxs fun p hp => ?_
    obtain rfl : segment = p := by simpa [TraceData.push] using hp
    exact hx.symm
  refine ⟨nodeText (segment.startTime / 1000) (segment.stopTime / 1000) idx attributes texts,
    nodeJson segment idx members js, ?_⟩
  rw [hclose]
  constructor
  case trace => rw [nrSegmentTracesStotIteratorPostCallback, hchildren.trace, Option.map_some, hclose]
  case success => exact hchildren.success
  case names => exact hnames.trans hchildren.names
  case buf =>
    rw [separated_singleton, hchildren.buf, hfalse, separated_some_false, nodeText]
    simp [TraceData.push]
  case sample => exact hchildren.sample
  case path => rfl
  case hasChild =>
    simp only [TraceData.hasChild]
    cases hp : t.currentPath.head? with
    | none => rfl
    | some p =>
        obtain ⟨hne, hxs⟩ := hhead p hp
        have hmem := (hset p.address hne hxs).mpr (by simp [TraceData.push, hp])
        simp [hasChildAfter, hmem]
  case frame =>
    intro x hx hxhead
    simp only [List.mem_cons, not_or] at hx
    exact (hset x hx.1 hx.2).trans (t.mem_push_iff hxhead)
  case reads => exact .cons (reads_nodeText rfl idx hattributes hchildren.reads) .nil
  case json => exact .node (nrStringGet_mono hchildren.names hname) hchildren.json .nil

variable (txn guid absStartTime) in
theorem walk_prints (f : Forest NrSegment) (parent : Option NrSegment) {u : NrSegmentUserdata}
    {t : TraceData} (htrace : u.trace = some t)
    (htimes : ∀ s ∈ f.labels, s.startTime ≤ s.stopTime)
    (hdistinct : (f.labels.map NrSegment.address).Nodup)
    (hjson : ∀ s ∈ f.labels, AttributesJson s)
    (hhead : ∀ p ∈ t.currentPath.head?, p.address ∉ f.labels.map NrSegment.address)
    (hnew : ∀ s ∈ f.labels, s.address ∉ t.sampledAncestorsWithChild) :
    ∃ t' texts js, Prints txn (f.keep (shown t.sample)) (f.labels.map NrSegment.address) u
      (f.walk (nrSegmentTracesStotIteratorCallback txn guid absStartTime)
        nrSegmentTracesStotIteratorPostCallback parent u) t t' texts js := by
  induction f generalizing parent u t with
  | nil => exact ⟨t, [], [], prints_nil htrace⟩
  | node a children rest ihc ihr =>
      rw [Forest.labels_node] at htimes hjson hnew
      rw [Forest.labels_node, List.map_cons, List.map_append] at hdistinct hhead ⊢
      rw [List.nodup_cons, List.nodup_append] at hdistinct
      obtain ⟨hnotin, hcdistinct, hrdistinct, hdisjoint⟩ := hdistinct
      rw [List.mem_append, not_or] at hnotin
      have hcsub : ∀ s ∈ children.labels, s ∈ a :: (children.labels ++ rest.labels) :=
        fun s hs => by simp [hs]
      have hrsub : ∀ s ∈ rest.labels, s ∈ a :: (children.labels ++ rest.labels) :=
        fun s hs => by simp [hs]
      have hheadNot : ∀ p ∈ t.currentPath.head?, p.address ≠ a.address ∧
          p.address ∉ children.labels.map NrSegment.address ∧
          p.address ∉ rest.labels.map NrSegment.address := by
        intro p hp
        simpa [not_or] using hhead p hp
      -- whatever was printed below the node, the siblings after it can follow
      have hrest : ∀ {g : Forest NrSegment} {u' : NrSegmentUserdata} {t' : TraceData}
          {texts : List Bytes} {js : List Json},
          Prints txn g (a.address :: children.labels.map NrSegment.address) u u' t t' texts js →
          ∃ t'' texts' js', Prints txn (g.append (rest.keep (shown t.sample)))
            (a.address :: (children.labels.map NrSegment.address ++
              rest.labels.map NrSegment.address)) u
            (rest.walk (nrSegmentTracesStotIteratorCallback txn guid absStartTime)
              nrSegmentTracesStotIteratorPostCallback parent u') t t'' texts' js' := by
        intro g u' t' texts js h
        obtain ⟨t'', texts', js', h'⟩ := ihr parent h.trace (fun s hs => htimes s (hrsub s hs))
          hrdistinct (fun s hs => hjson s (hrsub s hs))
          (fun p hp => (hheadNot p (by rwa [h.path] at hp)).2.2) (by
            intro s hs hmem
            have hsaddr : s.address ∈ rest.labels.map NrSegment.address :=
              List.mem_map_of_mem hs
            have hout : s.address ∉ a.address :: children.labels.map NrSegment.address := by
              rw [List.mem_cons, not_or]
              exact ⟨fun heq => hnotin.2 (heq ▸ hsaddr),
                fun hchild => hdisjoint _ hchild _ hsaddr rfl⟩
            have hne : ∀ p ∈ t.currentPath.head?, p.address ≠ s.address :=
              fun p hp heq => (hheadNot p hp).2.2 (heq ▸ hsaddr)
            exact hnew s (hrsub s hs) ((h.frame _ hout hne).mp hmem))
        rw [h.sample] at h'
        have happ := h.append h'
        rw [List.cons_append] at happ
        exact ⟨t'', texts ++ texts', js ++ js', happ⟩
      rw [Forest.keep, Forest.walk]
      cases hshown : shown t.sample a with
      | false =>
          obtain ⟨spans, registered, henter⟩ := callback_not_shown txn guid absStartTime htrace
            (htimes a (by simp)) hshown parent children.length
          rw [henter, if_neg (by decide)]
          obtain ⟨t', texts, js, h⟩ := ihc (some a) (u := { u with spans }) htrace
            (fun s hs => htimes s (hcsub s hs)) hcdistinct (fun s hs => hjson s (hcsub s hs))
            (fun p hp => (hheadNot p hp).2.1) (fun s hs => hnew s (hcsub s hs))
          have hleft := (h.leave (fun p hp => (hheadNot p hp).1) registered).of_spans
          exact hrest (hleft.mono (List.subset_cons_self _ _))
      | true =>
          obtain ⟨hsampled, spans, henter⟩ := callback_shown txn guid absStartTime htrace
            (htimes a (by simp)) hshown parent children.length
          rw [henter, if_pos rfl]
          obtain ⟨names', idx, attributes, -, hpass, -⟩ :=
            nrSegmentIterationPassTrace_sampled txn u.segmentNames hsampled
              (htimes a (by simp)) (hjson a (by simp))
          have hpushed := congrArg Prod.snd hpass
          simp only at hpushed
          obtain ⟨t', texts, js, h⟩ := ihc (some a)
            (u := { u with
              spans
              segmentNames := (nrSegmentIterationPassTrace txn a (traceString txn a.name)
                u.segmentNames t).1
              trace := some (nrSegmentIterationPassTrace txn a (traceString txn a.name)
                u.segmentNames t).2 })
            rfl (fun s hs => htimes s (hcsub s hs)) hcdistinct (fun s hs => hjson s (hcsub s hs))
            (by
              intro p hp
              rw [hpushed] at hp
              obtain rfl : a = p := by simpa [TraceData.push] using hp
              exact hnotin.1)
            (by
              intro s hs hmem
              rw [hpushed] at hmem
              have hne : ∀ p ∈ t.currentPath.head?, p.address ≠ s.address :=
                fun p hp heq => (hheadNot p hp).2.1 (heq ▸ List.mem_map_of_mem hs)
              exact hnew s (hcsub s hs) ((t.mem_push_iff hne).mp hmem))
          have hsample : (nrSegmentIterationPassTrace txn a (traceString txn a.name)
              u.segmentNames t).2.sample = t.sample := by
            rw [hpushed]
            rfl
          rw [hsample] at h
          obtain ⟨text, j, hnode⟩ := prints_node hsampled (htimes a (by simp)) (hjson a (by simp))
            (fun p hp => ⟨(hheadNot p hp).1, (hheadNot p hp).2.1⟩) (hnew a (by simp)) h
          exact hrest hnode

end Pass

/-! ### The node array -/

/-- The tree is that of a finished transaction: no segment stops before it
starts, segments at different places are different, and the texts that are
copied from them are JSON. -/
structure FinishedTree (root : OrderedTree NrSegment) : Prop where
  times : ∀ s ∈ root.labels, s.startTime ≤ s.stopTime
  distinct : (root.labels.map NrSegment.address).Nodup
  json : ∀ s ∈ root.labels, AttributesJson s

/-- The nodes, in brackets, are a JSON array that has every shown segment
exactly once, below the node of its nearest shown ancestor. -/
def NodeArrayOk (txn : NrTxn) (names : NrPool) (p : NrSegment → Bool)
    (root : OrderedTree NrSegment) (nodes : Bytes) : Prop :=
  ∃ g js, g.labels = root.labels.filter p ∧
    g.edges none = root.toForest.nearestEdges p none ∧ NodesJson txn names g js ∧
    parse (lbracket :: (nodes ++ [rbracket])) = some (.arr js)

/-- What the pass added to the buffer after the text `head`. -/
def printedNodes (head : Bytes) (u : NrSegmentUserdata) : Bytes :=
  match u.trace with
  | none => []
  | some t => t.buf.drop head.length

/-- The nodes of segments without a shown ancestor stand side by side with
nothing in between. -/
theorem printSegments_prints (txn : NrTxn) (guid : ℕ → Bytes) (absStartTime : ℕ) (head : Bytes)
    (createSpans : Bool) (traceSet spanSet : Option (List ℕ)) {root : OrderedTree NrSegment}
    (hroot : FinishedTree root) (names : NrPool) :
    let u := nrSegmentTracesJsonPrintSegments txn guid absStartTime (some head) createSpans
      traceSet spanSet root names
    ∃ t texts js, u.success = true ∧ u.trace = some t ∧ t.buf = head ++ texts.flatten ∧
      List.Forall₂ Reads texts js ∧
      NodesJson txn u.segmentNames (root.toForest.keep (shown traceSet)) js := by
  intro u
  obtain ⟨t, texts, js, h⟩ := walk_prints txn guid absStartTime root.toForest none
    (u := { segmentNames := names
            success := true
            trace := some { buf := head, sample := traceSet, currentPath := []
                            sampledAncestorsWithChild := [] }
            spans :=
              if createSpans then
                some { events := [], sample := spanSet, currentPath := [], currentSpanPath := []
                       guidsCreated := 0 }
              else none })
    rfl hroot.times hroot.distinct hroot.json (by simp) (by simp)
  exact ⟨t, texts, js, h.success, h.trace, h.buf, h.reads, h.json⟩

theorem printSegments_nodeArrayOk_iff (txn : NrTxn) (guid : ℕ → Bytes) (absStartTime : ℕ)
    (head : Bytes) (createSpans : Bool) (traceSet spanSet : Option (List ℕ))
    {root : OrderedTree NrSegment} (hroot : FinishedTree root) (names : NrPool) :
    let u := nrSegmentTracesJsonPrintSegments txn guid absStartTime (some head) createSpans
      traceSet spanSet root names
    NodeArrayOk txn u.segmentNames (shown traceSet) root (printedNodes head u) ↔
      (root.toForest.tops (shown traceSet)).length ≤ 1 := by
  intro u
  obtain ⟨t, texts, js, -, htrace, hbuf, hreads, hjson⟩ :=
    printSegments_prints txn guid absStartTime head createSpans traceSet spanSet hroot names
  have hnodes : printedNodes head u = texts.flatten := by
    rw [printedNodes, htrace]
    simp [hbuf]
  have hlength : texts.length = (root.toForest.tops (shown traceSet)).length := by
    rw [hreads.length_eq, hjson.length_eq, Forest.length_keep]
  rw [← hlength, hnodes]
  constructor
  · rintro ⟨g, js', -, -, -, hparse⟩
    by_contra hmany
    cases hreads with
    | nil => exact hmany (Nat.zero_le 1)
    | cons hread hreads' =>
        cases hreads' with
        | nil => exact hmany (le_refl 1)
        | cons hread' _ =>
            rw [List.flatten_cons, List.flatten_cons, List.append_assoc, List.append_assoc,
              parse_arr_adjacent hread hread'] at hparse
            simp at hparse
  · intro hone
    refine ⟨_, js, Forest.labels_keep _ _, Forest.edges_keep _ _ _, hjson, ?_⟩
    have hjoin : texts.flatten = commaJoin texts := by
      cases texts with
      | nil => rfl
      | cons text texts =>
          obtain rfl : texts = [] := by
            rw [List.length_cons] at hone
            exact List.eq_nil_of_length_eq_zero (by omega)
          simp [commaJoin]
    rw [hjoin]
    exact (reads_arr (hreads.imp fun _ _ h => h.embeds)).parse_eq

/-! ### Sampled traces -/

section Sampled

variable (txn : NrTxn) (root : OrderedTree NrSegment) (guid : ℕ → Bytes)
  (absStartTime traceLimit spanLimit : ℕ)

/-- The set of segments the trace is sampled with: those left in the heap after
the first pass. -/
def traceSample : List ℕ :=
  nrSegmentHeapToSet (firstPass txn root traceLimit spanLimit).traceHeap

/-- `metadata->span_set` of `nr_segment_tree_finalise`. -/
def spanSample : Option (List ℕ) :=
  if txn.segmentCount > spanLimit then
    some (nrSegmentHeapToSet (firstPass txn root traceLimit spanLimit).spanHeap)
  else none

/-- The second pass of a transaction with more segments than the trace may
have. -/
def sampledPass : NrSegmentUserdata :=
  nrSegmentTracesJsonPrintSegments txn guid absStartTime (some (traceHead (nrTxnDuration txn)))
    (decide (spanLimit > 0) && nrTxnShouldCreateSpanEvents txn)
    (some (traceSample txn root traceLimit spanLimit))
    (spanSample txn root traceLimit spanLimit) root []

/-- The transaction is saved as a trace, and the trace is sampled. -/
structure SavesSampledTrace : Prop where
  isRoot : txn.segmentRoot = some root
  limit : 2 ≤ traceLimit
  more : traceLimit < txn.segmentCount
  saved : nrTxnShouldSaveTrace txn (nrTxnDuration txn) = true
  duration : nrTxnDuration txn ≠ 0
  size : (traceSample txn root traceLimit spanLimit).length ≤ nrMaxSegments

end Sampled

section Sampled

variable {txn : NrTxn} {root : OrderedTree NrSegment} {traceLimit spanLimit : ℕ}

/-- The trace is what comes before the nodes, the nodes, and what comes after
them. -/
theorem traceJson_sampled (hsaves : SavesSampledTrace txn root traceLimit spanLimit)
    (hroot : FinishedTree root) (guid : ℕ → Bytes) (absStartTime : ℕ)
    (attributes : TraceAttributes) :
    let u := sampledPass txn root guid absStartTime traceLimit spanLimit
    (nrSegmentTreeFinalise txn guid absStartTime attributes traceLimit spanLimit).2.traceJson =
      some (traceHead (nrTxnDuration txn) ++ (printedNodes (traceHead (nrTxnDuration txn)) u ++
        traceTail (attributesHash attributes.agentAttributes attributes.userAttributes
          attributes.intrinsics) u.segmentNames)) := by
  intro u
  obtain ⟨t, texts, js, hsuccess, htrace, hbuf, -⟩ := printSegments_prints txn guid absStartTime
    (traceHead (nrTxnDuration txn)) (decide (spanLimit > 0) && nrTxnShouldCreateSpanEvents txn)
    (some (traceSample txn root traceLimit spanLimit)) (spanSample txn root traceLimit spanLimit)
    hroot []
  have hlimit : 0 < traceLimit := by have := hsaves.limit; omega
  have hcount : txn.segmentCount ≠ 0 := by have := hsaves.more; omega
  have hcreate : ¬(txn.segmentCount = 0 ∨ nrTxnDuration txn = 0 ∨
      ((some (traceSample txn root traceLimit spanLimit)).any fun set =>
        decide (nrMaxSegments < set.length)) = true) := by
    have hsize := hsaves.size
    simp [hcount, hsaves.duration]
    omega
  have hfinalise :
      (nrSegmentTreeFinalise txn guid absStartTime attributes traceLimit spanLimit).2 =
        nrSegmentTracesCreateData txn guid absStartTime root (nrTxnDuration txn)
          (some (traceSample txn root traceLimit spanLimit))
          (spanSample txn root traceLimit spanLimit) attributes true
          (decide (spanLimit > 0) && nrTxnShouldCreateSpanEvents txn) := by
    rw [nrSegmentTreeFinalise, hsaves.isRoot]
    simp only [hsaves.saved, hlimit, hsaves.more, gt_iff_lt, decide_true, Bool.true_and,
      Bool.true_or, if_true, spanSample, decide_eq_true_eq]
    rfl
  have hpass : u = nrSegmentTracesJsonPrintSegments txn guid absStartTime
      (some (traceHead (nrTxnDuration txn)))
      (decide (spanLimit > 0) && nrTxnShouldCreateSpanEvents txn)
      (some (traceSample txn root traceLimit spanLimit))
      (spanSample txn root traceLimit spanLimit) root [] := rfl
  rw [← hpass] at hsuccess htrace
  have hnodes : printedNodes (traceHead (nrTxnDuration txn)) u = texts.flatten := by
    rw [printedNodes, htrace]
    simp [hbuf]
  rw [hfinalise, nrSegmentTracesCreateData, if_neg hcreate]
  simp only [if_true, ← hpass, hsuccess, htrace, hnodes, hbuf, Bool.not_true, Bool.false_and,
    Bool.or_false, Bool.false_eq_true, if_false, Option.map_some, List.append_assoc]

end Sampled

/-! ### A root of the same duration as its children -/

/-- A root that stops after `n` microseconds and two children, each in a
context of its own, that stop after 10 milliseconds. -/
def forkedTree (n : ℕ) : OrderedTree NrSegment :=
  ⟨plainSegment 0 0 0 n,
    .node (plainSegment 1 1 0 10000) .nil (.node (plainSegment 2 2 0 10000) .nil .nil)⟩

/-- A transaction of three segments that is saved as a trace. -/
def tracedTxn (root : OrderedTree NrSegment) : NrTxn :=
  { segmentRoot := some root, segmentCount := 3, traceStrings := []
    discountMainContextBlocking := false, ttThreshold := 0, isSynthetics := false
    distributedTraceSampled := false, distributedTracingEnabled := false
    spanEventsEnabled := false }

theorem attributesJson_plainSegment (address asyncContext startTime stopTime : ℕ) :
    AttributesJson (plainSegment address asyncContext startTime stopTime) :=
  ⟨by simp [plainSegment, typedAttributes], by simp [plainSegment]⟩

theorem finishedTree_forkedTree (n : ℕ) : FinishedTree (forkedTree n) where
  times := by simp [forkedTree, OrderedTree.labels, OrderedTree.toForest, plainSegment]
  distinct := by simp [forkedTree, OrderedTree.labels, OrderedTree.toForest, plainSegment]
  json := by
    simp only [forkedTree, OrderedTree.labels, OrderedTree.toForest, Forest.labels_node,
      Forest.labels_nil, List.append_nil, List.nil_append, List.forall_mem_cons]
    exact ⟨attributesJson_plainSegment _ _ _ _, attributesJson_plainSegment _ _ _ _,
      attributesJson_plainSegment _ _ _ _, by simp⟩

theorem traceSample_forkedTree :
    traceSample (tracedTxn (forkedTree 20000)) (forkedTree 20000) 2 0 = [2, 0] ∧
      traceSample (tracedTxn (forkedTree 10000)) (forkedTree 10000) 2 0 = [1, 2] := by
  decide

theorem savesSampledTrace_forkedTree {n : ℕ} (hn : n ≠ 0)
    (hsize : (traceSample (tracedTxn (forkedTree n)) (forkedTree n) 2 0).length ≤ nrMaxSegments) :
    SavesSampledTrace (tracedTxn (forkedTree n)) (forkedTree n) 2 0 where
  isRoot := rfl
  limit := le_refl 2
  more := Nat.lt_succ_self 2
  saved := by simp [nrTxnShouldSaveTrace, tracedTxn]
  duration := by
    simp only [nrTxnDuration, tracedTxn, forkedTree, plainSegment, nrTimeDuration_eq]
    exact hn
  size := hsize

end AxiomDaemon.Axiom

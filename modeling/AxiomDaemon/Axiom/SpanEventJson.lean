import AxiomDaemon.Axiom.DistributedTrace
import AxiomDaemon.Axiom.SegmentTraces
import AxiomDaemon.Lib.JsonUnescaped

/-!
The JSON of span events, `nr_txndata_prepend_span_events` of
`cmd_txndata_transmit.c`. What all span events of a transaction have in
common is printed by one call of `nr_formatf`, which does not escape the
trace id and the guid of the transaction; everything else is escaped.
-/

namespace AxiomDaemon.Axiom

open AxiomDaemon.Lib AxiomDaemon.Lib.Json AxiomDaemon.Util

/-- `"key":` -/
def jsonKey (key : String) : Bytes := quote :: (ascii key ++ [quote, colon])

/-- `spanevt_json_common`. -/
def spanevtJsonCommon (dt : NrDistributedTrace) : Bytes :=
  lbracket :: lbrace :: (jsonKey "type" ++ (ascii "\"Span\"" ++
    comma :: (jsonKey "traceId" ++ quote :: (formatString dt.traceId ++
      quote :: comma :: (jsonKey "transactionId" ++ quote :: (formatString dt.txnId ++
        quote :: comma :: (jsonKey "sampled" ++
          ((if dt.sampled then ascii "true" else ascii "false") ++
            comma :: (jsonKey "priority" ++ (dt.priority.format 6 ++ [comma]))))))))))

/-- `nr_buffer_add_escape_json`: what is added. -/
def nrBufferAddEscapeJson (rawString : Option Bytes) : Bytes :=
  match rawString with
  | none => []
  | some s => nrJsonEscape s

/-- A time in microseconds as a `double` of seconds. -/
def secondsOf (duration : ℕ) : Double := (Double.ofRatio false duration 1).div 1000000

/-- The end of `nr_txndata_prepend_span_specific_json`: the parent's guid, or
the mark of an entry point and the guid the caller sent. -/
def spanParentJson (dt : NrDistributedTrace) (event : NrSpanEvent) : Bytes :=
  match event.parentGuid with
  | none =>
      (match dt.inbound.guid with
      | none => []
      | some guid => jsonKey "parentId" ++ (nrJsonEscape guid ++ [comma])) ++
      (jsonKey "nr.entryPoint" ++ ascii "true")
  | some guid => jsonKey "parentId" ++ nrBufferAddEscapeJson guid

def nrTxndataPrependSpanSpecificJson (dt : NrDistributedTrace) (event : NrSpanEvent)
    (category : String) : Bytes :=
  jsonKey "name" ++ (nrBufferAddEscapeJson event.name ++
    comma :: (jsonKey "guid" ++ (nrBufferAddEscapeJson event.guid ++
      comma :: (jsonKey "timestamp" ++ (decimal (event.timestamp / 1000) ++
        comma :: (jsonKey "duration" ++ ((secondsOf event.duration).format 6 ++
          comma :: (jsonKey "category" ++ (nrJsonEscape (ascii category) ++
            comma :: spanParentJson dt event)))))))))

/-- A member that is there if its value is, with what comes before and after. -/
def optionalMember (before : Bytes) (key : String) (value : Option Bytes) (after : Bytes) : Bytes :=
  match value with
  | none => []
  | some value => before ++ (jsonKey key ++ (nrJsonEscape value ++ after))

def nrTxndataPrependSpanDatastore (fields : SpanDatastore) : Bytes :=
  comma :: (jsonKey "span.kind" ++ (ascii "\"client\"" ++
    (optionalMember [comma] "component" fields.component [] ++
      (ascii "\x7d,{},\x7b" ++
        (optionalMember [] "db.statement" fields.dbStatement [comma] ++
          (optionalMember [] "db.instance" fields.dbInstance [comma] ++
            (optionalMember [] "peer.hostname" fields.peerHostname [comma] ++
              (jsonKey "peer.address" ++ nrBufferAddEscapeJson fields.peerAddress))))))))

def nrTxndataPrependSpanExternal (fields : SpanExternal) : Bytes :=
  comma :: (jsonKey "span.kind" ++ (ascii "\"client\"" ++
    (optionalMember [comma] "component" fields.component [] ++
      (ascii "\x7d,{},\x7b" ++
        (optionalMember [] "http.url" fields.url [] ++
          ((if fields.url.isSome && fields.method.isSome then [comma] else []) ++
            optionalMember [] "http.method" fields.method []))))))

/-- The text that is sent for one span event. -/
def spanEventText (dt : NrDistributedTrace) (event : NrSpanEvent) : Bytes :=
  spanevtJsonCommon dt ++
    match event.category with
    | .http fields =>
        nrTxndataPrependSpanSpecificJson dt event "http" ++
          (nrTxndataPrependSpanExternal fields ++ [rbrace, rbracket])
    | .datastore fields =>
        nrTxndataPrependSpanSpecificJson dt event "datastore" ++
          (nrTxndataPrependSpanDatastore fields ++ [rbrace, rbracket])
    | .generic => nrTxndataPrependSpanSpecificJson dt event "generic" ++ ascii "\x7d,{},{}]"

/-- `nr_txndata_prepend_span_events`: the texts of the events, up to the limit
of the application. -/
def nrTxndataPrependSpanEvents (dt : NrDistributedTrace) (spanEvents : List NrSpanEvent)
    (limit : ℕ) : List Bytes :=
  (spanEvents.take limit).map (spanEventText dt)

/-! ### What the text should say -/

/-- A member of a hash: a stored string, or a value that was computed. -/
inductive SpanField
  | string (key : String) (stored : Bytes)
  | value (key : String) (json : Json)

/-- The code units of a key of the source. -/
def keyUnits (key : String) : List ℕ := (ascii key).map UInt8.toNat

/-- The member says what the field is: a string stands for exactly what is
stored. -/
def SpanField.Says : SpanField → List ℕ × Json → Prop
  | .string key stored, m => ∃ units, utf16 stored = some units ∧ m = (keyUnits key, .str units)
  | .value key json, m => m = (keyUnits key, json)

def stringField (key : String) (stored : Option Bytes) : List SpanField :=
  (stored.map (.string key)).toList

/-- What identifies the parent of a span: the guid of the span it is in or, for
the first span of a transaction, what the caller sent. -/
def parentFields (dt : NrDistributedTrace) (event : NrSpanEvent) : List SpanField :=
  match event.parentGuid with
  | some guid => stringField "parentId" guid
  | none => stringField "parentId" dt.inbound.guid ++ [.value "nr.entryPoint" (.bool true)]

def SpanCategory.name : SpanCategory → String
  | .generic => "generic"
  | .datastore _ => "datastore"
  | .http _ => "http"

def kindFields : SpanCategory → List SpanField
  | .generic => []
  | .datastore fields =>
      .string "span.kind" (ascii "client") :: stringField "component" fields.component
  | .http fields => .string "span.kind" (ascii "client") :: stringField "component" fields.component

/-- The fields of the first hash. -/
def intrinsicFields (dt : NrDistributedTrace) (event : NrSpanEvent) : List SpanField :=
  .string "type" (ascii "Span") :: (stringField "traceId" dt.traceId ++
    (stringField "transactionId" dt.txnId ++
      ([.value "sampled" (.bool dt.sampled), .value "priority" (.num (dt.priority.format 6))] ++
        (stringField "name" event.name ++ (stringField "guid" event.guid ++
          ([.value "timestamp" (.num (decimal (event.timestamp / 1000))),
            .value "duration" (.num ((secondsOf event.duration).format 6)),
            .string "category" (ascii event.category.name)] ++
            (parentFields dt event ++ kindFields event.category)))))))

/-- The fields of the third hash. -/
def agentFields : SpanCategory → List SpanField
  | .generic => []
  | .datastore fields =>
      stringField "db.statement" fields.dbStatement ++
        (stringField "db.instance" fields.dbInstance ++
          (stringField "peer.hostname" fields.peerHostname ++
            stringField "peer.address" fields.peerAddress))
  | .http fields => stringField "http.url" fields.url ++ stringField "http.method" fields.method

/-- The text is an array of three hashes that hold exactly the fields. -/
def SpanTextOk (dt : NrDistributedTrace) (event : NrSpanEvent) (text : Bytes) : Prop :=
  ∃ first third, parse text = some (.arr [.obj first, .obj [], .obj third]) ∧
    List.Forall₂ SpanField.Says (intrinsicFields dt event) first ∧
    List.Forall₂ SpanField.Says (agentFields event.category) third

/-- What every span event has that the second pass makes. -/
structure SpanBuilt (event : NrSpanEvent) : Prop where
  name : event.name.isSome
  guid : event.guid.isSome
  parent : ∀ guid, event.parentGuid = some guid → guid.isSome
  address : ∀ fields, event.category = .datastore fields → fields.peerAddress.isSome

/-! ### The text as a list of members -/

/-- The text of a value that was computed. -/
def valueText : Json → Bytes
  | .num text => text
  | .bool b => if b then ascii "true" else ascii "false"
  | _ => []

/-- The text of a field whose string is escaped. -/
def SpanField.text : SpanField → Bytes
  | .string key stored => jsonKey key ++ nrJsonEscape stored
  | .value key json => jsonKey key ++ valueText json

/-- The text of a field whose string is not. -/
def unescapedText (key : String) (stored : Option Bytes) : Bytes :=
  jsonKey key ++ quote :: (formatString stored ++ [quote])

/-- The texts of the fields, each with a comma before it. -/
def commaBefore (fields : List SpanField) : Bytes :=
  ((fields.map SpanField.text).map (comma :: ·)).flatten

@[simp] theorem commaBefore_nil : commaBefore [] = [] := rfl

@[simp] theorem commaBefore_cons (field : SpanField) (fields : List SpanField) :
    commaBefore (field :: fields) = comma :: (field.text ++ commaBefore fields) := rfl

theorem commaBefore_append (fields fields' : List SpanField) :
    commaBefore (fields ++ fields') = commaBefore fields ++ commaBefore fields' := by
  simp [commaBefore]

theorem optionalMember_before (key : String) (value : Option Bytes) :
    optionalMember [comma] key value [] = commaBefore (stringField key value) := by
  cases value with
  | none => rfl
  | some value => simp [optionalMember, stringField, SpanField.text]

/-- The fields that come after those the events of a transaction share. -/
def specificFields (dt : NrDistributedTrace) (event : NrSpanEvent) : List SpanField :=
  stringField "name" event.name ++ (stringField "guid" event.guid ++
    ([.value "timestamp" (.num (decimal (event.timestamp / 1000))),
      .value "duration" (.num ((secondsOf event.duration).format 6)),
      .string "category" (ascii event.category.name)] ++ parentFields dt event))

theorem spanParentJson_eq {dt : NrDistributedTrace} {event : NrSpanEvent} (h : SpanBuilt event) :
    comma :: spanParentJson dt event = commaBefore (parentFields dt event) := by
  rw [parentFields, spanParentJson]
  cases hp : event.parentGuid with
  | none =>
      cases dt.inbound.guid with
      | none => simp [stringField, SpanField.text, valueText]
      | some inbound => simp [stringField, SpanField.text, valueText]
  | some parent =>
      obtain ⟨parentGuid, rfl⟩ := Option.isSome_iff_exists.mp (h.parent parent hp)
      simp [stringField, SpanField.text, nrBufferAddEscapeJson]

/-- The five fields every span event has, in the order in which they are printed. -/
theorem commaBefore_five (k₁ k₂ k₃ k₄ k₅ : String) (a b c d e : Bytes) (fields : List SpanField) :
    commaBefore ([.string k₁ a] ++ ([.string k₂ b] ++
      ([.value k₃ (.num c), .value k₄ (.num d), .string k₅ e] ++ fields))) =
      comma :: (jsonKey k₁ ++ (nrJsonEscape a ++ comma :: (jsonKey k₂ ++ (nrJsonEscape b ++
        comma :: (jsonKey k₃ ++ (c ++ comma :: (jsonKey k₄ ++ (d ++
          comma :: (jsonKey k₅ ++ (nrJsonEscape e ++ commaBefore fields)))))))))) := by
  simp [SpanField.text, valueText]

theorem specificJson_eq {dt : NrDistributedTrace} {event : NrSpanEvent} (h : SpanBuilt event) :
    comma :: nrTxndataPrependSpanSpecificJson dt event event.category.name =
      commaBefore (specificFields dt event) := by
  obtain ⟨name, hname⟩ := Option.isSome_iff_exists.mp h.name
  obtain ⟨guid, hguid⟩ := Option.isSome_iff_exists.mp h.guid
  rw [specificFields, hname, hguid, nrTxndataPrependSpanSpecificJson, spanParentJson_eq h, hname,
    hguid]
  exact (commaBefore_five _ _ _ _ _ _ _ _ _ _ _).symm

/-- The texts of the members that all events of a transaction share. -/
def sharedTexts (dt : NrDistributedTrace) : List Bytes :=
  [jsonKey "type" ++ ascii "\"Span\"", unescapedText "traceId" dt.traceId,
    unescapedText "transactionId" dt.txnId,
    jsonKey "sampled" ++ (if dt.sampled then ascii "true" else ascii "false"),
    jsonKey "priority" ++ dt.priority.format 6]

/-- The text of a hash with members of the given texts. -/
def hashText (texts : List Bytes) : Bytes := lbrace :: (commaJoin texts ++ [rbrace])

theorem commaJoin_five (a b c d e : Bytes) (texts : List Bytes) :
    commaJoin ([a, b, c, d, e] ++ texts) = a ++ comma :: (b ++ comma :: (c ++ comma :: (d ++
      comma :: (e ++ (texts.map (comma :: ·)).flatten)))) := by
  rw [List.cons_append, commaJoin_cons_eq]
  simp

theorem common_eq (dt : NrDistributedTrace) (bs : Bytes) :
    spanevtJsonCommon dt ++ bs = lbracket :: lbrace ::
      ((jsonKey "type" ++ ascii "\"Span\"") ++ comma :: (unescapedText "traceId" dt.traceId ++
        comma :: (unescapedText "transactionId" dt.txnId ++
          comma :: ((jsonKey "sampled" ++ (if dt.sampled then ascii "true" else ascii "false")) ++
            comma :: ((jsonKey "priority" ++ dt.priority.format 6) ++ comma :: bs))))) := by
  simp only [spanevtJsonCommon, unescapedText, List.append_assoc, List.cons_append,
    List.nil_append]

theorem common_append (dt : NrDistributedTrace) {bs : Bytes} {fields : List SpanField}
    (h : comma :: bs = commaBefore fields) :
    spanevtJsonCommon dt ++ bs =
      lbracket :: lbrace :: commaJoin (sharedTexts dt ++ fields.map SpanField.text) := by
  rw [common_eq, h, sharedTexts, commaJoin_five, commaBefore]

theorem kindJson_eq (component : Option Bytes) (bs : Bytes) :
    comma :: (jsonKey "span.kind" ++ (ascii "\"client\"" ++
      (optionalMember [comma] "component" component [] ++ bs))) =
      commaBefore (.string "span.kind" (ascii "client") :: stringField "component" component) ++
        bs := by
  have hclient : nrJsonEscape (ascii "client") = ascii "\"client\"" := by decide +kernel
  rw [optionalMember_before, commaBefore_cons, SpanField.text, hclient, List.cons_append,
    List.append_assoc, List.append_assoc]

theorem separator_eq : ascii "\x7d,{},\x7b" = [rbrace, comma, lbrace, rbrace, comma, lbrace] := by
  decide

theorem genericEnd_eq :
    ascii "\x7d,{},{}]" = [rbrace, comma, lbrace, rbrace, comma, lbrace, rbrace, rbracket] := by
  decide

theorem optionalMember_after (key : String) (value : Option Bytes) :
    optionalMember [] key value [comma] =
      (((stringField key value).map SpanField.text).map (· ++ [comma])).flatten := by
  cases value with
  | none => rfl
  | some value => simp [optionalMember, stringField, SpanField.text]

theorem agentJson_datastore {fields : SpanDatastore} (h : fields.peerAddress.isSome) :
    optionalMember [] "db.statement" fields.dbStatement [comma] ++
      (optionalMember [] "db.instance" fields.dbInstance [comma] ++
        (optionalMember [] "peer.hostname" fields.peerHostname [comma] ++
          (jsonKey "peer.address" ++ nrBufferAddEscapeJson fields.peerAddress))) =
      commaJoin ((agentFields (.datastore fields)).map SpanField.text) := by
  obtain ⟨address, haddress⟩ := Option.isSome_iff_exists.mp h
  have hlast : stringField "peer.address" fields.peerAddress =
      [.string "peer.address" address] := by
    rw [haddress]
    rfl
  have hsplit : agentFields (.datastore fields) =
      (stringField "db.statement" fields.dbStatement ++
        (stringField "db.instance" fields.dbInstance ++
          stringField "peer.hostname" fields.peerHostname)) ++
        [.string "peer.address" address] := by
    rw [agentFields, hlast, List.append_assoc, List.append_assoc]
  rw [hsplit, List.map_append, List.map_singleton, commaJoin_concat, List.map_append,
    List.map_append, List.map_append, List.map_append, List.flatten_append, List.flatten_append,
    optionalMember_after, optionalMember_after, optionalMember_after, haddress, SpanField.text,
    nrBufferAddEscapeJson, List.append_assoc, List.append_assoc]

theorem agentJson_external (fields : SpanExternal) :
    optionalMember [] "http.url" fields.url [] ++
      ((if fields.url.isSome && fields.method.isSome then [comma] else []) ++
        optionalMember [] "http.method" fields.method []) =
      commaJoin ((agentFields (.http fields)).map SpanField.text) := by
  rw [agentFields]
  cases fields.url with
  | none =>
      cases fields.method with
      | none => rfl
      | some method => simp [optionalMember, stringField, commaJoin, SpanField.text]
  | some url =>
      cases fields.method with
      | none => simp [optionalMember, stringField, commaJoin, SpanField.text]
      | some method => simp [optionalMember, stringField, commaJoin, SpanField.text]

/-- The texts of the members of the first hash. -/
def firstTexts (dt : NrDistributedTrace) (event : NrSpanEvent) : List Bytes :=
  sharedTexts dt ++ (specificFields dt event ++ kindFields event.category).map SpanField.text

theorem common_append_hashes (dt : NrDistributedTrace) {bs : Bytes} {fields : List SpanField}
    (h : comma :: bs = commaBefore fields) (third : List Bytes) :
    spanevtJsonCommon dt ++ (bs ++ ([rbrace, comma, lbrace, rbrace, comma, lbrace] ++
      (commaJoin third ++ [rbrace, rbracket]))) =
      lbracket :: (commaJoin [hashText (sharedTexts dt ++ fields.map SpanField.text), hashText [],
        hashText third] ++ [rbracket]) := by
  rw [← List.append_assoc, common_append dt h]
  generalize sharedTexts dt ++ fields.map SpanField.text = first
  simp [hashText, commaJoin]

/-- The text is an array of three hashes, whatever the strings are. -/
theorem spanEventText_eq {dt : NrDistributedTrace} {event : NrSpanEvent} (h : SpanBuilt event) :
    spanEventText dt event = lbracket :: (commaJoin [hashText (firstTexts dt event), hashText [],
      hashText ((agentFields event.category).map SpanField.text)] ++ [rbracket]) := by
  have hspecific : comma :: (nrTxndataPrependSpanSpecificJson dt event event.category.name ++
      commaBefore (kindFields event.category)) =
        commaBefore (specificFields dt event ++ kindFields event.category) := by
    rw [commaBefore_append, ← specificJson_eq h, List.cons_append]
  rw [firstTexts, ← common_append_hashes dt hspecific, spanEventText]
  cases hcategory : event.category with
  | generic =>
      show _ ++ (nrTxndataPrependSpanSpecificJson dt event "generic" ++ ascii "\x7d,{},{}]") =
        _ ++ (nrTxndataPrependSpanSpecificJson dt event "generic" ++ [] ++ _)
      rw [genericEnd_eq, List.append_nil]
      rfl
  | datastore fields =>
      have hjson : nrTxndataPrependSpanDatastore fields =
          commaBefore (kindFields (.datastore fields)) ++
            ([rbrace, comma, lbrace, rbrace, comma, lbrace] ++
              commaJoin ((agentFields (.datastore fields)).map SpanField.text)) := by
        rw [nrTxndataPrependSpanDatastore, kindJson_eq, separator_eq,
          agentJson_datastore (h.address fields hcategory), kindFields]
      show _ ++ (nrTxndataPrependSpanSpecificJson dt event "datastore" ++
        (nrTxndataPrependSpanDatastore fields ++ [rbrace, rbracket])) = _
      rw [hjson]
      simp only [SpanCategory.name, List.append_assoc]
  | http fields =>
      have hjson : nrTxndataPrependSpanExternal fields =
          commaBefore (kindFields (.http fields)) ++
            ([rbrace, comma, lbrace, rbrace, comma, lbrace] ++
              commaJoin ((agentFields (.http fields)).map SpanField.text)) := by
        rw [nrTxndataPrependSpanExternal, kindJson_eq, separator_eq, agentJson_external,
          kindFields]
      show _ ++ (nrTxndataPrependSpanSpecificJson dt event "http" ++
        (nrTxndataPrependSpanExternal fields ++ [rbrace, rbracket])) = _
      rw [hjson]
      simp only [SpanCategory.name, List.append_assoc]

/-! ### When the text says it -/

/-- The string is there, is UTF-8 and has nothing that would have to be
escaped. -/
def PlainString (s : Option Bytes) : Prop :=
  ∃ bs, s = some bs ∧ bs.all isPlain = true ∧ (utf16 bs).isSome

/-- The strings that are printed without being escaped need no escapes, the
priority is a number, and every string is UTF-8. -/
structure SpanTextCondition (dt : NrDistributedTrace) (event : NrSpanEvent) : Prop where
  traceId : PlainString dt.traceId
  txnId : PlainString dt.txnId
  priority : dt.priority.isFinite = true
  strings : ∀ key stored, SpanField.string key stored ∈ specificFields dt event ++
    (kindFields event.category ++ agentFields event.category) → (utf16 stored).isSome

theorem member_jsonKey {key : String} (hkey : (ascii key).all isPlainAscii = true) {text : Bytes}
    {v : Json} (hv : Embeds text v) : Member (jsonKey key ++ text) (keyUnits key, v) := by
  have hmember : Member (quote :: (ascii key ++ quote :: colon :: text)) (keyUnits key, v) :=
    .mk (spells_ascii hkey) hv
  rw [jsonKey, List.cons_append, List.append_assoc]
  exact hmember

/-- A field that can be printed: its key needs no escapes and its value has a
text. -/
def SpanField.Printable : SpanField → Prop
  | .string key stored => (ascii key).all isPlainAscii = true ∧ (utf16 stored).isSome
  | .value key json => (ascii key).all isPlainAscii = true ∧ Embeds (valueText json) json

theorem SpanField.Printable.exists_member {field : SpanField} (h : field.Printable) :
    ∃ m, Member field.text m ∧ field.Says m := by
  cases field with
  | string key stored =>
      obtain ⟨units, hunits⟩ := Option.isSome_iff_exists.mp h.2
      exact ⟨(keyUnits key, .str units),
        member_jsonKey h.1 (reads_nrJsonEscape hunits).embeds, units, hunits, rfl⟩
  | value key json => exact ⟨(keyUnits key, json), member_jsonKey h.1 h.2, rfl⟩

theorem exists_members (fields : List SpanField) (h : ∀ f ∈ fields, f.Printable) :
    ∃ ms, List.Forall₂ Member (fields.map SpanField.text) ms ∧
      List.Forall₂ SpanField.Says fields ms := by
  induction fields with
  | nil => exact ⟨[], .nil, .nil⟩
  | cons field fields ih =>
      obtain ⟨m, hm, hmeans⟩ := (h field (by simp)).exists_member
      obtain ⟨ms, hms, hall⟩ := ih fun f hf => h f (by simp [hf])
      exact ⟨m :: ms, .cons hm hms, .cons hmeans hall⟩

theorem secondsOf_isFinite {duration : ℕ} (h : duration < 2 ^ 64) :
    (secondsOf duration).isFinite = true := by
  obtain ⟨d, hd⟩ := Double.exists_finite (Double.ofRatio_word_isFinite false h)
  rw [secondsOf, hd]
  exact Double.div_isFinite d (Nat.succ_pos 999999)

theorem embeds_format_of_isFinite {d : Double} (h : d.isFinite = true) :
    Embeds (d.format 6) (.num (d.format 6)) := by
  obtain ⟨f, rfl⟩ := Double.exists_finite h
  exact Double.embeds_format f 5

theorem embeds_valueText {text : Bytes} (h : Embeds text (.num text)) :
    Embeds (valueText (.num text)) (.num text) := h

/-- If its strings are UTF-8, all fields of the list can be printed. -/
def AllPrintable (fields : List SpanField) : Prop :=
  (∀ key stored, SpanField.string key stored ∈ fields → (utf16 stored).isSome) →
    ∀ f ∈ fields, f.Printable

theorem AllPrintable.append {fields fields' : List SpanField} (h : AllPrintable fields)
    (h' : AllPrintable fields') : AllPrintable (fields ++ fields') := by
  intro hstrings f hf
  rcases List.mem_append.mp hf with hmem | hmem
  · exact h (fun key stored hs => hstrings key stored (List.mem_append_left _ hs)) f hmem
  · exact h' (fun key stored hs => hstrings key stored (List.mem_append_right _ hs)) f hmem

theorem allPrintable_nil : AllPrintable [] := by
  intro _ f hf
  simp at hf

theorem AllPrintable.cons {field : SpanField} {fields : List SpanField}
    (h : AllPrintable fields) (hfield : (∀ key stored, field = .string key stored →
      (utf16 stored).isSome) → field.Printable) : AllPrintable (field :: fields) := by
  intro hstrings f hf
  rcases List.mem_cons.mp hf with rfl | hmem
  · exact hfield fun key stored heq => hstrings key stored (by simp [heq])
  · exact h (fun key stored hs => hstrings key stored (List.mem_cons_of_mem _ hs)) f hmem

theorem AllPrintable.string {fields : List SpanField} (h : AllPrintable fields) {key : String}
    (hkey : (ascii key).all isPlainAscii = true) (stored : Bytes) :
    AllPrintable (.string key stored :: fields) :=
  h.cons fun hstored => ⟨hkey, hstored key stored rfl⟩

theorem AllPrintable.value {fields : List SpanField} (h : AllPrintable fields) {key : String}
    (hkey : (ascii key).all isPlainAscii = true) {json : Json}
    (hjson : Embeds (valueText json) json) : AllPrintable (.value key json :: fields) :=
  h.cons fun _ => ⟨hkey, hjson⟩

theorem allPrintable_stringField {key : String} (hkey : (ascii key).all isPlainAscii = true)
    (stored : Option Bytes) : AllPrintable (stringField key stored) := by
  cases stored with
  | none => exact allPrintable_nil
  | some stored => exact allPrintable_nil.string hkey stored

theorem allPrintable_parentFields (dt : NrDistributedTrace) (event : NrSpanEvent) :
    AllPrintable (parentFields dt event) := by
  rw [parentFields]
  cases event.parentGuid with
  | some guid => exact allPrintable_stringField (by decide) guid
  | none =>
      refine (allPrintable_stringField (by decide) _).append
        (allPrintable_nil.value (by decide) ?_)
      exact reads_true.embeds

theorem allPrintable_specificFields (dt : NrDistributedTrace) {event : NrSpanEvent}
    (h : event.duration < 2 ^ 64) : AllPrintable (specificFields dt event) := by
  rw [specificFields]
  refine (allPrintable_stringField (by decide) _).append
    ((allPrintable_stringField (by decide) _).append
      (AllPrintable.append ?_ (allPrintable_parentFields dt event)))
  refine AllPrintable.value ?_ (by decide) (embeds_valueText (intText_decimal _).embeds)
  refine AllPrintable.value ?_ (by decide)
    (embeds_valueText (embeds_format_of_isFinite (secondsOf_isFinite h)))
  exact allPrintable_nil.string (by decide) _

theorem allPrintable_kindFields (category : SpanCategory) : AllPrintable (kindFields category) := by
  cases category with
  | generic => exact allPrintable_nil
  | datastore fields =>
      exact (allPrintable_stringField (by decide) _).string (by decide) _
  | http fields =>
      exact (allPrintable_stringField (by decide) _).string (by decide) _

theorem allPrintable_agentFields (category : SpanCategory) :
    AllPrintable (agentFields category) := by
  cases category with
  | generic => exact allPrintable_nil
  | datastore fields =>
      exact (allPrintable_stringField (by decide) _).append
        ((allPrintable_stringField (by decide) _).append
          ((allPrintable_stringField (by decide) _).append
            (allPrintable_stringField (by decide) _)))
  | http fields =>
      exact (allPrintable_stringField (by decide) _).append
        (allPrintable_stringField (by decide) _)

theorem intrinsicFields_eq (dt : NrDistributedTrace) (event : NrSpanEvent) :
    intrinsicFields dt event = .string "type" (ascii "Span") ::
      (stringField "traceId" dt.traceId ++ (stringField "transactionId" dt.txnId ++
        (.value "sampled" (.bool dt.sampled) ::
          .value "priority" (.num (dt.priority.format 6)) ::
            (specificFields dt event ++ kindFields event.category)))) := by
  rw [intrinsicFields, specificFields, List.append_assoc, List.append_assoc, List.append_assoc]
  rfl

/-- A string that is printed without being escaped, and needs no escapes. -/
theorem PlainString.exists_member {s : Option Bytes} (h : PlainString s) (key : String)
    (hkey : (ascii key).all isPlainAscii = true) :
    ∃ bs m, s = some bs ∧ Member (unescapedText key s) m ∧ (SpanField.string key bs).Says m := by
  obtain ⟨bs, rfl, hplain, hutf⟩ := h
  obtain ⟨units, hunits⟩ := Option.isSome_iff_exists.mp hutf
  have hreads := reads_str (spells_self (List.all_eq_true.mp hplain) hunits)
  exact ⟨bs, (keyUnits key, .str units), rfl, member_jsonKey hkey hreads.embeds, units, hunits,
    rfl⟩

theorem member_type : Member (jsonKey "type" ++ ascii "\"Span\"")
    (keyUnits "type", .str (keyUnits "Span")) := by
  have hquoted : ascii "\"Span\"" = quote :: (ascii "Span" ++ [quote]) := by decide
  rw [hquoted]
  exact member_jsonKey (by decide) (reads_str (spells_ascii (by decide))).embeds

theorem member_sampled (sampled : Bool) :
    Member (jsonKey "sampled" ++ (if sampled then ascii "true" else ascii "false"))
      (keyUnits "sampled", .bool sampled) := by
  refine member_jsonKey (by decide) ?_
  cases sampled with
  | true => exact reads_true.embeds
  | false => exact reads_false.embeds

theorem spanTextOk_of_condition {dt : NrDistributedTrace} {event : NrSpanEvent}
    (hbuilt : SpanBuilt event) (hduration : event.duration < 2 ^ 64)
    (h : SpanTextCondition dt event) : SpanTextOk dt event (spanEventText dt event) := by
  have hprintable := ((allPrintable_specificFields dt hduration).append
    ((allPrintable_kindFields event.category).append
      (allPrintable_agentFields event.category))) h.strings
  obtain ⟨ms, hms, hmeans⟩ := exists_members
    (specificFields dt event ++ kindFields event.category) fun f hf => by
      refine hprintable f ?_
      rcases List.mem_append.mp hf with hmem | hmem
      · exact List.mem_append_left _ hmem
      · exact List.mem_append_right _ (List.mem_append_left _ hmem)
  obtain ⟨third, hthird, hthirdSays⟩ := exists_members (agentFields event.category) fun f hf =>
    hprintable f (List.mem_append_right _ (List.mem_append_right _ hf))
  obtain ⟨traceId, mt, htrace, htraceMember, htraceSays⟩ :=
    h.traceId.exists_member "traceId" (by decide)
  obtain ⟨txnId, mx, htxn, htxnMember, htxnSays⟩ :=
    h.txnId.exists_member "transactionId" (by decide)
  have hpriority : Member (jsonKey "priority" ++ dt.priority.format 6)
      (keyUnits "priority", .num (dt.priority.format 6)) :=
    member_jsonKey (by decide) (embeds_format_of_isFinite h.priority)
  refine ⟨(keyUnits "type", .str (keyUnits "Span")) :: mt :: mx ::
    (keyUnits "sampled", .bool dt.sampled) ::
      (keyUnits "priority", .num (dt.priority.format 6)) :: ms, third, ?_, ?_, hthirdSays⟩
  · have hfirst : List.Forall₂ Member (firstTexts dt event)
        ((keyUnits "type", .str (keyUnits "Span")) :: mt :: mx ::
          (keyUnits "sampled", .bool dt.sampled) ::
            (keyUnits "priority", .num (dt.priority.format 6)) :: ms) :=
      .cons member_type (.cons htraceMember (.cons htxnMember (.cons (member_sampled _)
        (.cons hpriority hms))))
    rw [spanEventText_eq hbuilt]
    exact (reads_arr (.cons (reads_obj hfirst).embeds (.cons (reads_obj .nil).embeds
      (.cons (reads_obj hthird).embeds .nil)))).parse_eq
  · rw [intrinsicFields_eq, htrace, htxn]
    have htype : (SpanField.string "type" (ascii "Span")).Says
        (keyUnits "type", .str (keyUnits "Span")) :=
      ⟨keyUnits "Span", utf16_of_all_isPlainAscii (by decide), rfl⟩
    exact .cons htype (.cons htraceSays (.cons htxnSays (.cons rfl (.cons rfl hmeans))))

/-! ### What follows if it does -/

/-- The members of a hash in which every field says what it should. -/
theorem isSome_of_says {fields : List SpanField} {ms : List (List ℕ × Json)}
    (h : List.Forall₂ SpanField.Says fields ms) {key : String} {stored : Bytes}
    (hmem : SpanField.string key stored ∈ fields) : (utf16 stored).isSome := by
  induction h with
  | nil => simp at hmem
  | cons hmeans _ ih =>
      rcases List.mem_cons.mp hmem with rfl | hrest
      · obtain ⟨units, hunits, -⟩ := hmeans
        rw [hunits]
        rfl
      · exact ih hrest

def SpanField.key : SpanField → String
  | .string key _ => key
  | .value key _ => key

theorem SpanField.Says.key_eq {field : SpanField} {m : List ℕ × Json} (h : field.Says m) :
    m.1 = keyUnits field.key := by
  cases field with
  | string key stored =>
      obtain ⟨units, -, rfl⟩ := h
      rfl
  | value key json => rw [h]; rfl

/-- A string that is printed without being escaped, followed by another member:
if the hash says what is stored, the string needs no escapes. -/
theorem plainString_of_parseMembers {key : String} (hkey : (ascii key).all isPlainAscii = true)
    {s : Option Bytes} {fuel : ℕ} {bs rest : Bytes} {ms : List (List ℕ × Json)}
    (hms : parseMembers fuel (unescapedText key s ++ comma :: quote :: bs) = some (ms, rest))
    {fields : List SpanField} (hmeans : List.Forall₂ SpanField.Says (stringField key s ++ fields) ms)
    (hother : ∀ f ∈ fields.head?, keyUnits f.key ≠ keyUnits key) : PlainString s := by
  have htext : unescapedText key s ++ comma :: quote :: bs = quote :: (ascii key ++
      quote :: colon :: quote :: (formatString s ++ quote :: comma :: quote :: bs)) := by
    simp only [unescapedText, jsonKey, List.append_assoc, List.cons_append, List.nil_append]
  rw [htext] at hms
  obtain ⟨fuel', v, r, ms', hv, rfl⟩ := parseMembers_value (spells_ascii hkey) hms
  cases s with
  | none =>
      -- the key is there although there is nothing to say
      cases fields with
      | nil => exact absurd hmeans (by simp [stringField])
      | cons f fields =>
          obtain _ | ⟨hf, -⟩ := hmeans
          exact absurd hf.key_eq.symm (hother f rfl)
  | some stored =>
      obtain _ | ⟨⟨units, hunits, hm⟩, -⟩ := hmeans
      obtain rfl : v = .str units := (Prod.mk.inj hm).2
      have hstring : ∃ r', parseString (stored ++ quote :: comma :: quote :: bs) =
          some (units, r') := by
        rw [skipWs_of_not_ws (by decide)] at hv
        obtain _ | fuel' := fuel'
        · simp [parseValue] at hv
        · rw [parseValue, if_pos rfl] at hv
          obtain ⟨units', hread, heq⟩ := of_map_eq_some hv
          rw [Json.str.inj heq] at hread
          exact ⟨r, hread⟩
      obtain ⟨r', hstring⟩ := hstring
      exact ⟨stored, rfl, all_isPlain_of_parseString hstring hunits, by rw [hunits]; rfl⟩

theorem isFinite_of_parseValue {d : Double} {fuel : ℕ} {bs r : Bytes} {v : Json}
    (h : parseValue fuel (skipWs (d.format 6 ++ comma :: bs)) = some (v, r)) :
    d.isFinite = true := by
  obtain _ | fuel := fuel
  · simp [parseValue] at h
  have hinf : ascii "inf" = [0x69, 0x6e, 0x66] := by decide
  have hnan : ascii "nan" = [0x6e, 0x61, 0x6e] := by decide
  have hnone : ∀ text ∈ ([[0x69, 0x6e, 0x66], [minus, 0x69, 0x6e, 0x66], [0x6e, 0x61, 0x6e],
      [minus, 0x6e, 0x61, 0x6e]] : List Bytes),
      parseValue (fuel + 1) (skipWs (text ++ comma :: bs)) = none := by
    simp only [List.forall_mem_cons]
    exact ⟨rfl, rfl, rfl, rfl, by simp⟩
  cases d with
  | finite f => rfl
  | infinite negative =>
      rw [Double.format, hinf] at h
      rw [hnone _ (by cases negative <;> simp)] at h
      simp at h
  | nan negative =>
      rw [Double.format, hnan] at h
      rw [hnone _ (by cases negative <;> simp)] at h
      simp at h

theorem spanEventText_starts (dt : NrDistributedTrace) (event : NrSpanEvent) :
    ∃ tail, spanEventText dt event = spanevtJsonCommon dt ++ quote :: tail := by
  rw [spanEventText]
  cases event.category with
  | generic => exact ⟨_, rfl⟩
  | datastore fields => exact ⟨_, rfl⟩
  | http fields => exact ⟨_, rfl⟩

theorem condition_of_spanTextOk {dt : NrDistributedTrace} {event : NrSpanEvent}
    (h : SpanTextOk dt event (spanEventText dt event)) : SpanTextCondition dt event := by
  obtain ⟨first, third, hparse, hfirst, hthird⟩ := h
  have hstrings : ∀ key stored, SpanField.string key stored ∈ specificFields dt event ++
      (kindFields event.category ++ agentFields event.category) → (utf16 stored).isSome := by
    intro key stored hmem
    rw [← List.append_assoc] at hmem
    rcases List.mem_append.mp hmem with hmem | hmem
    · have hmem' : SpanField.string key stored ∈ intrinsicFields dt event := by
        rw [intrinsicFields_eq]
        refine List.mem_cons_of_mem _ (List.mem_append_right _ (List.mem_append_right _ ?_))
        exact List.mem_cons_of_mem _ (List.mem_cons_of_mem _ hmem)
      exact isSome_of_says hfirst hmem'
    · exact isSome_of_says hthird hmem
  -- one member after the other
  rw [intrinsicFields_eq] at hfirst
  obtain ⟨tail, htail⟩ := spanEventText_starts dt event
  rw [htail, common_eq] at hparse
  obtain ⟨rest, hms⟩ := parseMembers_of_parse ⟨_, rfl⟩ hparse
  obtain ⟨fuel₁, ms₁, hfuel₁, hms₁, rfl⟩ :=
    parseMembers_step member_type (by simp [unescapedText, jsonKey]) (le_refl _) hms
  obtain _ | ⟨-, hfirst₁⟩ := hfirst
  have htraceId : PlainString dt.traceId := by
    refine plainString_of_parseMembers (by decide) hms₁ hfirst₁ ?_
    intro f hf
    cases htxn : dt.txnId with
    | none =>
        rw [htxn] at hf
        obtain rfl := Option.some.inj hf
        exact show keyUnits "sampled" ≠ keyUnits "traceId" by decide
    | some txnId =>
        rw [htxn] at hf
        obtain rfl := Option.some.inj hf
        exact show keyUnits "transactionId" ≠ keyUnits "traceId" by decide
  obtain ⟨traceId, mt, htrace, htraceMember, -⟩ :=
    htraceId.exists_member "traceId" (by decide)
  obtain ⟨fuel₂, ms₂, hfuel₂, hms₂, rfl⟩ :=
    parseMembers_step htraceMember (by simp [unescapedText, jsonKey]) hfuel₁ hms₁
  rw [htrace] at hfirst₁
  obtain _ | ⟨-, hfirst₂⟩ := hfirst₁
  have htxnId : PlainString dt.txnId := by
    refine plainString_of_parseMembers (by decide) hms₂ hfirst₂ ?_
    intro f hf
    obtain rfl := Option.some.inj hf
    exact show keyUnits "sampled" ≠ keyUnits "transactionId" by decide
  obtain ⟨txnId, mx, htxn, htxnMember, -⟩ :=
    htxnId.exists_member "transactionId" (by decide)
  obtain ⟨fuel₃, ms₃, hfuel₃, hms₃, rfl⟩ :=
    parseMembers_step htxnMember (by simp [jsonKey]) hfuel₂ hms₂
  obtain ⟨fuel₄, ms₄, hfuel₄, hms₄, rfl⟩ :=
    parseMembers_step (member_sampled dt.sampled) (by simp [jsonKey]) hfuel₃ hms₃
  have hpriority : dt.priority.isFinite = true := by
    have htext : (jsonKey "priority" ++ dt.priority.format 6) ++ comma :: quote :: tail =
        quote :: (ascii "priority" ++ quote :: colon ::
          (dt.priority.format 6 ++ comma :: quote :: tail)) := by
      simp only [jsonKey, List.append_assoc, List.cons_append, List.nil_append]
    rw [htext] at hms₄
    obtain ⟨fuel', v, r, ms', hv, -⟩ := parseMembers_value
      (spells_ascii (show (ascii "priority").all isPlainAscii = true by decide)) hms₄
    exact isFinite_of_parseValue hv
  exact ⟨htraceId, htxnId, hpriority, hstrings⟩

/-! ### Span events of the second pass -/

/-- The events made so far are built, and those of the open spans have guids. -/
def SpansBuilt (u : NrSegmentUserdata) : Prop :=
  ∀ s, u.spans = some s → (∀ e ∈ s.events, SpanBuilt e) ∧
    ∀ e ∈ s.currentSpanPath, e.guid.isSome

theorem spanBuilt_passSpan {guid : ℕ → Bytes} {absStartTime : ℕ} {segment : NrSegment}
    {segmentName : Bytes} {s : SpanData} (hevents : ∀ e ∈ s.events, SpanBuilt e)
    (hpath : ∀ e ∈ s.currentSpanPath, e.guid.isSome) :
    let s' := nrSegmentIterationPassSpan guid absStartTime segment segmentName s
    (∀ e ∈ s'.events, SpanBuilt e) ∧ ∀ e ∈ s'.currentSpanPath, e.guid.isSome := by
  intro s'
  cases hsampled : isSampled s.sample segment with
  | false =>
      have hs : s' = s := by simp [s', nrSegmentIterationPassSpan, hsampled]
      rw [hs]
      exact ⟨hevents, hpath⟩
  | true =>
      obtain ⟨span, hspan, hname, hguid, hparent, haddress⟩ : ∃ span,
          (s'.events = s.events ++ [span] ∧ s'.currentSpanPath = span :: s.currentSpanPath) ∧
          span.name.isSome ∧ span.guid.isSome ∧
          span.parentGuid = s.currentSpanPath.head?.map NrSpanEvent.guid ∧
          ∀ fields, span.category = .datastore fields → fields.peerAddress.isSome := by
        refine ⟨_, ⟨by simp [s', nrSegmentIterationPassSpan, hsampled]; rfl,
          by simp [s', nrSegmentIterationPassSpan, hsampled]⟩, rfl, rfl, rfl, ?_⟩
        intro fields hfields
        simp only [spanCategory] at hfields
        cases htype : segment.type with
        | custom => simp [htype] at hfields
        | datastore data =>
            simp only [htype, nrPopulateDatastoreSpans, SpanCategory.datastore.injEq] at hfields
            rw [← hfields]
            rfl
        | external ext => simp [htype, nrPopulateHttpSpans] at hfields
      have hbuilt : SpanBuilt span := by
        refine ⟨hname, hguid, ?_, haddress⟩
        intro parent hp
        rw [hparent] at hp
        obtain ⟨e, he, rfl⟩ := Option.map_eq_some_iff.mp hp
        exact hpath e (List.mem_of_mem_head? he)
      rw [hspan.1, hspan.2]
      refine ⟨fun e he => ?_, fun e he => ?_⟩
      · rcases List.mem_append.mp he with hold | hnew
        · exact hevents e hold
        · rw [List.mem_singleton.mp hnew]
          exact hbuilt
      · rcases List.mem_cons.mp he with rfl | hold
        · exact hguid
        · exact hpath e hold

theorem spansBuilt_callback {txn : NrTxn} {guid : ℕ → Bytes} {absStartTime : ℕ}
    (parent : Option NrSegment) (segment : NrSegment) (n : ℕ) (u : NrSegmentUserdata)
    (h : SpansBuilt u) :
    SpansBuilt (nrSegmentTracesStotIteratorCallback txn guid absStartTime parent segment n u).1 := by
  rw [nrSegmentTracesStotIteratorCallback]
  split_ifs with hzero hinvalid
  · exact h
  · exact h
  · have hspans : SpansBuilt { u with
        spans := u.spans.map (nrSegmentIterationPassSpan guid absStartTime segment
          (traceString txn segment.name)) } := by
      intro s' hs'
      obtain ⟨s, hs, rfl⟩ := Option.map_eq_some_iff.mp hs'
      exact spanBuilt_passSpan (h s hs).1 (h s hs).2
    cases htrace : u.trace with
    | none => simpa only [htrace] using hspans
    | some t =>
        exact fun s hs => hspans s hs

theorem spansBuilt_postCallback (segment : NrSegment) (u : NrSegmentUserdata) (h : SpansBuilt u) :
    SpansBuilt (nrSegmentTracesStotIteratorPostCallback segment u) := by
  intro s' hs'
  obtain ⟨s, hs, rfl⟩ := Option.map_eq_some_iff.mp hs'
  obtain ⟨hevents, hpath⟩ := h s hs
  rw [SpanData.close]
  split
  · exact ⟨hevents, fun e he => hpath e (List.mem_of_mem_tail he)⟩
  · exact ⟨hevents, hpath⟩

/-- The span events of a transaction are built. -/
theorem spanBuilt_of_printSegments {txn : NrTxn} {guid : ℕ → Bytes} {absStartTime : ℕ}
    {buf : Option Bytes} {createSpans : Bool} {traceSet spanSet : Option (List ℕ)}
    {root : OrderedTree NrSegment} {names : NrPool} {s : SpanData}
    (h : (nrSegmentTracesJsonPrintSegments txn guid absStartTime buf createSpans traceSet spanSet
      root names).spans = some s) : ∀ e ∈ s.events, SpanBuilt e := by
  refine (Forest.walk_invariant spansBuilt_callback spansBuilt_postCallback root.toForest none ?_
    s h).1
  intro s' hs'
  cases createSpans with
  | false => simp at hs'
  | true =>
      obtain rfl := (Option.some.inj hs').symm
      exact ⟨by simp, by simp⟩

theorem spanBuilt_of_printSegments_one :
    let root := ⟨plainSegment 1 0 0 10, .nil⟩
    let txn : NrTxn :=
      { segmentRoot := some root, segmentCount := 1, traceStrings := []
        discountMainContextBlocking := false, ttThreshold := 0, isSynthetics := false
        distributedTraceSampled := true, distributedTracingEnabled := true
        spanEventsEnabled := true }
    ∃ s, (nrSegmentTracesJsonPrintSegments txn (fun _ => []) 0 none true none none root []).spans =
      some s ∧ ∀ e ∈ s.events, SpanBuilt e := by
  intro root txn
  obtain ⟨s, hs⟩ : ∃ s, (nrSegmentTracesJsonPrintSegments txn (fun _ => []) 0 none true none none
    root []).spans = some s := ⟨_, rfl⟩
  exact ⟨s, hs, spanBuilt_of_printSegments hs⟩

/-! ### The events of a transaction -/

/-- The metadata of a transaction before it accepts a payload. -/
def freshTrace : NrDistributedTrace :=
  { accountId := some (ascii "1"), appId := some (ascii "2"), txnId := some (ascii "fb"),
    priority := .finite .zero, sampled := true, traceId := some (ascii "fb"),
    trustedKey := none,
    inbound :=
      { set := false, type := none, appId := none, accountId := none, transportType := none,
        timestamp := 0, guid := none, txnId := none } }

/-- A payload whose trace id is given. -/
def payloadOfTrace (traceId : Bytes) : NrObj :=
  .hash [(ascii "d", .hash [(ascii "ty", .string (ascii "App")), (ascii "ac", .string (ascii "1")),
    (ascii "ap", .string (ascii "2")), (ascii "tx", .string (ascii "3e")),
    (ascii "tr", .string traceId), (ascii "ti", .long 1482959525577)])]

def genericSpan : NrSpanEvent :=
  { guid := some (ascii "aa"), parentGuid := none, timestamp := 1000, duration := 1000,
    name := some (ascii "main"), category := .generic }

theorem genericSpan_built : SpanBuilt genericSpan where
  name := rfl
  guid := rfl
  parent := by simp [genericSpan]
  address := by simp [genericSpan]

theorem traceId_accept (dt₀ : NrDistributedTrace) {traceId : Bytes} (h : traceId ≠ [])
    (transportType : Option Bytes) :
    (nrDistributedTraceAcceptInboundPayload dt₀ (payloadOfTrace traceId) transportType).traceId =
      some traceId := by
  have hdata : nroGetHashString (nroGetHashHash (some (payloadOfTrace traceId)) (ascii "d"))
      (ascii "tr") = some traceId := by
    have hty : ascii "ty" ≠ ascii "tr" := by decide
    have hac : ascii "ac" ≠ ascii "tr" := by decide
    have hap : ascii "ap" ≠ ascii "tr" := by decide
    have htx : ascii "tx" ≠ ascii "tr" := by decide
    have hd : ascii "d" ≠ [] := by decide
    have htr : ascii "tr" ≠ [] := by decide
    simp [payloadOfTrace, nroGetHashHash, nroGetHashString, nroGetHashValue, findEntry,
      nroGetString, hty, hac, hap, htx, hd, htr]
  simp only [nrDistributedTraceAcceptInboundPayload, nrDistributedTraceInboundSetTransportType,
    hdata, setDtField, h, if_false]

end AxiomDaemon.Axiom

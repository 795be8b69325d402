import AxiomDaemon.Axiom.CrossProcess

/-!
The headers of cross application tracing make the round trip between two agents
that have the same key and trust the account of each other.
-/

namespace AxiomDaemon.Axiom

open AxiomDaemon.Lib AxiomDaemon.Lib.CText AxiomDaemon.Util AxiomDaemon.Util.ObjectJson

/-! ### Path hashes -/

theorem isBmpString_formatHex8 (n : UInt32) : IsBmpString (formatHex8 n) := by
  apply isBmpString_ascii
  have hall : ∀ d : Fin 16, 0 < (hexDigit d.val).toNat ∧ (hexDigit d.val).toNat < 0x80 := by decide
  rw [formatHex8, List.all_map, List.all_eq_true]
  intro i hi
  simpa using hall ⟨n.toNat / 16 ^ (7 - i) % 16, Nat.mod_lt _ (by decide)⟩

theorem length_formatHex8 (n : UInt32) : (formatHex8 n).length = 8 := by
  rw [formatHex8, List.length_map, List.length_range]

theorem isBmpString_pathHash (md5Low32 : Bytes → UInt32) (txn : CatTxn) :
    IsBmpString (nrStrdup (nrTxnCurrentPathHash md5Low32 txn)) ∧
      (nrStrdup (nrTxnCurrentPathHash md5Low32 txn)).length ≤ 8 := by
  have hnone : IsBmpString (nrStrdup none) := isBmpString_ascii rfl
  rw [nrTxnCurrentPathHash]
  cases txn.primaryAppName with
  | none => exact ⟨hnone, Nat.zero_le 8⟩
  | some primaryAppName => exact ⟨isBmpString_formatHex8 _, (length_formatHex8 _).le⟩

/-! ### Agents -/

namespace CatTxn

/-- The transaction is of an agent with the id `id`, which trusts the account of the agent
with the id `peer`. -/
structure Peered (txn : CatTxn) (key id peer : Bytes) : Prop where
  enabled : txn.crossProcessEnabled = true
  key_eq : nroGetHashString txn.appConnectReply (ascii "encoding_key") = some key
  key_ne_nil : key ≠ []
  zero_notMem_key : 0 ∉ key
  key_lt : key.length < 2 ^ 31
  id_eq : nroGetHashString txn.appConnectReply (ascii "cross_process_id") = some id
  length_lt : id.length < nrCrossProcessIdLengthMax
  isBmp : IsBmpString id
  trusts : nrTxnIsAccountTrusted txn
    (Int32.ofInt (nrHeaderAccountIdFromCrossProcessId (some peer))) = true

namespace Peered

variable {txn other : CatTxn} {key id peer : Bytes}

theorem of_eq (h : txn.Peered key id peer)
    (hreply : other.appConnectReply = txn.appConnectReply)
    (henabled : other.crossProcessEnabled = txn.crossProcessEnabled) :
    other.Peered key id peer where
  enabled := henabled.trans h.enabled
  key_eq := by rw [hreply, h.key_eq]
  key_ne_nil := h.key_ne_nil
  zero_notMem_key := h.zero_notMem_key
  key_lt := h.key_lt
  id_eq := by rw [hreply, h.id_eq]
  length_lt := h.length_lt
  isBmp := h.isBmp
  trusts := by
    have htrusts := h.trusts
    rw [nrTxnIsAccountTrusted] at htrusts ⊢
    rw [hreply]
    exact htrusts

theorem accountId_ne (h : txn.Peered key id peer) :
    nrHeaderAccountIdFromCrossProcessId (some peer) ≠ -1 := by
  intro heq
  have htrusts := h.trusts
  rw [heq] at htrusts
  exact absurd htrusts (by simp [nrTxnIsAccountTrusted])

theorem peer_ne_nil (h : txn.Peered key id peer) : peer ≠ [] := by
  rintro rfl
  exact h.accountId_ne rfl

theorem validate (h : txn.Peered key id peer) (hlength : peer.length < nrCrossProcessIdLengthMax) :
    nrHeaderValidateDecodedId txn (some peer) = .success := by
  simp only [nrHeaderValidateDecodedId, if_neg (Nat.not_le.mpr hlength), if_neg h.accountId_ne,
    if_pos h.trusts]

theorem exists_nrHeaderEncode {text : Bytes} (h : txn.Peered key id peer) (hne : text ≠ [])
    (hzero : 0 ∉ text) (hlength : text.length < 2 ^ 29) :
    ∃ encoded, (∀ sender : CatTxn,
        nroGetHashString sender.appConnectReply (ascii "encoding_key") = some key →
          nrHeaderEncode sender (some text) = .ok (some encoded)) ∧
      nrHeaderDecode txn (some encoded) = .ok (some text) := by
  obtain ⟨encoded, hencode, hne', hvalid, hzero', hdecode⟩ := exists_nrObfuscate_memory hne hzero
    hlength h.key_ne_nil h.zero_notMem_key h.key_lt le_rfl (Int.natCast_nonneg _)
  refine ⟨encoded, fun sender hsender => ?_, ?_⟩
  · simp only [nrHeaderEncode, hsender, Option.map_some, hencode, map_ok, cString_terminated hzero']
  · have hsuccess : nrHeaderValidateEncodedString (some encoded) = .success := by
      obtain ⟨c, cs, rfl⟩ := List.exists_cons_of_ne_nil hne'
      exact if_pos (List.all_eq_true.mpr hvalid)
    simp only [nrHeaderDecode, if_pos hsuccess, h.key_eq, Option.map_some, hdecode, map_ok,
      cString_terminated hzero]

/-- A text that is short enough is encoded, if it is there and not empty. -/
theorem exists_nrHeaderEncode_optional (h : txn.Peered key id peer) {string : Option Bytes}
    (hstring : ∀ s, string = some s → 0 ∉ s ∧ s.length < 2 ^ 29) :
    ∃ encoded, nrHeaderEncode txn string = .ok encoded := by
  have hkey := isEmpty_terminated h.key_ne_nil h.zero_notMem_key
  simp only [nrHeaderEncode, h.key_eq, Option.map_some]
  match string with
  | none => exact ⟨none, by rw [Memory.nrObfuscate, hkey]; rfl⟩
  | some [] => exact ⟨none, by rw [Memory.nrObfuscate, hkey]; rfl⟩
  | some (c :: cs) =>
      obtain ⟨hzero, hlength⟩ := hstring _ rfl
      obtain ⟨encoded, hencode, -⟩ := exists_nrObfuscate_memory (List.cons_ne_nil c cs) hzero
        hlength h.key_ne_nil h.zero_notMem_key h.key_lt le_rfl (Int.natCast_nonneg _)
      exact ⟨some (cString (terminated encoded)), by rw [Option.map_some, hencode]; rfl⟩

end Peered

end CatTxn

/-! ### The request -/

section

variable {a b : CatTxn} {key idA idB guid tripId : Bytes}

/-- The fields about a transaction. -/
def transactionFields (guid tripId pathHash : Bytes) : NrObj :=
  .array [.string guid, .boolean false, .string tripId, .string pathHash]

theorem nrTxnAddAlternatePathHash_frame (txn : CatTxn) (pathHash : Option Bytes) :
    (nrTxnAddAlternatePathHash txn pathHash).appConnectReply = txn.appConnectReply ∧
      (nrTxnAddAlternatePathHash txn pathHash).crossProcessEnabled = txn.crossProcessEnabled ∧
      (nrTxnAddAlternatePathHash txn pathHash).synthetics = txn.synthetics := by
  fun_cases nrTxnAddAlternatePathHash txn pathHash <;> exact ⟨rfl, rfl, rfl⟩

/-- Two texts for one header: escaped, they are not too long for `nr_b64_encode`, and of neither
the buffer asks for more than it can count. -/
structure FitHeader (s t : Bytes) : Prop where
  escaped : (nrJsonEscape s).length + (nrJsonEscape t).length < 2 ^ 29 - 2 ^ 12
  fst : s.length < 2 ^ 28 - 2 ^ 12
  snd : t.length < 2 ^ 28 - 2 ^ 12

/-- What is written in memory can be encoded, if it is short enough for `nr_b64_encode`. -/
theorem nroToJson_encodable {obj obj' : NrObj} {unset : Bytes → ℕ} (hreads : ReadsAs unset obj obj')
    (hfree : ZeroFree obj) (hshort : (nroToJson (some obj)).length < 2 ^ 29)
    (hlongest : longest obj < 2 ^ 28 - 2 ^ 12) :
    Memory.nroToJson (some obj) = .ok (nroToJson (some obj)) ∧ nroToJson (some obj) ≠ [] ∧
      0 ∉ nroToJson (some obj) ∧ (nroToJson (some obj)).length < 2 ^ 29 := by
  obtain ⟨c, cs, hcons, -⟩ := hreads.starts
  have happends := appends_recursiveObjToJson obj hfree (le_refl (longest obj))
  refine ⟨nroToJson_memory hfree (by omega), ?_, happends.zero_notMem, hshort⟩
  rw [nroToJson, hcons]
  exact List.cons_ne_nil c cs

/-- What a request of the transaction says about it. -/
def CatTxn.fields (md5Low32 : Bytes → UInt32) (txn : CatTxn) (guid : Bytes) : NrObj :=
  transactionFields guid (nrStrdup (nrTxnGetCatTripId txn))
    (nrStrdup (nrTxnCurrentPathHash md5Low32 txn))

/-- A request has the id of its agent, and the fields of its transaction. -/
theorem exists_nrHeaderOutboundRequestDecoded (h : a.Peered key idA idB)
    (hguid : a.guid = some guid) (md5Low32 : Bytes → UInt32) {text : Bytes}
    (htext : Memory.nroToJson (some (a.fields md5Low32 guid)) = .ok text) :
    ∃ a', nrHeaderOutboundRequestDecoded md5Low32 a = .ok (a', some idA, some text) ∧
      a'.Peered key idA idB ∧ a'.synthetics = a.synthetics := by
  obtain ⟨hreply, henabled, hsynthetics⟩ :=
    nrTxnAddAlternatePathHash_frame a (nrTxnCurrentPathHash md5Low32 a)
  rw [CatTxn.fields, transactionFields] at htext
  refine ⟨{ (nrTxnGetPathHash md5Low32 a).1 with
    type := { (nrTxnGetPathHash md5Low32 a).1.type with catOutbound := true } }, ?_, ?_, hsynthetics⟩
  · simp only [nrHeaderOutboundRequestDecoded, h.enabled, h.id_eq, hguid, Bool.not_true,
      Bool.false_eq_true, if_false, nrTxnGetPathHash, htext, ok_bind]
  · exact h.of_eq hreply henabled

/-- The headers are the id and the fields, encoded; those of the synthetics are encoded as well. -/
theorem exists_nrHeaderOutboundRequest (h : a.Peered key idA idB)
    (hdt : a.distributedTracingEnabled = false) (hguid : a.guid = some guid)
    (md5Low32 : Bytes → UInt32) (payload : Option Bytes) {text x y : Bytes}
    (hsynthetics : ∀ s, a.synthetics = some s → 0 ∉ s ∧ s.length < 2 ^ 29)
    (htext : Memory.nroToJson (some (a.fields md5Low32 guid)) = .ok text)
    (hx : ∀ sender : CatTxn,
      nroGetHashString sender.appConnectReply (ascii "encoding_key") = some key →
        nrHeaderEncode sender (some idA) = .ok (some x))
    (hy : ∀ sender : CatTxn,
      nroGetHashString sender.appConnectReply (ascii "encoding_key") = some key →
        nrHeaderEncode sender (some text) = .ok (some y)) :
    ∃ a' headers, nrHeaderOutboundRequest md5Low32 payload a = .ok (a', headers) ∧
      headers.xNewrelicId = some x ∧ headers.xNewrelicTransaction = some y := by
  obtain ⟨a', hdecoded, ha', heq⟩ := exists_nrHeaderOutboundRequestDecoded h hguid md5Low32 htext
  obtain ⟨s, hs⟩ : ∃ s, nrHeaderOutboundRequestSyntheticsEncoded a' = .ok s := by
    rw [nrHeaderOutboundRequestSyntheticsEncoded]
    split
    · exact ha'.exists_nrHeaderEncode_optional (heq ▸ hsynthetics)
    · exact ⟨none, rfl⟩
  refine ⟨a',
    { xNewrelicId := some x
      xNewrelicTransaction := some y
      xNewrelicSynthetics := s
      newrelic := none }, ?_, rfl, rfl⟩
  rw [nrHeaderOutboundRequest, hdt, if_neg Bool.false_ne_true, if_pos h.enabled, hdecoded, ok_bind]
  simp only [hx a' ha'.key_eq, hy a' ha'.key_eq, hs, ok_bind]

theorem transactionFields_readsAs (unset : Bytes → ℕ) {pathHash : Bytes} (hguid : IsBmpString guid)
    (htrip : IsBmpString tripId) (hpath : IsBmpString pathHash) :
    ReadsAs unset (transactionFields guid tripId pathHash)
      (transactionFields guid tripId pathHash) := by
  apply readsAs_array
  refine .cons (readsAs_string unset hguid) (.cons (readsAs_boolean unset false) ?_)
  exact .cons (readsAs_string unset htrip) (.cons (readsAs_string unset hpath) .nil)

theorem transactionFields_fit {pathHash : Bytes} (hpath : 0 ∉ pathHash) (hlength : pathHash.length ≤ 8)
    (hfit : FitHeader guid tripId) :
    (nroToJson (some (transactionFields guid tripId pathHash))).length < 2 ^ 29 ∧
      longest (transactionFields guid tripId pathHash) < 2 ^ 28 - 2 ^ 12 := by
  obtain ⟨hescaped, hguid, htrip⟩ := hfit
  have hhash := length_nrJsonEscape_le hpath
  have hfalse : (ascii "false").length = 5 := by decide
  constructor
  · simp only [transactionFields, nroToJson, recursiveObjToJson, elementsToJson, List.isEmpty_cons,
      List.isEmpty_nil, Bool.false_eq_true, if_false, if_true, List.length_append, List.length_cons,
      List.length_nil, hfalse]
    omega
  · simp only [transactionFields, longest, longestElement]
    omega

/-- What the transaction that is called knows after the request, and what a response
takes that is as before. -/
structure CatTxn.Received (b b' : CatTxn) (idA guid tripId pathHash : Bytes) : Prop where
  named : b'.named = b.named
  appConnectReply : b'.appConnectReply = b.appConnectReply
  crossProcessEnabled : b'.crossProcessEnabled = b.crossProcessEnabled
  crossProcess : b'.crossProcess = b.crossProcess
  guid_eq : b'.guid = b.guid
  clientCrossProcessId : b'.cat.clientCrossProcessId = some idA
  inboundGuid : b'.cat.inboundGuid = some guid
  tripId : b'.cat.tripId = some tripId
  referringPathHash : b'.cat.referringPathHash = some pathHash

theorem exists_nrHeaderProcessXNewrelicTransaction (b : CatTxn) (guid tripId pathHash : Bytes) :
    ∃ b', nrHeaderProcessXNewrelicTransaction
        { b with cat := { b.cat with clientCrossProcessId := some idA } }
        (transactionFields guid tripId pathHash) = (b', .success) ∧
      b.Received b' idA guid tripId pathHash :=
  ⟨_, rfl, rfl, rfl, rfl, rfl, rfl, rfl, rfl, rfl, rfl⟩

/-- Headers that decode to an id that is trusted, and to the fields, are accepted. -/
theorem exists_nrHeaderSetCatTxn {pathHash x y : Bytes} {unset : Bytes → ℕ}
    (hid : nrHeaderDecode b (some x) = .ok (some idA))
    (hvalid : nrHeaderValidateDecodedId b (some idA) = .success)
    (hfields : nrHeaderDecode b (some y) =
      .ok (some (nroToJson (some (transactionFields guid tripId pathHash)))))
    (hreads : ReadsAs unset (transactionFields guid tripId pathHash)
      (transactionFields guid tripId pathHash)) :
    ∃ b', nrHeaderSetCatTxn unset b (some x) (some y) = .ok (b', .success) ∧
      b.Received b' idA guid tripId pathHash := by
  have hdecode : nrHeaderDecode
      { b with cat := { b.cat with clientCrossProcessId := some idA } } (some y) =
        .ok (some (nroToJson (some (transactionFields guid tripId pathHash)))) := hfields
  obtain ⟨b', hprocess, hreceived⟩ :=
    exists_nrHeaderProcessXNewrelicTransaction b guid tripId pathHash
  refine ⟨b', ?_, hreceived⟩
  rw [← hprocess]
  simp only [nrHeaderSetCatTxn, hid, ok_bind, hvalid, reduceCtorEq, if_false, nrStrdup,
    Option.getD_some, hdecode, hreads.nroCreateFromJson_eq]

/-! ### The response -/

/-- What has to hold for a transaction to respond, under the name `name`. -/
structure CatTxn.Responds (c : CatTxn) (app : Option NamingApp) (name : Option Bytes) : Prop where
  recording : c.named.status.recording = true
  start : c.crossProcess = .start
  frozen : (nrTxnFreezeNameUpdateApdex c.named app).2 = .success
  name_eq : (nrTxnFreezeNameUpdateApdex c.named app).1.name = name

variable {c d : CatTxn} {name : Option Bytes} {app : Option NamingApp}

theorem exists_nrHeaderInboundResponse (h : c.Peered key idB idA) (hguid : c.guid = some guid)
    (hclient : c.cat.clientCrossProcessId = some idA) (hresponds : c.Responds app name)
    (now : UInt64) (contentLength : Int32)
    (htext : ∀ qtime apptime : ℕ, qtime < 2 ^ 64 → apptime < 2 ^ 64 →
      Memory.nroToJson (some (responseFields idB name qtime apptime contentLength guid)) =
        .ok (nroToJson (some (responseFields idB name qtime apptime contentLength guid)))) :
    ∃ c' qtime apptime, qtime < 2 ^ 64 ∧ apptime < 2 ^ 64 ∧
      c'.appConnectReply = c.appConnectReply ∧ c'.named.name = name ∧
      nrHeaderInboundResponseInternal app now c contentLength =
        .ok (c', some (nroToJson (some
          (responseFields idB name qtime apptime contentLength guid)))) := by
  have hduration : ∀ start stop : UInt64, nrTimeDuration start.toNat stop.toNat < 2 ^ 64 := by
    intro start stop
    rw [nrTimeDuration_eq]
    have := stop.toNat_lt
    omega
  have hqueue : nrTxnQueueTime c < 2 ^ 64 := by
    rw [nrTxnQueueTime]
    split
    · decide
    · exact hduration c.httpXStart c.absStartTime
  have happ : nrTxnUnfinishedDuration c now < 2 ^ 64 := hduration c.absStartTime now
  generalize hp : nrHeaderInboundResponseInternal app now c contentLength = p
  simp only [nrHeaderInboundResponseInternal, hresponds.recording, h.enabled, hclient, h.id_eq,
    hguid, hresponds.start, hresponds.frozen, hresponds.name_eq, Bool.not_true, Bool.or_self,
    Bool.false_eq_true, ne_eq, not_true_eq_false, if_false] at hp
  -- the queue time is one that the new name leaves as it is
  change Memory.nroToJson (some (responseFields idB name (nrTxnQueueTime c)
    (nrTxnUnfinishedDuration c now) contentLength guid)) >>= _ = p at hp
  rw [htext _ _ hqueue happ, ok_bind] at hp
  subst hp
  refine ⟨_, _, _, hqueue, happ, ?_, ?_, rfl⟩
  · rfl
  · rfl

/-- A response is read with its texts as they were, and with times that are
numbers. -/
theorem exists_responseFields_readsAs (unset : Bytes → ℕ) (contentLength : Int32)
    {qtime apptime : ℕ} (hid : IsBmpString idB) (hname : IsBmpString (nrStrdup name))
    (hguid : IsBmpString guid) (hqtime : qtime < 2 ^ 64) (happtime : apptime < 2 ^ 64) :
    ∃ q r l, ReadsAs unset (responseFields idB name qtime apptime contentLength guid)
      (.array [.string idB, .string (nrStrdup name), q, r, l, .string guid, .boolean false]) := by
  obtain ⟨f, hf⟩ := Double.exists_finite (secondsOf_isFinite hqtime)
  obtain ⟨g, hg⟩ := Double.exists_finite (secondsOf_isFinite happtime)
  obtain ⟨f', hf'⟩ := exists_readsAs_double unset f
  obtain ⟨g', hg'⟩ := exists_readsAs_double unset g
  have hlength : ReadsAs unset (.int contentLength.toInt) (readInteger contentLength.toInt) := by
    have hlo := contentLength.le_toInt
    have hhi := contentLength.toInt_lt
    exact readsAs_integer unset (by rw [recursiveObjToJson]) (by omega) (by omega)
  refine ⟨.double f', .double g', readInteger contentLength.toInt, ?_⟩
  rw [responseFields, hf, hg]
  apply readsAs_array
  refine .cons (readsAs_string unset hid) (.cons (readsAs_string unset hname) ?_)
  refine .cons hf' (.cons hg' (.cons hlength ?_))
  exact .cons (readsAs_string unset hguid) (.cons (readsAs_boolean unset false) .nil)

theorem responseFields_fit {qtime apptime : ℕ} (hqtime : qtime < 2 ^ 64)
    (happtime : apptime < 2 ^ 64) (hidB : 0 ∉ idB) (hid : idB.length < nrCrossProcessIdLengthMax)
    (contentLength : Int32) (hfit : FitHeader (nrStrdup name) guid) :
    (nroToJson (some (responseFields idB name qtime apptime contentLength guid))).length < 2 ^ 29 ∧
      longest (responseFields idB name qtime apptime contentLength guid) < 2 ^ 28 - 2 ^ 12 := by
  obtain ⟨hescaped, hname, hguid⟩ := hfit
  have hescapedId := length_nrJsonEscape_le hidB
  obtain ⟨f, hf⟩ := Double.exists_finite (secondsOf_isFinite hqtime)
  obtain ⟨g, hg⟩ := Double.exists_finite (secondsOf_isFinite happtime)
  have hq := Double.length_format_le f 5
  have hr := Double.length_format_le g 5
  have hlength : (signedDecimal contentLength.toInt).length ≤ 11 := by
    have hlo := contentLength.le_toInt
    have hhi := contentLength.toInt_lt
    have hdigits := length_decimal_le (show 0 < 10 by decide)
      (show contentLength.toInt.natAbs < 10 ^ 10 by omega)
    rw [signedDecimal, List.length_append]
    split_ifs <;> simp only [List.length_nil, List.length_singleton] <;> omega
  rw [nrCrossProcessIdLengthMax] at hid
  have hfalse : (ascii "false").length = 5 := by decide
  constructor
  · simp only [responseFields, hf, hg, nroToJson, recursiveObjToJson, elementsToJson,
      List.isEmpty_cons, List.isEmpty_nil, Bool.false_eq_true, if_false, if_true, List.length_append,
      List.length_cons, List.length_nil, hfalse]
    omega
  · simp only [responseFields, longest, longestElement]
    omega

theorem exists_nrHeaderOutboundResponseObject (h : d.Peered key idA idB)
    (hvalid : nrHeaderValidateDecodedId d (some idB) = .success) (text guid : Bytes)
    (q r l : NrObj) :
    ∃ d', nrHeaderOutboundResponseObject d
        (some (.array [.string idB, .string text, q, r, l, .string guid, .boolean false])) =
      (d', { externalId := some idB, externalTxnname := some text, externalGuid := some guid }) := by
  simp [nrHeaderOutboundResponseObject, h.enabled, hvalid, nroGetArrayString, nroGetArrayBoolean,
    nroGetArrayValue, nroGetString, nroGetBoolean]

/-- A transaction that knows who called it responds, and the caller learns its id,
its name and its guid. -/
theorem response_roundTrip (unset : Bytes → ℕ) (hc : c.Peered key idB idA)
    (hd : d.Peered key idA idB) (hclient : c.cat.clientCrossProcessId = some idA)
    (hguid : c.guid = some guid) (hbmp : IsBmpString guid) (hresponds : c.Responds app name)
    (hname : IsBmpString (nrStrdup name))
    (hfit : FitHeader (nrStrdup name) guid)
    (now : UInt64) (contentLength : Int32) :
    ∃ c' z d', nrHeaderInboundResponse app now c contentLength = .ok (c', some z) ∧
      c'.named.name = name ∧
      nrHeaderOutboundResponse unset d (some z) =
        .ok (d',
          { externalId := some idB
            externalTxnname := some (nrStrdup name)
            externalGuid := some guid }) := by
  have hencodable : ∀ qtime apptime : ℕ, qtime < 2 ^ 64 → apptime < 2 ^ 64 → _ :=
    fun qtime apptime hqtime happtime =>
      let ⟨_, _, _, hreads⟩ := exists_responseFields_readsAs unset contentLength hc.isBmp hname
        hbmp hqtime happtime
      have hfields := responseFields_fit hqtime happtime hc.isBmp.2 hc.length_lt contentLength hfit
      nroToJson_encodable hreads
        ⟨hc.isBmp.2, hname.2, trivial, trivial, trivial, hbmp.2, trivial, trivial⟩
        hfields.1 hfields.2
  obtain ⟨c', qtime, apptime, hqtime, happtime, hreply, hname', hresponse⟩ :=
    exists_nrHeaderInboundResponse hc hguid hclient hresponds now contentLength
      fun qtime apptime hqtime happtime => (hencodable qtime apptime hqtime happtime).1
  obtain ⟨-, hne, hzero, hlength⟩ := hencodable qtime apptime hqtime happtime
  obtain ⟨q, r, l, hreads⟩ := exists_responseFields_readsAs unset contentLength hc.isBmp hname
    hbmp hqtime happtime
  have hkey : nroGetHashString c'.appConnectReply (ascii "encoding_key") = some key := by
    rw [hreply, hc.key_eq]
  obtain ⟨z, hencode, hdecode⟩ := hd.exists_nrHeaderEncode hne hzero hlength
  obtain ⟨d', hobject⟩ := exists_nrHeaderOutboundResponseObject hd (hd.validate hc.length_lt)
    (nrStrdup name) guid q r l
  refine ⟨c', z, d', ?_, hname', ?_⟩
  · simp only [nrHeaderInboundResponse, hresponse, ok_bind, hencode c' hkey]
  · rw [nrHeaderOutboundResponse, hdecode, map_ok, nrHeaderOutboundResponseDecoded,
      Option.bind_some, hreads.nroCreateFromJson_eq, hobject]

/-- A request that one agent sends is accepted by the other, which then knows the id of
the first, its guid, its trip id and its path hash; and whenever the transaction that was called
responds, the first one learns the id of the second, its name and its guid. The texts are as
long as `nr_b64_encode` can write them when they are escaped. -/
theorem cat_headers_roundTrip (unset : Bytes → ℕ) (md5Low32 : Bytes → UInt32)
    (payload : Option Bytes) (ha : a.Peered key idA idB) (hb : b.Peered key idB idA)
    (hdt : a.distributedTracingEnabled = false) (hguid : a.guid = some guid)
    (hbmp : IsBmpString guid) (htrip : ∀ t, a.cat.tripId = some t → IsBmpString t)
    (hsynthetics : ∀ s, a.synthetics = some s → 0 ∉ s ∧ s.length < 2 ^ 29)
    (hfit : FitHeader guid (a.cat.tripId.getD guid)) :
    ∃ a' headers x y b', nrHeaderOutboundRequest md5Low32 payload a = .ok (a', headers) ∧
      headers.xNewrelicId = some x ∧ headers.xNewrelicTransaction = some y ∧
      nrHeaderSetCatTxn unset b (some x) (some y) = .ok (b', .success) ∧
      b.Received b' idA guid (a.cat.tripId.getD guid)
        (nrStrdup (nrTxnCurrentPathHash md5Low32 a)) ∧
      ∀ c d : CatTxn, c.Peered key idB idA → d.Peered key idA idB →
        c.cat.clientCrossProcessId = b'.cat.clientCrossProcessId →
        ∀ guidB app name now contentLength, c.guid = some guidB → IsBmpString guidB →
          c.Responds app name → IsBmpString (nrStrdup name) →
          FitHeader (nrStrdup name) guidB →
          ∃ c' z d', nrHeaderInboundResponse app now c contentLength = .ok (c', some z) ∧
            c'.named.name = name ∧
            nrHeaderOutboundResponse unset d (some z) =
              .ok (d',
                { externalId := some idB
                  externalTxnname := some (nrStrdup name)
                  externalGuid := some guidB }) := by
  have htripId : nrStrdup (nrTxnGetCatTripId a) = a.cat.tripId.getD guid := by
    rw [nrTxnGetCatTripId, hguid]
    cases a.cat.tripId <;> rfl
  have htripBmp : IsBmpString (a.cat.tripId.getD guid) := by
    cases ht : a.cat.tripId with
    | none => exact hbmp
    | some t => exact htrip t ht
  obtain ⟨hpathBmp, hpathLength⟩ := isBmpString_pathHash md5Low32 a
  have hfields : a.fields md5Low32 guid = transactionFields guid (a.cat.tripId.getD guid)
      (nrStrdup (nrTxnCurrentPathHash md5Low32 a)) := by
    rw [CatTxn.fields, htripId]
  have hreads := transactionFields_readsAs unset hbmp htripBmp hpathBmp
  obtain ⟨hshort, hlongest⟩ := transactionFields_fit hpathBmp.2 hpathLength hfit
  obtain ⟨htext, hne, hzero, hlength⟩ := nroToJson_encodable hreads
    ⟨hbmp.2, trivial, htripBmp.2, hpathBmp.2, trivial⟩ hshort hlongest
  obtain ⟨x, hx, hdecodeId⟩ := hb.exists_nrHeaderEncode hb.peer_ne_nil ha.isBmp.2
    (ha.length_lt.trans (by decide))
  obtain ⟨y, hy, hdecodeFields⟩ := hb.exists_nrHeaderEncode hne hzero hlength
  have hwritten := congrArg (fun obj => Memory.nroToJson (some obj)) hfields
  obtain ⟨a', headers, hrequest, hid, htransaction⟩ := exists_nrHeaderOutboundRequest ha hdt hguid
    md5Low32 payload hsynthetics (hwritten.trans htext) hx hy
  obtain ⟨b', hset, hreceived⟩ :=
    exists_nrHeaderSetCatTxn hdecodeId (hb.validate ha.length_lt) hdecodeFields hreads
  refine ⟨a', headers, x, y, b', hrequest, hid, htransaction, hset, hreceived, ?_⟩
  intro c d hc hd hclient guidB app name now contentLength hguidB hbmpB hresponds hname hroom
  exact response_roundTrip unset hc hd (hclient.trans hreceived.clientCrossProcessId) hguidB hbmpB
    hresponds hname hroom now contentLength

end

/-- A transaction of the agent with the id `id` and one account that it trusts. -/
def plainCatTxn (id guid : String) (account : ℤ) : CatTxn where
  named :=
    { status :=
        { pathIsFrozen := true
          pathType := .uri
          background := false
          ignore := false
          recording := true }
      path := some (ascii "x")
      name := some (ascii "WebTransaction/Uri/x")
      options := { apdexT := 500000, ttThreshold := 2000000, ttIsApdexF := true }
      unscopedMetrics := nrmTableCreate 2000
      matchFilenames := none
      webTransactionsApdex := none }
  appConnectReply := some (.hash
    [(ascii "encoding_key", .string (ascii "d67afc830dab717fd163bfcb0b8b88423e9a1a3b")),
      (ascii "cross_process_id", .string (ascii id)),
      (ascii "trusted_account_ids", .array [.int account])])
  crossProcessEnabled := true
  distributedTracingEnabled := false
  syntheticsEnabled := false
  crossProcess := .start
  hasInboundRecordTt := false
  hasOutboundRecordTt := false
  httpXStart := 0
  absStartTime := 1000000
  guid := some (ascii guid)
  primaryAppName := some (ascii "app")
  synthetics := none
  type := { catInbound := false, catOutbound := false, dtOutbound := false }
  cat :=
    { inboundGuid := none
      tripId := none
      referringPathHash := none
      alternatePathHashes := .hash []
      clientCrossProcessId := none }
  intrinsics := .hash []

def callingTxn : CatTxn := plainCatTxn "12#34" "01" 56

def calledTxn : CatTxn := plainCatTxn "56#78" "02" 12

theorem plainCatTxn_peered {id guid peer : String} {account : ℤ}
    (hlength : (ascii id).length < nrCrossProcessIdLengthMax)
    (hascii : (ascii id).all fun b => 0 < b.toNat && b.toNat < 0x80)
    (htrusts : nrTxnIsAccountTrusted (plainCatTxn id guid account)
      (Int32.ofInt (nrHeaderAccountIdFromCrossProcessId (some (ascii peer)))) = true) :
    (plainCatTxn id guid account).Peered (ascii "d67afc830dab717fd163bfcb0b8b88423e9a1a3b")
      (ascii id) (ascii peer) where
  enabled := rfl
  key_eq := rfl
  key_ne_nil := by decide
  zero_notMem_key := by decide
  key_lt := by decide
  id_eq := rfl
  length_lt := hlength
  isBmp := isBmpString_ascii hascii
  trusts := htrusts

theorem callingTxn_peered : callingTxn.Peered (ascii "d67afc830dab717fd163bfcb0b8b88423e9a1a3b")
    (ascii "12#34") (ascii "56#78") :=
  plainCatTxn_peered (by decide) (by decide) (by decide)

theorem calledTxn_peered : calledTxn.Peered (ascii "d67afc830dab717fd163bfcb0b8b88423e9a1a3b")
    (ascii "56#78") (ascii "12#34") :=
  plainCatTxn_peered (by decide) (by decide) (by decide)

/-- A request from one agent to another, and the response of the same transaction. -/
theorem cat_headers_roundTrip_plain : ∃ a' headers x y b' c' z d',
    nrHeaderOutboundRequest (fun _ => 0) none callingTxn = .ok (a', headers) ∧
      headers.xNewrelicId = some x ∧ headers.xNewrelicTransaction = some y ∧
      nrHeaderSetCatTxn (fun _ => 0) calledTxn (some x) (some y) = .ok (b', .success) ∧
      b'.cat.clientCrossProcessId = some (ascii "12#34") ∧
      b'.cat.inboundGuid = some (ascii "01") ∧
      nrHeaderInboundResponse none 2000000 b' (-1) = .ok (c', some z) ∧
      nrHeaderOutboundResponse (fun _ => 0) callingTxn (some z) =
        .ok (d',
          { externalId := some (ascii "56#78")
            externalTxnname := some (ascii "WebTransaction/Uri/x")
            externalGuid := some (ascii "02") }) := by
  obtain ⟨a', headers, x, y, b', hrequest, hx, hy, hset, hreceived, hresponse⟩ :=
    cat_headers_roundTrip (fun _ => 0) (fun _ => 0) none callingTxn_peered calledTxn_peered rfl
      (show callingTxn.guid = some (ascii "01") from rfl) (isBmpString_ascii (by decide)) nofun
      nofun ⟨by decide +kernel, by decide, by decide⟩
  have hpeered := calledTxn_peered.of_eq hreceived.appConnectReply hreceived.crossProcessEnabled
  have hresponds : b'.Responds none (some (ascii "WebTransaction/Uri/x")) := by
    constructor
    · rw [hreceived.named]
      rfl
    · rw [hreceived.crossProcess]
      rfl
    · rw [hreceived.named]
      rfl
    · rw [hreceived.named]
      rfl
  obtain ⟨c', z, d', hz, -, hexternal⟩ := hresponse b' callingTxn hpeered callingTxn_peered rfl
    (ascii "02") none (some (ascii "WebTransaction/Uri/x")) 2000000 (-1) hreceived.guid_eq
    (isBmpString_ascii (by decide)) hresponds (isBmpString_ascii (by decide))
    ⟨by decide +kernel, by decide, by decide⟩
  exact ⟨a', headers, x, y, b', c', z, d', hrequest, hx, hy, hset, hreceived.clientCrossProcessId,
    hreceived.inboundGuid, hz, hexternal⟩

/-- With a guid of 357,913,941 letters the request runs over the buffer of its fields. -/
theorem nrHeaderOutboundRequest_overruns {txn : CatTxn} {key id peer : Bytes}
    (h : txn.Peered key id peer) (hdt : txn.distributedTracingEnabled = false)
    (hguid : txn.guid = some (lettersA 357913941).val) (md5Low32 : Bytes → UInt32)
    (payload : Option Bytes) : nrHeaderOutboundRequest md5Low32 payload txn = .error .write := by
  have hdecoded : nrHeaderOutboundRequestDecoded md5Low32 txn = .error .write := by
    simp only [nrHeaderOutboundRequestDecoded, h.enabled, h.id_eq, hguid, Bool.not_true,
      Bool.false_eq_true, if_false, nroToJson_overruns, error_bind]
  rw [nrHeaderOutboundRequest, hdt, if_neg Bool.false_ne_true, if_pos h.enabled, hdecoded,
    error_bind]

theorem cat_headers_overrun :
    ¬ ∀ (md5Low32 : Bytes → UInt32) (a b : CatTxn) (key idA idB guid : Bytes),
      a.Peered key idA idB → b.Peered key idB idA → a.distributedTracingEnabled = false →
      a.guid = some guid → IsBmpString guid → a.cat.tripId = none → a.synthetics = none →
      ∃ a' headers, nrHeaderOutboundRequest md5Low32 none a = .ok (a', headers) := by
  intro h
  have hpeered : CatTxn.Peered { callingTxn with guid := some (lettersA 357913941).val } _ _ _ :=
    callingTxn_peered.of_eq rfl rfl
  obtain ⟨a', headers, hrequest⟩ := h (fun _ => 0) _ calledTxn _ _ _ _ hpeered calledTxn_peered rfl
    rfl (isBmpString_lettersA _) rfl rfl
  rw [nrHeaderOutboundRequest_overruns hpeered rfl rfl] at hrequest
  cases hrequest

end AxiomDaemon.Axiom

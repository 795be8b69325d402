import AxiomDaemon.Lib.Double
import AxiomDaemon.Util.FlatbuffersWriting
import AxiomDaemon.Util.MetricTable

/-!
The metrics of a transaction in its message, `cmd_txndata_transmit.c`.

The data of a metric are a structure of 56 bytes, which is written inside the object of the
metric, without a reference to it. No padding may come between its members, so room for all
of them is made first.
-/

namespace AxiomDaemon.Axiom

open AxiomDaemon.Lib AxiomDaemon.Lib.Flatbuffers AxiomDaemon.Util

/-! ### Numbers -/

/-- The bits of a double. -/
def doubleBits : Double → BitVec 64
  | .finite d =>
      let sign := if d.negative then 2 ^ 63 else 0
      if d.mantissa < 2 ^ 52 then .ofNat 64 (sign + d.mantissa)
      else .ofNat 64 (sign + (d.power + 1) * 2 ^ 52 + (d.mantissa - 2 ^ 52))
  | .infinite negative => .ofNat 64 ((if negative then 2 ^ 63 else 0) + 2047 * 2 ^ 52)
  | .nan negative => .ofNat 64 ((if negative then 2 ^ 63 else 0) + 2047 * 2 ^ 52 + 2 ^ 51)

/-- `nrtime_to_double`. -/
def nrtimeToDouble (x : UInt64) : Double := .ofRatio false x.toNat 1

/-- `NR_TIME_DIVISOR_D`. -/
def nrTimeDivisorD : ℕ := 1000000

/-- `NR_TIME_DIVISOR_D_SQUARE`. -/
def nrTimeDivisorDSquare : ℕ := 1000000000000

/-! ### The data of a metric -/

def metricFieldName : ℕ := 0

def metricFieldData : ℕ := 1

def metricNumFields : ℕ := 2

/-- `nrm_is_apdex`. -/
def nrmIsApdex (metric : NrmintMetric) : Bool := metric.flags &&& metIsApdex ≠ 0

/-- The numbers of a metric, in the order in which they are written: the last one comes
first in the message. -/
def metricDoubles (metric : NrmintMetric) : List Double :=
  let data := metric.mdata
  if nrmIsApdex metric then
    [.finite .zero, (nrtimeToDouble data.max).div nrTimeDivisorD,
      (nrtimeToDouble data.min).div nrTimeDivisorD, nrtimeToDouble data.exclusive,
      nrtimeToDouble data.total, nrtimeToDouble data.count]
  else
    [(nrtimeToDouble data.sumSquares).div nrTimeDivisorDSquare,
      (nrtimeToDouble data.max).div nrTimeDivisorD, (nrtimeToDouble data.min).div nrTimeDivisorD,
      (nrtimeToDouble data.exclusive).div nrTimeDivisorD,
      (nrtimeToDouble data.total).div nrTimeDivisorD, nrtimeToDouble data.count]

section Write

variable (malloc : ℕ → ℕ)

/-- `nr_flatbuffers_prepend_bool`. -/
def nrFlatbuffersPrependBool (fb : Flatbuffer) (x : Bool) : Option Flatbuffer :=
  nrFlatbuffersPrepend malloc .u8 fb (if x then 1 else 0)

/-- `nr_txndata_prepend_metric_data`. -/
def nrTxndataPrependMetricData (fb : Flatbuffer) (metric : NrmintMetric) (isScoped : Bool) :
    Option (ℕ × Flatbuffer) := do
  let fb ← nrFlatbuffersPrep malloc fb 8 56
  let fb ← nrFlatbuffersPad fb 6
  let fb ← nrFlatbuffersPrependBool malloc fb (nrmIsForced metric)
  let fb ← nrFlatbuffersPrependBool malloc fb isScoped
  let fb ← (metricDoubles metric).foldlM
    (fun fb x => nrFlatbuffersPrepend malloc .f64 fb (doubleBits x)) fb
  some (nrFlatbuffersLen fb % 2 ^ 32, fb)

/-- `nr_flatbuffers_object_prepend_struct`. -/
def nrFlatbuffersObjectPrependStruct (fb : Flatbuffer) (i x d : ℕ) : Option Flatbuffer :=
  if x ≠ d then setSlot fb i else some fb

/-- `nr_txndata_prepend_metric`. -/
def nrTxndataPrependMetric (nameText : Option Bytes) (metric : NrmintMetric) (isScoped : Bool) :
    Writing ℕ := do
  let name ← prependString malloc nameText
  objectBegin metricNumFields
  objectPrependUoffset malloc metricFieldName name 0
  let data ← fun fb => nrTxndataPrependMetricData malloc fb metric isScoped
  .step fun fb => nrFlatbuffersObjectPrependStruct fb metricFieldData data 0
  objectEnd malloc

end Write

/-! ### Members without padding -/

/-- The bytes of the data of a metric. -/
def metricDataBytes (metric : NrmintMetric) (isScoped : Bool) : Bytes :=
  (metricDoubles metric).reverse.flatMap (fun x => uintLE 8 (doubleBits x).toNat) ++
    ([if isScoped then 1 else 0, if nrmIsForced metric then 1 else 0] ++ List.replicate 6 0)

theorem length_metricDoubles (metric : NrmintMetric) : (metricDoubles metric).length = 6 := by
  unfold metricDoubles
  dsimp only
  split <;> rfl

theorem uintLE_bool (b : Bool) :
    uintLE ScalarType.u8.size (if b then 1 else 0 : ScalarType.u8.Value).toNat =
      [if b then 1 else 0] := by
  cases b <;> rfl

section Room

variable {malloc : ℕ → ℕ} {fb fb' : Flatbuffer}

/-- There is room, and the buffer starts at a multiple of the size: there is no padding. -/
theorem nrFlatbuffersPrep_of_room (malloc : ℕ → ℕ) {size : ℕ} (hroom : 2 * size < fb.room)
    (hdvd : size ∣ fb.pos) : ∃ prepared, nrFlatbuffersPrep malloc fb size 0 = some prepared ∧
      Extends fb prepared [] ∧ prepared.front = fb.front ∧ prepared.room = fb.room := by
  set aligned := if size > fb.minAlign then { fb with minAlign := size } else fb with haligned
  have hbytes : aligned.bytes = fb.bytes := by
    rw [haligned]
    split <;> rfl
  have hfront : aligned.front = fb.front := by
    rw [haligned]
    split <;> rfl
  have hkept : aligned.room = fb.room := by
    rw [haligned]
    split <;> rfl
  have hextends : Extends fb aligned [] := by
    rw [haligned]
    split
    · exact ⟨rfl, rfl, rfl, rfl, fun ha => ⟨ha.front, ha.capacity, by dsimp only; omega⟩⟩
    · exact .refl fb
  refine ⟨aligned, ?_, hextends, hfront, hkept⟩
  have hgrow : growWhile malloc (2 * size + 0) (2 * size + 0 + 1) aligned = some aligned := by
    rw [growWhile, if_neg (by omega)]
  have hpos : aligned.pos = fb.pos := by
    unfold Flatbuffer.pos
    rw [hfront, hkept]
  have hpad : (aligned.pos - 0 - size) % size = 0 := by
    rw [hpos, Nat.sub_zero]
    exact Nat.mod_eq_zero_of_dvd (Nat.dvd_sub hdvd (Nat.dvd_refl size))
  unfold nrFlatbuffersPrep
  show (growWhile malloc _ _ aligned).bind _ = _
  rw [hgrow]
  show nrFlatbuffersPad aligned _ = _
  rw [hpad]
  simp [nrFlatbuffersPad, Flatbuffer.put]

theorem nrFlatbuffersPrepend_of_room (malloc : ℕ → ℕ) (ty : ScalarType) (x : ty.Value)
    (hroom : 2 * ty.size < fb.room) (hdvd : ty.size ∣ fb.pos) :
    ∃ fb', nrFlatbuffersPrepend malloc ty fb x = some fb' ∧
      Extends fb fb' (uintLE ty.size x.toNat) ∧ fb'.front = fb.front ∧
      fb'.room + ty.size = fb.room := by
  obtain ⟨prepared, hprep, hextends, hfront, hkept⟩ := nrFlatbuffersPrep_of_room malloc hroom hdvd
  obtain ⟨fb', hput⟩ : ∃ fb', prepared.put (uintLE ty.size x.toNat) = some fb' := by
    apply put_returns
    rw [length_uintLE]
    omega
  obtain ⟨hextends', hfront', hleft⟩ := put_spec hput
  rw [length_uintLE] at hleft
  have hall := hextends.trans hextends'
  rw [List.append_nil] at hall
  exact ⟨fb', Option.bind_eq_some_iff.mpr ⟨prepared, hprep, hput⟩, hall, hfront'.trans hfront,
    hleft.trans hkept⟩

theorem foldlM_prependF64_of_room (malloc : ℕ → ℕ) (doubles : List Double)
    (hroom : 8 * doubles.length + 8 < fb.room) (hdvd : 8 ∣ fb.pos) :
    ∃ fb', doubles.foldlM (fun fb x => nrFlatbuffersPrepend malloc .f64 fb (doubleBits x)) fb =
        some fb' ∧
      Extends fb fb' (doubles.reverse.flatMap fun x => uintLE 8 (doubleBits x).toNat) := by
  induction doubles generalizing fb with
  | nil => exact ⟨fb, rfl, .refl fb⟩
  | cons x doubles ih =>
      rw [List.length_cons] at hroom
      have hx : 2 * ScalarType.f64.size < fb.room := by
        show 2 * 8 < fb.room
        omega
      obtain ⟨next, hnext, hextends, hfront, hleft⟩ :=
        nrFlatbuffersPrepend_of_room malloc .f64 (doubleBits x) hx hdvd
      have hleft : next.room + 8 = fb.room := hleft
      have hpos : fb.pos = next.pos + 8 := by
        unfold Flatbuffer.pos
        omega
      obtain ⟨fb', hrest, hextends'⟩ := ih (by omega)
        ((Nat.dvd_add_left (Nat.dvd_refl 8)).mp (hpos ▸ hdvd))
      refine ⟨fb', ?_, ?_⟩
      · rw [List.foldlM_cons, hnext]
        exact hrest
      · rw [List.reverse_cons, List.flatMap_append, List.flatMap_singleton]
        exact hextends.trans hextends'

end Room

section Metric

variable {malloc : ℕ → ℕ} (hmalloc : ∀ n, 4 ∣ malloc n) {fb : Flatbuffer}

include hmalloc

/-- What makes room for the data also makes them start at a multiple of 8. -/
theorem nrFlatbuffersPrep_metricData (h : fb.bytes.length + 72 < 2 ^ 30) :
    ∃ prepared pad, nrFlatbuffersPrep malloc fb 8 56 = some prepared ∧
      Extends fb prepared (List.replicate pad 0) ∧ pad < 8 ∧ 65 < prepared.room ∧
      8 ∣ prepared.pos := by
  obtain ⟨prepared, hprep, _⟩ :=
    nrFlatbuffersPrep_returns hmalloc (show 0 < 8 by decide) (show _ + (2 * 8 + 56) < _ from h)
  obtain ⟨grown, hextends, hroom, hpad⟩ := nrFlatbuffersPrep_cases hmalloc hprep
  obtain ⟨hextends', hfront, hleft⟩ := put_spec hpad
  rw [List.length_replicate] at hleft
  have hlt : (grown.pos - 56 - 8) % 8 < 8 := Nat.mod_lt _ (by decide)
  have hall := hextends.trans hextends'
  rw [List.append_nil] at hall
  refine ⟨prepared, _, hprep, hall, hlt, by omega, ?_⟩
  have hgrown : grown.pos = grown.front + grown.room := rfl
  have hprepared : prepared.pos = prepared.front + prepared.room := rfl
  omega

theorem nrTxndataPrependMetricData_spec (h : fb.bytes.length + 72 < 2 ^ 30)
    (metric : NrmintMetric) (isScoped : Bool) :
    ∃ data fb' pad, nrTxndataPrependMetricData malloc fb metric isScoped = some (data, fb') ∧
      data = fb'.bytes.length ∧ Extends fb fb' (metricDataBytes metric isScoped ++ pad) ∧
      Grew fb fb' 128 := by
  obtain ⟨prepared, pad, hprep, hextends, _, hroom, hdvd⟩ :=
    nrFlatbuffersPrep_metricData hmalloc h
  have hprepared : prepared.pos = prepared.front + prepared.room := rfl
  obtain ⟨padded, hpad⟩ : ∃ padded, nrFlatbuffersPad prepared 6 = some padded :=
    put_returns (by rw [List.length_replicate]; omega)
  obtain ⟨hextends1, hfront1, hleft1⟩ := put_spec hpad
  rw [List.length_replicate] at hleft1
  obtain ⟨forced, hforced, hextends2, hfront2, hleft2⟩ :=
    nrFlatbuffersPrepend_of_room malloc .u8 (if nrmIsForced metric then 1 else 0)
      (show 2 * 1 < padded.room by omega) (Nat.one_dvd _)
  have hleft2 : forced.room + 1 = padded.room := hleft2
  obtain ⟨marked, hmarked, hextends3, hfront3, hleft3⟩ :=
    nrFlatbuffersPrepend_of_room malloc .u8 (if isScoped then 1 else 0)
      (show 2 * 1 < forced.room by omega) (Nat.one_dvd _)
  have hleft3 : marked.room + 1 = forced.room := hleft3
  have hpos : prepared.pos = marked.pos + 8 := by
    have hmarked : marked.pos = marked.front + marked.room := rfl
    omega
  obtain ⟨fb', hdoubles, hextends4⟩ := foldlM_prependF64_of_room malloc (metricDoubles metric)
    (show 8 * _ + 8 < marked.room by rw [length_metricDoubles]; omega)
    ((Nat.dvd_add_left (Nat.dvd_refl 8)).mp (hpos ▸ hdvd))
  have hfold : Grew marked fb' (16 * (metricDoubles metric).length) :=
    Grew.foldlM (fun _ _ _ h => Grew.prepend hmalloc h) hdoubles
  have hgrew := ((((Grew.prep hmalloc (by decide) (by decide) hprep).trans (Grew.put hpad)).trans
    (Grew.prepend hmalloc hforced)).trans (Grew.prepend hmalloc hmarked)).trans hfold
  rw [List.length_replicate, length_metricDoubles] at hgrew
  have hgrew : Grew fb fb' 128 := hgrew.mono (by decide)
  have hlength := hgrew.length
  refine ⟨fb'.bytes.length, fb', List.replicate pad 0, ?_, rfl, ?_, hgrew⟩
  · unfold nrTxndataPrependMetricData nrFlatbuffersPrependBool
    simp only [hprep, hpad, hforced, hmarked, hdoubles, Option.bind_eq_bind, Option.bind_some]
    unfold nrFlatbuffersLen
    rw [Nat.mod_eq_of_lt (by omega)]
  · have hall := (((hextends.trans hextends1).trans hextends2).trans hextends3).trans hextends4
    rw [uintLE_bool, uintLE_bool] at hall
    unfold metricDataBytes
    simpa only [List.append_assoc, List.cons_append, List.nil_append] using hall

theorem reaches_metricData {start numFields : ℕ} {written : List (ℕ × Option Flatbuffers.Field)}
    (h : Writes start numFields written fb) (hi : metricFieldData < numFields)
    (metric : NrmintMetric) (isScoped : Bool) (hlt : fb.bytes.length + 128 < 2 ^ 30) :
    writing.Reaches (fb.bytes.length + 128) fb
      ((fun fb => nrTxndataPrependMetricData malloc fb metric isScoped) >>= fun data =>
        Writing.step fun fb => nrFlatbuffersObjectPrependStruct fb metricFieldData data 0)
      (fun _ fb' => Writes start numFields
        ((metricFieldData, some (.inline (metricDataBytes metric isScoped))) :: written) fb')
      fun _ _ => True := by
  obtain ⟨data, prepended, pad, hrun, hdata, hextends, hgrew⟩ :=
    nrTxndataPrependMetricData_spec hmalloc (show fb.bytes.length + 72 < _ by omega) metric isScoped
  have hgrown := hgrew.length
  have hlength := hextends.length
  have hbytes : 2 ≤ (metricDataBytes metric isScoped ++ pad).length := by
    simp [metricDataBytes]
    omega
  have hholds : (Flatbuffers.Field.inline (metricDataBytes metric isScoped)).Holds prepended.bytes
      prepended.bytes.length := hextends.at_front.left
  obtain ⟨fb', hslot⟩ : ∃ fb', setSlot prepended metricFieldData = some fb' := by
    apply setSlot_returns hextends
    rw [h.numFields]
    exact hi
  obtain ⟨hwrites, hsame⟩ := h.field hextends hgrew hholds (by omega) (by omega) hslot
  have hstruct : nrFlatbuffersObjectPrependStruct prepended metricFieldData data 0 = some fb' := by
    unfold nrFlatbuffersObjectPrependStruct
    rw [if_pos (by omega), hslot]
  refine ⟨(), fb', ?_, ?_, ?_, hwrites, fun buf hbuf => ⟨?_, trivial⟩⟩
  · show (nrTxndataPrependMetricData malloc fb metric isScoped).bind _ = _
    rw [hrun]
    show (nrFlatbuffersObjectPrependStruct prepended metricFieldData data 0).map _ = _
    rw [hstruct]
    rfl
  · show fb.bytes.length ≤ fb'.bytes.length
    rw [hsame]
    exact hextends.length_le
  · show fb'.bytes.length ≤ _
    rw [hsame]
    exact hgrown
  · have hbuf : fb'.bytes <:+ buf := hbuf
    rw [hsame, hextends.bytes] at hbuf
    exact (List.suffix_append _ fb.bytes).trans hbuf

/-- How much a metric adds at most. -/
def metricCost (nameText : Option Bytes) : ℕ := textCost nameText + 164

/-- The object of a metric. -/
def MetricAt (nameText : Option Bytes) (metric : NrmintMetric) (isScoped : Bool) (off : ℕ)
    (buf : Bytes) : Prop :=
  ∃ name, TextIs buf name nameText ∧
    (Piece.table (fieldsOf [(metricFieldData, some (.inline (metricDataBytes metric isScoped))),
      (metricFieldName, refField name)])).Holds buf off

theorem reaches_metric (h : Ready fb) (nameText : Option Bytes) (metric : NrmintMetric)
    (isScoped : Bool) (hlt : fb.bytes.length + metricCost nameText < 2 ^ 30) :
    writing.Reaches (fb.bytes.length + metricCost nameText) fb
      (nrTxndataPrependMetric malloc nameText metric isScoped)
      (fun off fb' => Ready fb' ∧ off ≤ fb'.bytes.length)
      (MetricAt nameText metric isScoped) := by
  unfold metricCost at hlt ⊢
  refine reaches_prependString_bind hmalloc h nameText (by omega) hlt
    fun name f1 h1 hname l1 b1 => ?_
  refine (reaches_objectBegin h1).bind fun _ f2 ⟨h2, hbytes⟩ _ _ => ?_
  have l2 : f2.bytes.length = f1.bytes.length := congrArg List.length hbytes
  have hnew : ∀ p ∈ ([] : List (ℕ × Option Flatbuffers.Field)), p.1 ≠ metricFieldName := nofun
  have hfield := reaches_objectPrependUoffset hmalloc h2 hnew (by decide) (hname.trans_eq l2.symm)
    (by omega)
  refine hfield.bind fun _ f3 h3 _ l3 => ?_
  have l3 : f3.bytes.length ≤ f2.bytes.length + 8 := l3
  have hdata := reaches_metricData hmalloc h3 (by decide) metric isScoped (by omega)
  rw [← bind_assoc]
  refine hdata.bind fun _ f4 h4 _ l4 => ?_
  have l4 : f4.bytes.length ≤ f3.bytes.length + 128 := l4
  have hend := reaches_objectEnd hmalloc h4 (by decide) (by omega)
    (show f4.bytes.length + (4 * 2 + 20) < _ by omega)
  exact hend.mono (show f4.bytes.length + (4 * 2 + 20) ≤ _ by omega)
    (fun off fb' _ ⟨hready, hoff, _⟩ => ⟨hready, hoff⟩)
    fun off buf htable _ _ _ htext => ⟨name, htext, htable⟩

end Metric

end AxiomDaemon.Axiom

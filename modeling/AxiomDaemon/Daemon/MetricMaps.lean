import AxiomDaemon.Daemon.MetricRules
import AxiomDaemon.Lib.NestedMap
import AxiomDaemon.Lib.ReadNumber
import AxiomDaemon.Util.JsonEscape
import Mathlib.Algebra.Order.Ring.Defs

/-!
The daemon's table of metrics with its two levels of maps, `metrics.go`: by
name and, below that, by scope. A name comes as a string or as a slice of
bytes; a string of Go is a sequence of bytes too. The number of metrics is
counted apart from the maps, and both the limit and the commas of the JSON
text go by that count.

Numbers are taken as exact, so they are of any ordered ring. How a number is
written is a parameter, which gives no text for a number that is not finite.
-/

namespace AxiomDaemon.Daemon

open AxiomDaemon.Lib AxiomDaemon.Lib.Json

/-- The name and the scope of a metric. -/
abbrev MetricKey := Bytes × Bytes

/-- `MetricTable`. The times are in seconds. -/
structure MetricMaps (D : Type) where
  metricPeriodStart : ℤ
  maxTableSize : ℤ
  count : ℤ
  numDropped : ℤ
  metrics : NestedMap Bytes Bytes (Metric D)

namespace MetricMaps

variable {D : Type}

/-- `NewMetricTable`. -/
def new (maxTableSize : ℤ) (now : ℤ) : MetricMaps D where
  metricPeriodStart := now
  maxTableSize := maxTableSize
  count := 0
  numDropped := 0
  metrics := ∅

def full (mt : MetricMaps D) : Bool := mt.count ≥ mt.maxTableSize

/-- `Empty`. -/
def empty (mt : MetricMaps D) : Bool := 0 = mt.count

/-- The metrics that are stored, with their names and scopes. -/
def stored (mt : MetricMaps D) : List (MetricKey × Metric D) := NestedMap.stored mt.metrics

def find (mt : MetricMaps D) (key : MetricKey) : Option (Metric D) :=
  NestedMap.find mt.metrics key

section Merging

variable [Aggregate D]

/-- `mergeMetric`. The slice is the name unless it is nil. -/
def mergeMetric (mt : MetricMaps D) (nameSlice : Option Bytes) (nameString scope : Bytes)
    (m : Metric D) : MetricMaps D :=
  let name := match nameSlice with
    | none => nameString
    | some nameSlice => nameSlice
  let s := mt.metrics.lookup name
  let old := match s with
    | none => none
    | some s => s.lookup scope
  match old with
  | none =>
      if mt.full = true ∧ m.forced = .unforced then { mt with numDropped := mt.numDropped + 1 }
      else
        let s := match s with
          | none => ∅
          | some s => s
        { mt with
          metrics := mt.metrics.insert name (s.insert scope m)
          count := mt.count + 1 }
  | some old =>
      { mt with
        metrics := mt.metrics.insert name
          ((s.getD ∅).insert scope { old with data := aggregate old.data m.data }) }

/-- The body of the loops over the metrics of another table. -/
def mergeAll (mt : MetricMaps D) (metrics : List (MetricKey × Metric D)) : MetricMaps D :=
  metrics.foldl (fun mt entry => mt.mergeMetric none entry.1.1 entry.1.2 entry.2) mt

/-- `Merge`. -/
def merge (mt src : MetricMaps D) (order : NestedOrder Bytes Bytes) : MetricMaps D :=
  mt.mergeAll (NestedMap.visited order src.metrics)

end Merging

/-! ### Adding -/

section Adding

variable {K : Type} [CommRing K] [LinearOrder K]

/-- `add`. -/
def add (mt : MetricMaps (MetricData K)) (nameSlice : Option Bytes) (nameString scope : Bytes)
    (data : MetricData K) (force : MetricForce) : MetricMaps (MetricData K) :=
  mt.mergeMetric nameSlice nameString scope ⟨force, data⟩

/-- `AddRaw`. The array has the fields of the data in their order. -/
def addRaw (mt : MetricMaps (MetricData K)) (nameSlice : Option Bytes) (nameString scope : Bytes)
    (data : MetricData K) (force : MetricForce) : MetricMaps (MetricData K) :=
  mt.add nameSlice nameString scope data force

/-- What `AddCount` adds. -/
def countData (count : K) : MetricData K :=
  { countSatisfied := count, totalTolerated := 0, exclusiveFailed := 0, min := 0, max := 0,
    sumSquares := 0 }

/-- `AddCount`. -/
def addCount (mt : MetricMaps (MetricData K)) (name scope : Bytes) (count : K)
    (force : MetricForce) : MetricMaps (MetricData K) :=
  mt.add none name scope (countData count) force

/-- What `AddValue` adds. -/
def valueData (value : K) : MetricData K :=
  { countSatisfied := 1, totalTolerated := value, exclusiveFailed := 0, min := value,
    max := value, sumSquares := value * value }

/-- `AddValue`. -/
def addValue (mt : MetricMaps (MetricData K)) (name scope : Bytes) (value : K)
    (force : MetricForce) : MetricMaps (MetricData K) :=
  mt.add none name scope (valueData value) force

end Adding

/-! ### The text for the collector -/

/-- The character that `AppendString` decodes at the start of bytes beyond
ASCII, with its size; none where the bytes are not UTF-8. -/
def decodeRune : Bytes → Option (ℕ × ℕ)
  | b₀ :: b₁ :: bs =>
      match codePoint2 b₀ b₁ with
      | some c => some (c, 2)
      | none =>
          match bs with
          | b₂ :: bs =>
              match codePoint3 b₀ b₁ b₂ with
              | some c => some (c, 3)
              | none =>
                  match bs with
                  | b₃ :: _ => (codePoint4 b₀ b₁ b₂ b₃).map fun c => (c, 4)
                  | [] => none
          | [] => none
  | _ => none

/-- A byte below `0x80`. -/
def appendByte (b : UInt8) : Bytes :=
  if b ≥ 0x20 ∧ b ≠ backslash ∧ b ≠ quote ∧ b ≠ 0x3c ∧ b ≠ 0x3e ∧ b ≠ 0x26 then [b]
  else if b = backslash ∨ b = quote then [backslash, b]
  else if b = 0x0a then ascii "\\n"
  else if b = 0x0d then ascii "\\r"
  else if b = 0x09 then ascii "\\t"
  else ascii "\\u00" ++ [Util.hexDigit (b.toNat / 16), Util.hexDigit (b.toNat % 16)]

/-- The loop of `AppendString`; every round takes a byte at least. -/
def appendRunes : (fuel : ℕ) → Bytes → Bytes
  | 0, _ => []
  | _, [] => []
  | fuel + 1, b :: bs =>
      if b < 0x80 then appendByte b ++ appendRunes fuel bs
      else
        match decodeRune (b :: bs) with
        | none => ascii "\\ufffd" ++ appendRunes fuel bs
        | some (c, size) =>
            -- line and paragraph separators, which JavaScript does not take
            if c = 0x2028 ∨ c = 0x2029 then
              ascii "\\u202" ++ [Util.hexDigit (c % 16)] ++
                appendRunes fuel ((b :: bs).drop size)
            else (b :: bs).take size ++ appendRunes fuel ((b :: bs).drop size)

/-- `AppendString`. -/
def appendString (buf s : Bytes) : Bytes := buf ++ quote :: (appendRunes s.length s ++ [quote])

/-- `AppendInt`. -/
def appendInt (buf : Bytes) (x : ℤ) : Bytes := buf ++ signedDecimal x

section Texts

variable {K : Type} (floatText : K → Option Bytes)

/-- The loop of `AppendFloatArray`: none where there is an error. -/
def appendFloats : Bytes → List K → Option Bytes
  | buf, [] => some buf
  | buf, x :: a =>
      match floatText x with
      | none => none
      | some text => appendFloats (buf ++ text ++ [comma]) a

/-- `AppendFloatArray`. -/
def appendFloatArray (buf : Bytes) (a : List K) : Option Bytes :=
  (appendFloats floatText (buf ++ [lbracket]) a).map fun buf =>
    (if a.length > 0 then buf.dropLast else buf) ++ [rbracket]

/-- `collectorData`. -/
def collectorData (data : MetricData K) : List K :=
  [data.countSatisfied, data.totalTolerated, data.exclusiveFailed, data.min, data.max,
    data.sumSquares]

/-- The body of the loops of `CollectorJSON`. -/
def appendMetric (buf : Bytes) (entry : MetricKey × Metric (MetricData K)) : Option Bytes :=
  let buf := buf ++ [lbracket] ++ [lbrace]
  let buf := appendString (buf ++ ascii "\"name\":") entry.1.1
  let buf := if entry.1.2 ≠ [] then appendString (buf ++ ascii ",\"scope\":") entry.1.2 else buf
  let buf := buf ++ [rbrace] ++ [comma]
  (appendFloatArray floatText buf (collectorData entry.2.data)).map fun buf =>
    buf ++ [rbracket] ++ [comma]

def appendMetrics : Bytes → List (MetricKey × Metric (MetricData K)) → Option Bytes
  | buf, [] => some buf
  | buf, entry :: entries =>
      match appendMetric floatText buf entry with
      | none => none
      | some buf => appendMetrics buf entries

/-- `CollectorJSON`. -/
def collectorJSON (mt : MetricMaps (MetricData K)) (order : NestedOrder Bytes Bytes) (id : Bytes)
    (now : ℤ) : Option Bytes :=
  let buf := [lbracket]
  let buf := appendString buf id ++ [comma]
  let buf := appendInt buf mt.metricPeriodStart ++ [comma]
  let buf := appendInt buf now ++ [comma]
  let buf := buf ++ [lbracket]
  (appendMetrics floatText buf (NestedMap.visited order mt.metrics)).map fun buf =>
    -- without metrics there is no comma after the last one
    let buf := if mt.count > 0 then buf.dropLast else buf
    buf ++ [rbracket] ++ [rbracket]

end Texts

end MetricMaps

/-! ### Aggregating a list -/

/-- Aggregation of exact data: the order makes no difference. -/
class LawfulAggregate (D : Type) [Aggregate D] : Prop where
  comm : ∀ a b : D, aggregate a b = aggregate b a
  assoc : ∀ a b c : D, aggregate (aggregate a b) c = aggregate a (aggregate b c)

theorem aggregate_eq {K : Type} [CommRing K] [LinearOrder K] (data src : MetricData K) :
    aggregate data src =
      { countSatisfied := data.countSatisfied + src.countSatisfied
        totalTolerated := data.totalTolerated + src.totalTolerated
        exclusiveFailed := data.exclusiveFailed + src.exclusiveFailed
        min := min data.min src.min
        max := max data.max src.max
        sumSquares := data.sumSquares + src.sumSquares } := by
  have hmin : (if src.min < data.min then src.min else data.min) = min data.min src.min := by
    split_ifs with h
    · exact (min_eq_right h.le).symm
    · exact (min_eq_left (not_lt.mp h)).symm
  have hmax : (if src.max > data.max then src.max else data.max) = max data.max src.max := by
    split_ifs with h
    · exact (max_eq_right (le_of_lt h)).symm
    · exact (max_eq_left (not_lt.mp h)).symm
  rw [← hmin, ← hmax]
  rfl

instance {K : Type} [CommRing K] [LinearOrder K] : LawfulAggregate (MetricData K) where
  comm := fun a b => by
    rw [aggregate_eq, aggregate_eq, min_comm, max_comm]
    simp only [add_comm]
  assoc := fun a b c => by
    simp only [aggregate_eq, min_assoc, max_assoc, add_assoc]

section Total

variable {D : Type} [Aggregate D]

/-- The aggregate of a list, if there is anything in it. -/
def total : List D → Option D
  | [] => none
  | d :: ds => some (ds.foldl aggregate d)

/-- What aggregating one more makes of a total. -/
def accumulate : Option D → D → D
  | none, d => d
  | some t, d => aggregate t d

theorem total_append_singleton (ds : List D) (d : D) :
    total (ds ++ [d]) = some (accumulate (total ds) d) := by
  cases ds with
  | nil => rfl
  | cons e ds => exact congrArg some (List.foldl_append ..)

theorem total_perm [LawfulAggregate D] {ds es : List D} (h : ds.Perm es) : total ds = total es := by
  have hright : ∀ a b c : D, aggregate (aggregate a b) c = aggregate (aggregate a c) b :=
    fun a b c => by
      rw [LawfulAggregate.assoc, LawfulAggregate.assoc, LawfulAggregate.comm b c]
  have : RightCommutative (aggregate : D → D → D) := ⟨hright⟩
  induction h with
  | nil => rfl
  | cons d h _ => exact congrArg some (h.foldl_eq d)
  | swap d e ds =>
      show some (ds.foldl aggregate (aggregate e d)) = some (ds.foldl aggregate (aggregate d e))
      rw [LawfulAggregate.comm]
  | trans _ _ ih ih' => exact ih.trans ih'

end Total

namespace MetricMaps

variable {D : Type}

/-! ### What merging a metric does -/

section Spec

variable [Aggregate D]

/-- There is neither the metric nor room for it. -/
def Drops (mt : MetricMaps D) (key : MetricKey) (m : Metric D) : Prop :=
  mt.find key = none ∧ mt.full = true ∧ m.forced = .unforced

instance (mt : MetricMaps D) (key : MetricKey) (m : Metric D) : Decidable (mt.Drops key m) :=
  inferInstanceAs (Decidable (_ ∧ _ ∧ _))

/-- The data of a metric. -/
def dataAt (mt : MetricMaps D) (key : MetricKey) : Option D := (mt.find key).map Metric.data

theorem mergeMetric_slice (mt : MetricMaps D) (nameSlice : Option Bytes)
    (nameString scope : Bytes) (m : Metric D) :
    mt.mergeMetric nameSlice nameString scope m =
      mt.mergeMetric none (nameSlice.getD nameString) scope m := by
  cases nameSlice <;> rfl

/-- A metric is dropped, or added, or aggregated into the one that is there. -/
theorem mergeMetric_eq (mt : MetricMaps D) (key : MetricKey) (m : Metric D) :
    mt.mergeMetric none key.1 key.2 m =
      match mt.find key with
      | none =>
          if mt.full = true ∧ m.forced = .unforced then { mt with numDropped := mt.numDropped + 1 }
          else { mt with metrics := NestedMap.put mt.metrics key m, count := mt.count + 1 }
      | some old =>
          { mt with
            metrics := NestedMap.put mt.metrics key
              { old with data := aggregate old.data m.data } } := by
  simp only [mergeMetric, find, NestedMap.find, NestedMap.put]
  cases hs : mt.metrics.lookup key.1 with
  | none => rfl
  | some s =>
      simp only [Option.bind_some]
      cases s.lookup key.2 <;> rfl

theorem mergeMetric_of_drops {mt : MetricMaps D} {key : MetricKey} {m : Metric D}
    (h : mt.Drops key m) :
    mt.mergeMetric none key.1 key.2 m = { mt with numDropped := mt.numDropped + 1 } := by
  obtain ⟨hnone, hfull⟩ := h
  simp only [mergeMetric_eq, hnone, if_pos hfull]

/-- What is not dropped is in the data of its metric, and changes no other. -/
theorem dataAt_mergeMetric {mt : MetricMaps D} {key : MetricKey} {m : Metric D}
    (h : ¬ mt.Drops key m) (key' : MetricKey) :
    (mt.mergeMetric none key.1 key.2 m).dataAt key' =
      if key' = key then some (accumulate (mt.dataAt key) m.data) else mt.dataAt key' := by
  rw [mergeMetric_eq]
  cases hfind : mt.find key with
  | none =>
      have hroom : ¬ (mt.full = true ∧ m.forced = .unforced) := fun hfull => h ⟨hfind, hfull⟩
      simp only [if_neg hroom, dataAt, find, NestedMap.find_put]
      rw [show NestedMap.find mt.metrics key = none from hfind]
      split <;> rfl
  | some old =>
      simp only [dataAt, find, NestedMap.find_put]
      rw [show NestedMap.find mt.metrics key = some old from hfind]
      split <;> rfl

theorem numDropped_mergeMetric (mt : MetricMaps D) (key : MetricKey) (m : Metric D) :
    (mt.mergeMetric none key.1 key.2 m).numDropped =
      mt.numDropped + if mt.Drops key m then 1 else 0 := by
  split
  · next h => rw [mergeMetric_of_drops h]
  · next h =>
      rw [mergeMetric_eq]
      cases hfind : mt.find key with
      | none =>
          have hroom : ¬ (mt.full = true ∧ m.forced = .unforced) := fun hfull => h ⟨hfind, hfull⟩
          simp only [if_neg hroom, add_zero]
      | some old => exact (add_zero _).symm

theorem maxTableSize_mergeMetric (mt : MetricMaps D) (key : MetricKey) (m : Metric D) :
    (mt.mergeMetric none key.1 key.2 m).maxTableSize = mt.maxTableSize := by
  rw [mergeMetric_eq]
  split
  · split <;> rfl
  · rfl

theorem count_mergeMetric {mt : MetricMaps D} (h : mt.count = mt.stored.length) (key : MetricKey)
    (m : Metric D) :
    (mt.mergeMetric none key.1 key.2 m).count =
      (mt.mergeMetric none key.1 key.2 m).stored.length := by
  rw [mergeMetric_eq]
  cases hfind : mt.find key with
  | none =>
      dsimp only
      split
      · exact h
      · have hperm := NestedMap.stored_put_of_none (m := mt.metrics) hfind m
        show mt.count + 1 = ((NestedMap.stored (NestedMap.put mt.metrics key m)).length : ℤ)
        rw [hperm.length_eq, List.length_cons, h]
        rfl
  | some old =>
      obtain ⟨rest, hbefore, hafter⟩ := NestedMap.stored_put_of_some (m := mt.metrics) hfind
        { old with data := aggregate old.data m.data }
      show mt.count = ((NestedMap.stored (NestedMap.put mt.metrics key _)).length : ℤ)
      rw [hafter.length_eq, h, stored, hbefore.length_eq]
      rfl

/-- Those of a list of metrics that are not dropped when they are merged. -/
def accepted (mt : MetricMaps D) : List (MetricKey × Metric D) → List (MetricKey × Metric D)
  | [] => []
  | entry :: entries =>
      (if mt.Drops entry.1 entry.2 then [] else [entry]) ++
        accepted (mt.mergeMetric none entry.1.1 entry.1.2 entry.2) entries

/-- The data of the metrics with a key. -/
def ownData (entries : List (MetricKey × Metric D)) (key : MetricKey) : List D :=
  (entries.filter (·.1 = key)).map fun entry => entry.2.data

omit [Aggregate D] in
theorem ownData_append (entries more : List (MetricKey × Metric D)) (key : MetricKey) :
    ownData (entries ++ more) key = ownData entries key ++ ownData more key := by
  rw [ownData, List.filter_append, List.map_append]
  rfl

omit [Aggregate D] in
theorem ownData_perm {entries entries' : List (MetricKey × Metric D)} (h : entries.Perm entries')
    (key : MetricKey) : (ownData entries key).Perm (ownData entries' key) :=
  (h.filter _).map _

theorem accepted_sublist (mt : MetricMaps D) (entries : List (MetricKey × Metric D)) :
    (mt.accepted entries).Sublist entries := by
  induction entries generalizing mt with
  | nil => exact List.Sublist.refl _
  | cons entry entries ih =>
      rw [accepted]
      split
      · exact (ih _).cons _
      · exact (ih _).cons_cons _

/-- A table into which the entries were merged. -/
structure Contains (mt : MetricMaps D) (entries : List (MetricKey × Metric D)) : Prop where
  count : mt.count = mt.stored.length
  data : ∀ key, mt.dataAt key = total (ownData entries key)

theorem new_contains (maxTableSize now : ℤ) : (new maxTableSize now : MetricMaps D).Contains [] where
  count := rfl
  data := fun _ => rfl

theorem Contains.mergeMetric {mt : MetricMaps D} {entries : List (MetricKey × Metric D)}
    (h : mt.Contains entries) (entry : MetricKey × Metric D) :
    (mt.mergeMetric none entry.1.1 entry.1.2 entry.2).Contains
      (entries ++ if mt.Drops entry.1 entry.2 then [] else [entry]) where
  count := count_mergeMetric h.count entry.1 entry.2
  data := by
    intro key
    split
    · next hdrops =>
        rw [mergeMetric_of_drops hdrops, List.append_nil]
        exact h.data key
    · next hdrops =>
        rw [dataAt_mergeMetric hdrops, ownData_append]
        split
        · next heq =>
            have hown : ownData [entry] key = [entry.2.data] := by simp [ownData, heq]
            rw [hown, total_append_singleton, h.data, heq]
        · next hne =>
            have hown : ownData [entry] key = [] := by simp [ownData, Ne.symm hne]
            rw [hown, List.append_nil, h.data]

/-- What is merged and not dropped is in the table, and the rest is counted. -/
theorem Contains.mergeAll {mt : MetricMaps D} {entries : List (MetricKey × Metric D)}
    (h : mt.Contains entries) (more : List (MetricKey × Metric D)) :
    (mt.mergeAll more).Contains (entries ++ mt.accepted more) ∧
      (mt.mergeAll more).numDropped =
        mt.numDropped + (more.length - (mt.accepted more).length : ℤ) ∧
      (mt.mergeAll more).maxTableSize = mt.maxTableSize := by
  induction more generalizing mt entries with
  | nil => exact ⟨by rwa [accepted, List.append_nil], by simp [MetricMaps.mergeAll, accepted], rfl⟩
  | cons entry more ih =>
      obtain ⟨hcontains, hdropped, hsize⟩ := ih (h.mergeMetric entry)
      rw [accepted, ← List.append_assoc]
      refine ⟨hcontains, ?_, hsize.trans (maxTableSize_mergeMetric mt entry.1 entry.2)⟩
      refine hdropped.trans ?_
      rw [numDropped_mergeMetric mt entry.1 entry.2]
      split
      · simp
        omega
      · simp

end Spec

/-! ### The text -/

section Texts

variable {K : Type} {floatText : K → Option Bytes}

/-- The text of a number that has one. -/
def numberText (floatText : K → Option Bytes) (x : K) : Bytes := (floatText x).getD []

/-- Every number of the metric has a text. -/
def IsFinite (floatText : K → Option Bytes) (m : Metric (MetricData K)) : Prop :=
  ∀ x ∈ collectorData m.data, (floatText x).isSome

/-- The element for one metric. -/
def metricText (floatText : K → Option Bytes) (entry : MetricKey × Metric (MetricData K)) : Bytes :=
  appendString ([lbracket, lbrace] ++ ascii "\"name\":") entry.1.1 ++
    (if entry.1.2 ≠ [] then appendString (ascii ",\"scope\":") entry.1.2 else []) ++
    [rbrace, comma, lbracket] ++
    commaJoin ((collectorData entry.2.data).map (numberText floatText)) ++ [rbracket, rbracket]

theorem appendFloats_eq (buf : Bytes) (a : List K) :
    appendFloats floatText buf a =
      if a.all fun x => (floatText x).isSome then
        some (buf ++ (a.map fun x => numberText floatText x ++ [comma]).flatten)
      else none := by
  induction a generalizing buf with
  | nil => simp [appendFloats]
  | cons x a ih =>
      rw [appendFloats]
      cases hx : floatText x with
      | none => simp [hx]
      | some text =>
          simp only [ih, List.all_cons, hx, Option.isSome_some, Bool.true_and, List.map_cons,
            List.flatten_cons, numberText, Option.getD_some, List.append_assoc]

theorem dropLast_commas (buf : Bytes) (texts : List Bytes) (h : texts ≠ []) :
    (buf ++ (texts.map (· ++ [comma])).flatten).dropLast = buf ++ commaJoin texts := by
  obtain ⟨init, last, rfl⟩ : ∃ init last, texts = init ++ [last] :=
    ⟨texts.dropLast, texts.getLast h, (List.dropLast_append_getLast h).symm⟩
  rw [commaJoin_concat, List.map_append, List.flatten_append, List.map_singleton,
    List.flatten_singleton, ← List.append_assoc, ← List.append_assoc, List.dropLast_concat,
    List.append_assoc]

theorem appendFloatArray_eq (buf : Bytes) {a : List K} (h : a ≠ []) :
    appendFloatArray floatText buf a =
      if a.all fun x => (floatText x).isSome then
        some (buf ++ [lbracket] ++ commaJoin (a.map (numberText floatText)) ++ [rbracket])
      else none := by
  have hpos : a.length > 0 := List.length_pos_of_ne_nil h
  rw [appendFloatArray, appendFloats_eq]
  simp only [hpos, if_true]
  split
  · have hdrop := dropLast_commas (buf ++ [lbracket]) (a.map (numberText floatText))
      (by simpa using h)
    rw [List.map_map] at hdrop
    exact congrArg (fun text => some (text ++ [rbracket])) hdrop
  · rfl

theorem appendString_append (buf more s : Bytes) :
    appendString (buf ++ more) s = buf ++ appendString more s := List.append_assoc ..

instance (m : Metric (MetricData K)) : Decidable (IsFinite floatText m) :=
  inferInstanceAs (Decidable (∀ x ∈ _, _))

theorem appendMetric_eq (buf : Bytes) (entry : MetricKey × Metric (MetricData K)) :
    appendMetric floatText buf entry =
      if IsFinite floatText entry.2 then some (buf ++ (metricText floatText entry ++ [comma]))
      else none := by
  have hall : (collectorData entry.2.data).all (fun x => (floatText x).isSome) = true ↔
      IsFinite floatText entry.2 := List.all_eq_true
  have hne : collectorData entry.2.data ≠ [] := List.cons_ne_nil _ _
  rw [appendMetric, appendFloatArray_eq _ hne]
  simp only [hall]
  split
  · rw [Option.map_some, metricText]
    split <;> simp only [appendString_append, List.append_assoc, List.cons_append, List.nil_append]
  · rfl

theorem appendMetrics_eq (buf : Bytes) (entries : List (MetricKey × Metric (MetricData K))) :
    appendMetrics floatText buf entries =
      if ∀ entry ∈ entries, IsFinite floatText entry.2 then
        some (buf ++ (entries.map fun entry => metricText floatText entry ++ [comma]).flatten)
      else none := by
  induction entries generalizing buf with
  | nil => simp [appendMetrics]
  | cons entry entries ih =>
      rw [appendMetrics, appendMetric_eq]
      simp only [List.forall_mem_cons]
      by_cases hentry : IsFinite floatText entry.2
      · simp only [ih, hentry, true_and, if_true, List.map_cons, List.flatten_cons,
          List.append_assoc]
      · simp only [hentry, false_and, if_false]

/-- The text before the metrics. -/
def textHead (mt : MetricMaps (MetricData K)) (id : Bytes) (now : ℤ) : Bytes :=
  appendInt (appendInt (appendString [lbracket] id ++ [comma]) mt.metricPeriodStart ++ [comma])
    now ++ [comma]

theorem collectorJSON_eq {mt : MetricMaps (MetricData K)} (h : mt.count = mt.stored.length)
    (order : NestedOrder Bytes Bytes) (id : Bytes) (now : ℤ) :
    mt.collectorJSON floatText order id now =
      if ∀ entry ∈ mt.stored, IsFinite floatText entry.2 then
        some (mt.textHead id now ++ [lbracket] ++
          commaJoin ((NestedMap.visited order mt.metrics).map (metricText floatText)) ++
          [rbracket, rbracket])
      else none := by
  have hperm := NestedMap.visited_perm order mt.metrics
  have hfinite : (∀ entry ∈ NestedMap.visited order mt.metrics, IsFinite floatText entry.2) ↔
      ∀ entry ∈ mt.stored, IsFinite floatText entry.2 :=
    forall_congr' fun entry => by rw [hperm.mem_iff, stored]
  have hcount : mt.count = (NestedMap.visited order mt.metrics).length := by
    rw [h, hperm.length_eq, stored]
  rw [collectorJSON]
  simp only [appendMetrics_eq, hfinite]
  by_cases hall : ∀ entry ∈ mt.stored, IsFinite floatText entry.2
  · rw [if_pos hall, if_pos hall, Option.map_some, hcount]
    show some ((if _ then List.dropLast (mt.textHead id now ++ [lbracket] ++ _)
      else mt.textHead id now ++ [lbracket] ++ _) ++ [rbracket] ++ [rbracket]) = _
    cases hvisited : NestedMap.visited order mt.metrics with
    | nil => simp [commaJoin]
    | cons entry entries =>
        have hdrop := dropLast_commas (mt.textHead id now ++ [lbracket])
          ((entry :: entries).map (metricText floatText)) (by simp)
        rw [List.map_map] at hdrop
        rw [if_pos (by simp), List.append_assoc _ [rbracket]]
        exact congrArg (fun text => some (text ++ [rbracket, rbracket])) hdrop
  · rw [if_neg hall, if_neg hall]
    rfl

end Texts

/-! ### Runs -/

section Runs

variable {K : Type} [CommRing K] [LinearOrder K]

inductive MetricCall (K : Type)
  | addRaw (nameSlice : Option Bytes) (nameString scope : Bytes) (data : MetricData K)
      (force : MetricForce)
  | addCount (name scope : Bytes) (count : K) (force : MetricForce)
  | addValue (name scope : Bytes) (value : K) (force : MetricForce)
  | merge (src : MetricMaps (MetricData K)) (order : NestedOrder Bytes Bytes)

def execCall (mt : MetricMaps (MetricData K)) : MetricCall K → MetricMaps (MetricData K)
  | .addRaw nameSlice nameString scope data force => mt.addRaw nameSlice nameString scope data force
  | .addCount name scope count force => mt.addCount name scope count force
  | .addValue name scope value force => mt.addValue name scope value force
  | .merge src order => mt.merge src order

/-- What a call brings, whatever the order in which it does. -/
def MetricCall.contents : MetricCall K → List (MetricKey × Metric (MetricData K))
  | .addRaw nameSlice nameString scope data force =>
      [((nameSlice.getD nameString, scope), ⟨force, data⟩)]
  | .addCount name scope count force => [((name, scope), ⟨force, countData count⟩)]
  | .addValue name scope value force => [((name, scope), ⟨force, valueData value⟩)]
  | .merge src _ => src.stored

/-- What a call brings, in the order in which it does. -/
def MetricCall.offered : MetricCall K → List (MetricKey × Metric (MetricData K))
  | .merge src order => NestedMap.visited order src.metrics
  | call => call.contents

theorem execCall_eq (mt : MetricMaps (MetricData K)) (call : MetricCall K) :
    execCall mt call = mt.mergeAll call.offered := by
  cases call with
  | addRaw nameSlice nameString scope data force => exact mergeMetric_slice ..
  | addCount => rfl
  | addValue => rfl
  | merge => rfl

theorem runFrom_eq (mt : MetricMaps (MetricData K)) (calls : List (MetricCall K)) :
    runFrom execCall mt calls = mt.mergeAll (calls.flatMap MetricCall.offered) := by
  induction calls generalizing mt with
  | nil => rfl
  | cons call calls ih =>
      rw [runFrom_cons, ih, execCall_eq, List.flatMap_cons, mergeAll, mergeAll, mergeAll,
        List.foldl_append]

omit [LinearOrder K] in
theorem offered_perm (call : MetricCall K) : call.offered.Perm call.contents := by
  cases call with
  | merge src order => exact NestedMap.visited_perm order src.metrics
  | addRaw | addCount | addValue => exact List.Perm.refl _

/-- A table of metrics conserves the data of all calls. The metrics that it
counts are those that it stores, with distinct names and scopes. What is added
or merged goes into the metric of its own name and scope or is counted as
dropped, and it is dropped only if it is not forced, the metric is not there
and there is no room. As long as nothing was dropped the data of a metric are
the aggregate of all that came with its name and scope, whatever the orders of
iteration. The text for the collector lists what is stored. -/
theorem metricMaps_conserve (floatText : K → Option Bytes) (maxTableSize now : ℤ)
    (calls : List (MetricCall K)) :
    let mt := runFrom execCall (new maxTableSize now) calls
    let offered := calls.flatMap MetricCall.offered
    let entered := accepted (new maxTableSize now) offered
    (mt.count = mt.stored.length ∧ (mt.stored.map Prod.fst).Nodup ∧
        (∀ key m, (key, m) ∈ mt.stored ↔ mt.find key = some m) ∧
        (mt.empty = true ↔ mt.stored = [])) ∧
      (∀ nameSlice nameString scope (m : Metric (MetricData K)),
        let key := (nameSlice.getD nameString, scope)
        let mt' := mt.mergeMetric nameSlice nameString scope m
        if mt.find key = none ∧ mt.count ≥ maxTableSize ∧ m.forced = .unforced then
          mt' = { mt with numDropped := mt.numDropped + 1 }
        else
          mt'.numDropped = mt.numDropped ∧ ∀ key', mt'.dataAt key' =
            if key' = key then some (accumulate (mt.dataAt key) m.data) else mt.dataAt key') ∧
      (entered.Sublist offered ∧ mt.numDropped = offered.length - entered.length ∧
        (∀ key, mt.dataAt key = total (ownData entered key)) ∧
        (mt.numDropped = 0 →
          ∀ key, mt.dataAt key = total (ownData (calls.flatMap MetricCall.contents) key))) ∧
      ∀ order id now', (NestedMap.visited order mt.metrics).Perm mt.stored ∧
        mt.collectorJSON floatText order id now' =
        if ∀ entry ∈ mt.stored, IsFinite floatText entry.2 then
          some (mt.textHead id now' ++ [lbracket] ++
            commaJoin ((NestedMap.visited order mt.metrics).map (metricText floatText)) ++
            [rbracket, rbracket])
        else none := by
  intro mt offered entered
  have hrun : mt = (new maxTableSize now).mergeAll offered := runFrom_eq _ calls
  obtain ⟨hcontains, hdropped, hsize⟩ := (new_contains maxTableSize now).mergeAll offered
  rw [← hrun, List.nil_append] at hcontains
  rw [← hrun] at hdropped hsize
  have hdropped' : mt.numDropped = offered.length - entered.length := by
    rw [hdropped]
    exact zero_add _
  refine ⟨⟨hcontains.count, NestedMap.nodup_stored mt.metrics, fun key m => NestedMap.mem_stored,
    ?_⟩, fun nameSlice nameString scope m => ?_, ⟨accepted_sublist _ _, hdropped', hcontains.data,
    fun hzero key => ?_⟩, fun order id now' => ⟨NestedMap.visited_perm order mt.metrics,
      collectorJSON_eq hcontains.count order id now'⟩⟩
  · rw [empty, decide_eq_true_iff, hcontains.count]
    constructor
    · intro hlength
      exact List.length_eq_zero_iff.mp (by omega)
    · intro hnil
      rw [hnil]
      rfl
  · have hdrops : mt.Drops (nameSlice.getD nameString, scope) m ↔
        mt.find (nameSlice.getD nameString, scope) = none ∧ mt.count ≥ maxTableSize ∧
          m.forced = .unforced := by
      rw [Drops, full, decide_eq_true_iff, hsize]
      rfl
    rw [mergeMetric_slice]
    dsimp only
    split
    · next hdrop => exact mergeMetric_of_drops (hdrops.mpr hdrop)
    · next hkeep =>
        have hnot : ¬ mt.Drops (nameSlice.getD nameString, scope) m := fun h => hkeep (hdrops.mp h)
        refine ⟨?_, dataAt_mergeMetric hnot⟩
        rw [numDropped_mergeMetric mt (nameSlice.getD nameString, scope) m, if_neg hnot, add_zero]
  · -- nothing was left out, so what was entered is what was offered
    have hlength : entered.length = offered.length := by omega
    have hall : entered = offered := (accepted_sublist _ _).eq_of_length hlength
    have hperm : offered.Perm (calls.flatMap MetricCall.contents) :=
      List.Perm.flatMap_left _ fun call _ => offered_perm call
    rw [hcontains.data]
    show total (ownData entered key) = _
    rw [hall]
    exact total_perm (ownData_perm hperm key)

end Runs

/-! ### One map instead of two levels

Elsewhere the table is one map by pairs of strings. It is what the nested maps
are for the names that are UTF-8. -/

def utf8 (s : String) : Bytes := s.toByteArray.data.toList

theorem utf8_inj {s t : String} (h : utf8 s = utf8 t) : s = t :=
  String.toByteArray_inj.mp (ByteArray.ext (Array.toList_inj.mp h))

/-- The name and the scope as sequences of bytes. -/
def keyOf (id : MetricID) : MetricKey := (utf8 id.name, utf8 id.scope)

theorem keyOf_inj {id id' : MetricID} (h : keyOf id = keyOf id') : id = id' := by
  obtain ⟨hname, hscope⟩ := Prod.mk.inj h
  cases id
  cases id'
  rw [MetricID.mk.injEq]
  exact ⟨utf8_inj hname, utf8_inj hscope⟩

structure Refines (maps : MetricMaps D) (table : MetricTable D) : Prop where
  size : maps.maxTableSize = table.maxTableSize
  count : maps.count = table.count
  dropped : maps.numDropped = table.numDropped
  find : ∀ id, maps.find (keyOf id) = table.metrics.lookup id

theorem refines_new (maxTableSize : ℕ) (now now' : ℤ) :
    (new maxTableSize now : MetricMaps D).Refines (newMetricTable maxTableSize now') :=
  ⟨rfl, rfl, rfl, fun _ => rfl⟩

section Refinement

variable [Aggregate D] {maps : MetricMaps D} {table : MetricTable D}

omit [Aggregate D] in
theorem Refines.full (h : maps.Refines table) : maps.full = table.full := by
  rw [MetricMaps.full, MetricTable.full, h.count, h.size]
  simp

omit [Aggregate D] in
theorem Refines.find_put (h : maps.Refines table) (id id' : MetricID) (m : Metric D) :
    NestedMap.find (NestedMap.put maps.metrics (keyOf id) m) (keyOf id') =
      (table.metrics.insert id m).lookup id' := by
  rw [NestedMap.find_put]
  split
  · next heq => rw [keyOf_inj heq, AList.lookup_insert]
  · next hne =>
      rw [AList.lookup_insert_ne fun heq => hne (congrArg keyOf heq)]
      exact h.find id'

theorem Refines.mergeMetric (h : maps.Refines table) (id : MetricID) (m : Metric D) :
    (maps.mergeMetric none (keyOf id).1 (keyOf id).2 m).Refines (table.mergeMetric id m) := by
  have hmaps := mergeMetric_eq maps (keyOf id) m
  rw [h.find id] at hmaps
  cases hlookup : table.metrics.lookup id with
  | none =>
      rw [hlookup] at hmaps
      have hfull : (table.full && decide (m.forced = .unforced)) = true ↔
          maps.full = true ∧ m.forced = .unforced := by
        rw [Bool.and_eq_true, decide_eq_true_iff, h.full]
      rw [MetricTable.mergeMetric_of_none hlookup, hmaps]
      simp only [hfull]
      split
      · exact ⟨h.size, h.count, by simp [h.dropped], h.find⟩
      · exact ⟨h.size, by simp [h.count], h.dropped, fun id' => h.find_put id id' m⟩
  | some old =>
      rw [hlookup] at hmaps
      rw [MetricTable.mergeMetric_of_some hlookup, hmaps]
      exact ⟨h.size, h.count, h.dropped, fun id' => h.find_put id id' _⟩

/-- The same metrics added to both. -/
theorem refines_addAll (h : maps.Refines table) (rs : List (MetricID × Metric D)) :
    (maps.mergeAll (rs.map fun r => (keyOf r.1, r.2))).Refines (table.addAll rs) := by
  induction rs generalizing maps table with
  | nil => exact h
  | cons r rs ih => exact ih (h.mergeMetric r.1 r.2)

/-- The second metric does not fit. -/
theorem refines_addAll_two :
    let metrics : List (MetricID × Metric (MetricData ℤ)) :=
      [(⟨"a", ""⟩, ⟨.unforced, ⟨1, 2, 3, 4, 5, 6⟩⟩), (⟨"b", ""⟩, ⟨.unforced, ⟨1, 2, 3, 4, 5, 6⟩⟩)]
    ((new 1 0).mergeAll (metrics.map fun r => (keyOf r.1, r.2))).Refines
      ((newMetricTable 1 0).addAll metrics) :=
  refines_addAll (refines_new 1 0 0) _

end Refinement

end MetricMaps

end AxiomDaemon.Daemon

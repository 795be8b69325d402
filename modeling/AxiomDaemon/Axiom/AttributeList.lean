import AxiomDaemon.Axiom.Attributes
import AxiomDaemon.Axiom.TxnNaming
import AxiomDaemon.Util.ObjectArray

/-!
The attributes of a transaction, `nr_attributes.c`: two lists, of which the one of the
user's attributes is limited.

An attribute is found by its key, whose hash is compared first. An add that replaces an
attribute removes it before it asks for the limit, and puts the new one at the front.
Lengths are taken to be numbers without bound.
-/

namespace AxiomDaemon.Axiom

open AxiomDaemon.Lib AxiomDaemon.Util

/-! ### The lists -/

/-- `NR_ATTRIBUTE_KEY_LENGTH_LIMIT`. -/
def nrAttributeKeyLengthLimit : ℕ := 255

/-- `NR_ATTRIBUTE_VALUE_LENGTH_LIMIT`. -/
def nrAttributeValueLengthLimit : ℕ := 255

/-- `NR_ATTRIBUTE_USER_LIMIT`. -/
def nrAttributeUserLimit : ℕ := 64

/-- `nr_attribute_t`, without the link. -/
structure NrAttribute where
  destinations : Destinations
  keyHash : UInt32
  key : CString
  value : Option NrObj
  keyHash_eq : keyHash = nrMkhash key

/-- `nr_attributes_t`. -/
structure NrAttributes where
  config : Option NrAttributeConfig
  numUserAttributes : ℤ
  userAttributeList : List NrAttribute
  agentAttributeList : List NrAttribute

/-- `nr_attributes_create`. -/
def nrAttributesCreate (config : Option NrAttributeConfig) : NrAttributes where
  config := config
  numUserAttributes := 0
  userAttributeList := []
  agentAttributeList := []

/-- One of the two lists. -/
def NrAttributes.list (ats : NrAttributes) (isUser : Bool) : List NrAttribute :=
  if isUser then ats.userAttributeList else ats.agentAttributeList

/-- The loop of `nr_attributes_remove_duplicate`: what is left, and whether an attribute
was removed. -/
def removeDuplicateLoop (key : CString) (keyHash : UInt32) :
    List NrAttribute → List NrAttribute × Bool
  | [] => ([], false)
  | attr :: next =>
      if keyHash = attr.keyHash ∧ nrStrcmp key attr.key = .eq then (next, true)
      else
        let (next, removed) := removeDuplicateLoop key keyHash next
        (attr :: next, removed)

/-- `nr_attributes_remove_duplicate`. -/
def nrAttributesRemoveDuplicate (ats : NrAttributes) (key : CString) (keyHash : UInt32)
    (isUser : Bool) : NrAttributes :=
  if isUser then
    let (next, removed) := removeDuplicateLoop key keyHash ats.userAttributeList
    { ats with
      userAttributeList := next
      numUserAttributes :=
        if removed then ats.numUserAttributes - 1 else ats.numUserAttributes }
  else
    { ats with
      agentAttributeList := (removeDuplicateLoop key keyHash ats.agentAttributeList).1 }

/-- `nr_attributes_is_valid_value`. -/
def nrAttributesIsValidValue : Option NrObj → Bool
  | none => false
  | some (.double dbl) => dbl.isFinite
  | some .none => true
  | some (.boolean _) => true
  | some (.int _) => true
  | some (.long _) => true
  | some (.string _) => true
  | some (.jstring _) => false
  | some (.hash _) => false
  | some (.array _) => false

/-- `nr_attributes_add_internal`. -/
def nrAttributesAddInternal (ats : NrAttributes) (defaultDestinations : Destinations)
    (isUser : Bool) (key : Option CString) (value : Option NrObj) : NrAttributes × NrStatus :=
  match key with
  | none => (ats, .failure)
  | some key =>
      if key.1 = [] then (ats, .failure)
      else if !nrAttributesIsValidValue value then (ats, .failure)
      else if nrAttributeKeyLengthLimit < key.1.length then (ats, .failure)
      else
        let finalDestinations :=
          nrAttributeConfigApply ats.config (some key) (nrMkhash key) defaultDestinations
        if finalDestinations = 0 then (ats, .failure)
        else
          let ats := nrAttributesRemoveDuplicate ats key (nrMkhash key) isUser
          if isUser ∧ ats.numUserAttributes = nrAttributeUserLimit then (ats, .failure)
          else
            let attr : NrAttribute :=
              { destinations := finalDestinations
                keyHash := nrMkhash key
                key := key
                value := value.map nroCopy
                keyHash_eq := rfl }
            if isUser then
              ({ ats with
                  numUserAttributes := ats.numUserAttributes + 1
                  userAttributeList := attr :: ats.userAttributeList }, .success)
            else
              ({ ats with agentAttributeList := attr :: ats.agentAttributeList }, .success)

/-- A string as `snprintf` writes it into a buffer of `NR_ATTRIBUTE_VALUE_LENGTH_LIMIT` and
one bytes, and anything else as it is. -/
def boundedValue : Option NrObj → Option NrObj
  | some (.string str) => some (.string ((cString str).take nrAttributeValueLengthLimit))
  | value => value

/-- `nr_attributes_add`, which every function that adds an attribute calls. -/
def nrAttributesAdd (ats : NrAttributes) (defaultDestinations : Destinations) (isUser : Bool)
    (key : Option CString) (value : Option NrObj) : NrAttributes × NrStatus :=
  nrAttributesAddInternal ats defaultDestinations isUser key (boundedValue value)

/-! ### The lists by their keys -/

theorem nrStrcmp_eq_iff {s1 s2 : CString} : nrStrcmp s1 s2 = .eq ↔ s1 = s2 := by
  rw [nrStrcmp, Std.LawfulEqOrd.compare_eq_iff_eq, Subtype.ext_iff]

/-- Hash and text tell an attribute from others as its key alone does. -/
theorem sameKey_iff {key : CString} {attr : NrAttribute} :
    nrMkhash key = attr.keyHash ∧ nrStrcmp key attr.key = .eq ↔ attr.key = key := by
  rw [nrStrcmp_eq_iff, attr.keyHash_eq]
  constructor
  · rintro ⟨-, rfl⟩
    rfl
  · rintro rfl
    exact ⟨rfl, rfl⟩

theorem removeDuplicateLoop_eq (key : CString) (attributes : List NrAttribute) :
    removeDuplicateLoop key (nrMkhash key) attributes =
      (attributes.eraseP (·.key = key), attributes.any (·.key = key)) := by
  induction attributes with
  | nil => rfl
  | cons attr next ih =>
      rw [removeDuplicateLoop, ih, List.any_cons]
      by_cases hkey : attr.key = key
      · rw [if_pos (sameKey_iff.mpr hkey), List.eraseP_cons_of_pos (by simpa using hkey)]
        simp [hkey]
      · rw [if_neg (fun h => hkey (sameKey_iff.mp h)),
          List.eraseP_cons_of_neg (by simpa using hkey)]
        simp [hkey]

section UniqueKeys

variable {α κ : Type*} [DecidableEq κ] (keyOf : α → κ)

theorem find?_eraseP_of_ne {key key' : κ} (hne : key' ≠ key) (entries : List α) :
    (entries.eraseP (keyOf · = key)).find? (keyOf · = key') =
      entries.find? (keyOf · = key') := by
  induction entries with
  | nil => rfl
  | cons entry entries ih =>
      by_cases hkey : keyOf entry = key
      · rw [List.eraseP_cons_of_pos (by simpa using hkey), List.find?_cons_of_neg]
        simpa [hkey] using hne.symm
      · rw [List.eraseP_cons_of_neg (by simpa using hkey)]
        by_cases hkey' : keyOf entry = key'
        · rw [List.find?_cons_of_pos (by simpa using hkey'),
            List.find?_cons_of_pos (by simpa using hkey')]
        · rw [List.find?_cons_of_neg (by simpa using hkey'),
            List.find?_cons_of_neg (by simpa using hkey'), ih]

theorem notMem_map_eraseP {entries : List α} (hnodup : (entries.map keyOf).Nodup) (key : κ) :
    key ∉ (entries.eraseP (keyOf · = key)).map keyOf := by
  induction entries with
  | nil => simp
  | cons entry entries ih =>
      rw [List.map_cons, List.nodup_cons] at hnodup
      by_cases hkey : keyOf entry = key
      · rw [List.eraseP_cons_of_pos (by simpa using hkey), ← hkey]
        exact hnodup.1
      · rw [List.eraseP_cons_of_neg (by simpa using hkey), List.map_cons, List.mem_cons, not_or]
        exact ⟨fun h => hkey h.symm, ih hnodup.2⟩

/-- An entry at the front takes the place of the entry of its key. -/
theorem nodup_cons_eraseP {entries : List α} (hnodup : (entries.map keyOf).Nodup) (entry : α) :
    ((entry :: entries.eraseP (keyOf · = keyOf entry)).map keyOf).Nodup := by
  rw [List.map_cons, List.nodup_cons]
  refine ⟨notMem_map_eraseP keyOf hnodup (keyOf entry), ?_⟩
  exact hnodup.sublist (List.eraseP_sublist.map keyOf)

end UniqueKeys

/-! ### What an add does -/

/-- What holds of the lists between two adds. -/
structure NrAttributes.WellFormed (ats : NrAttributes) : Prop where
  count : ats.numUserAttributes = ats.userAttributeList.length
  limit : ats.userAttributeList.length ≤ nrAttributeUserLimit
  nodup : ∀ isUser, ((ats.list isUser).map NrAttribute.key).Nodup

/-- The lists with an attribute in the place of the one of its key. -/
def NrAttributes.replaced (ats : NrAttributes) (isUser : Bool) (attr : NrAttribute) :
    NrAttributes :=
  if isUser then
    { ats with
      numUserAttributes :=
        ((ats.userAttributeList.eraseP (·.key = attr.key)).length + 1 : ℕ)
      userAttributeList := attr :: ats.userAttributeList.eraseP (·.key = attr.key) }
  else
    { ats with
      agentAttributeList := attr :: ats.agentAttributeList.eraseP (·.key = attr.key) }

@[simp] theorem NrAttributes.config_replaced (ats : NrAttributes) (isUser : Bool)
    (attr : NrAttribute) : (ats.replaced isUser attr).config = ats.config := by
  cases isUser <;> rfl

theorem NrAttributes.list_replaced (ats : NrAttributes) (isUser kind : Bool)
    (attr : NrAttribute) :
    (ats.replaced isUser attr).list kind =
      if kind = isUser then attr :: (ats.list isUser).eraseP (·.key = attr.key)
      else ats.list kind := by
  cases isUser <;> cases kind <;> rfl

/-- Removing a duplicate counts it, and what the limit is compared with is the number of
the attributes that are left. -/
theorem nrAttributesRemoveDuplicate_user {ats : NrAttributes} (h : ats.WellFormed)
    (key : CString) :
    nrAttributesRemoveDuplicate ats key (nrMkhash key) true =
      { ats with
        numUserAttributes := (ats.userAttributeList.eraseP (·.key = key)).length
        userAttributeList := ats.userAttributeList.eraseP (·.key = key) } := by
  rw [nrAttributesRemoveDuplicate, if_pos rfl, removeDuplicateLoop_eq]
  have hlength : (ats.userAttributeList.eraseP (·.key = key)).length =
      if ats.userAttributeList.any (·.key = key) then ats.userAttributeList.length - 1
      else ats.userAttributeList.length := List.length_eraseP
  by_cases hany : ats.userAttributeList.any (·.key = key) = true
  · -- an attribute that was found makes the list nonempty
    have hpos : 0 < ats.userAttributeList.length := by
      obtain ⟨attr, hattr, -⟩ := List.any_eq_true.mp hany
      exact List.length_pos_of_mem hattr
    rw [if_pos hany] at hlength
    simp only [hany, if_true, hlength, h.count]
    congr 1
    omega
  · rw [if_neg hany] at hlength
    simp only [hany, Bool.false_eq_true, if_false, hlength, h.count]

/-- What an internal add does: it fails and changes nothing, or it succeeds and the
attribute takes its place. -/
theorem nrAttributesAddInternal_cases {ats : NrAttributes} (h : ats.WellFormed)
    (defaultDestinations : Destinations) (isUser : Bool) (key : Option CString)
    (value : Option NrObj) :
    nrAttributesAddInternal ats defaultDestinations isUser key value = (ats, .failure) ∨
      ∃ attr : NrAttribute, key = some attr.key ∧ attr.value = value ∧
        attr.destinations = nrAttributeConfigApply ats.config (some attr.key)
          (nrMkhash attr.key) defaultDestinations ∧
        (isUser → (ats.userAttributeList.eraseP (·.key = attr.key)).length <
          nrAttributeUserLimit) ∧
        nrAttributesAddInternal ats defaultDestinations isUser key value =
          (ats.replaced isUser attr, .success) := by
  cases key with
  | none => exact .inl rfl
  | some key =>
      unfold nrAttributesAddInternal
      dsimp only
      -- the four refusals before the duplicate is removed
      refine dite (key.1 = []) (fun hempty => .inl (if_pos hempty)) fun hempty => ?_
      rw [if_neg hempty]
      refine dite ((!nrAttributesIsValidValue value) = true)
        (fun hvalid => .inl (if_pos hvalid)) fun hvalid => ?_
      rw [if_neg hvalid]
      refine dite (nrAttributeKeyLengthLimit < key.1.length)
        (fun hlong => .inl (if_pos hlong)) fun hlong => ?_
      rw [if_neg hlong]
      refine dite (nrAttributeConfigApply ats.config (some key) (nrMkhash key)
        defaultDestinations = 0) (fun hzero => .inl (if_pos hzero)) fun hzero => ?_
      rw [if_neg hzero]
      have hcopy : value.map nroCopy = value := by
        cases value with
        | none => rfl
        | some value => rw [Option.map_some, nroCopy_eq]
      rw [hcopy]
      let attr : NrAttribute :=
        { destinations :=
            nrAttributeConfigApply ats.config (some key) (nrMkhash key) defaultDestinations
          keyHash := nrMkhash key
          key := key
          value := value
          keyHash_eq := rfl }
      cases isUser with
      | false =>
          refine .inr ⟨attr, rfl, rfl, rfl, fun h => absurd h Bool.false_ne_true, ?_⟩
          rw [nrAttributesRemoveDuplicate, if_neg Bool.false_ne_true, removeDuplicateLoop_eq]
          rfl
      | true =>
          rw [nrAttributesRemoveDuplicate_user h]
          have hsublist := List.eraseP_sublist (p := (·.key = key)) (l := ats.userAttributeList)
          have hle := hsublist.length_le.trans h.limit
          by_cases hfull : (ats.userAttributeList.eraseP (·.key = key)).length =
              nrAttributeUserLimit
          · -- the limit is reached without the duplicate, so there was none
            left
            rw [if_pos ⟨rfl, congrArg Nat.cast hfull⟩,
              hsublist.eq_of_length_le (hfull.symm ▸ h.limit), ← h.count]
          · right
            refine ⟨attr, rfl, rfl, rfl, fun _ => lt_of_le_of_ne hle hfull, ?_⟩
            rw [if_neg (fun hlimit => hfull (Int.ofNat_inj.mp hlimit.2)), if_pos rfl]
            rfl

theorem NrAttributes.WellFormed.replaced {ats : NrAttributes} (h : ats.WellFormed) (isUser : Bool)
    (attr : NrAttribute)
    (hlimit : isUser → (ats.userAttributeList.eraseP (·.key = attr.key)).length <
      nrAttributeUserLimit) : (ats.replaced isUser attr).WellFormed where
  count := by
    cases isUser with
    | false => exact h.count
    | true => rfl
  limit := by
    cases isUser with
    | false => exact h.limit
    | true => exact hlimit rfl
  nodup kind := by
    rw [NrAttributes.list_replaced]
    split
    · exact nodup_cons_eraseP NrAttribute.key (h.nodup isUser) attr
    · exact h.nodup kind

/-! ### Sequences of adds -/

/-- A call that adds an attribute. -/
structure AttributeAdd where
  isUser : Bool
  defaultDestinations : Destinations
  key : Option CString
  value : Option NrObj

/-- What a key maps to in one of the lists: a value and its destinations. -/
def NrAttributes.lookup (ats : NrAttributes) (isUser : Bool) (key : CString) :
    Option (Option NrObj × Destinations) :=
  ((ats.list isUser).find? (·.key = key)).map fun attr => (attr.value, attr.destinations)

/-- The attributes, and the calls that led to them with what they returned, the last one
first. -/
structure AttributeRun where
  attributes : NrAttributes
  log : List (AttributeAdd × NrStatus)

def execAdd (run : AttributeRun) (add : AttributeAdd) : AttributeRun :=
  let (attributes, status) := nrAttributesAddInternal run.attributes add.defaultDestinations
    add.isUser add.key add.value
  { attributes := attributes, log := (add, status) :: run.log }

/-- The attributes after a sequence of internal adds. -/
def addAttributes (config : Option NrAttributeConfig) (adds : List AttributeAdd) : AttributeRun :=
  runFrom execAdd { attributes := nrAttributesCreate config, log := [] } adds

/-- What the last successful add of a key asked for, with the destinations that the
configuration gives. -/
def lastSuccessful (config : Option NrAttributeConfig) (log : List (AttributeAdd × NrStatus))
    (isUser : Bool) (key : CString) : Option (Option NrObj × Destinations) :=
  (log.find? fun (add, status) =>
      status = .success ∧ add.isUser = isUser ∧ add.key = some key).map fun (add, _) =>
    (add.value,
      nrAttributeConfigApply config (some key) (nrMkhash key) add.defaultDestinations)

/-- What holds after every sequence of adds. -/
structure AttributeRun.Valid (config : Option NrAttributeConfig) (run : AttributeRun) :
    Prop where
  config_eq : run.attributes.config = config
  wellFormed : run.attributes.WellFormed
  lookup_eq : ∀ isUser key,
    run.attributes.lookup isUser key = lastSuccessful config run.log isUser key

theorem NrAttributes.lookup_replaced (ats : NrAttributes) (isUser kind : Bool)
    (attr : NrAttribute) (key : CString) :
    (ats.replaced isUser attr).lookup kind key =
      if kind = isUser ∧ attr.key = key then some (attr.value, attr.destinations)
      else ats.lookup kind key := by
  unfold NrAttributes.lookup
  rw [NrAttributes.list_replaced]
  by_cases hkind : kind = isUser
  · rw [if_pos hkind]
    by_cases hkey : attr.key = key
    · rw [if_pos ⟨hkind, hkey⟩, List.find?_cons_of_pos (by simpa using hkey)]
      rfl
    · rw [if_neg (fun h => hkey h.2), List.find?_cons_of_neg (by simpa using hkey),
        find?_eraseP_of_ne NrAttribute.key (fun h => hkey h.symm), hkind]
  · rw [if_neg hkind, if_neg (fun h => hkind h.1)]

theorem lastSuccessful_cons (config : Option NrAttributeConfig) (add : AttributeAdd)
    (status : NrStatus) (log : List (AttributeAdd × NrStatus)) (isUser : Bool)
    (key : CString) :
    lastSuccessful config ((add, status) :: log) isUser key =
      if status = .success ∧ add.isUser = isUser ∧ add.key = some key then
        some (add.value,
          nrAttributeConfigApply config (some key) (nrMkhash key) add.defaultDestinations)
      else lastSuccessful config log isUser key := by
  unfold lastSuccessful
  by_cases h : status = .success ∧ add.isUser = isUser ∧ add.key = some key
  · rw [if_pos h, List.find?_cons_of_pos (by simpa using h)]
    rfl
  · rw [if_neg h, List.find?_cons_of_neg (by simpa using h)]

theorem AttributeRun.Valid.execAdd {config : Option NrAttributeConfig} {run : AttributeRun}
    (h : run.Valid config) (add : AttributeAdd) : (execAdd run add).Valid config := by
  obtain hfail | ⟨attr, hkey, hvalue, hdestinations, hlimit, hsuccess⟩ :=
    nrAttributesAddInternal_cases h.wellFormed add.defaultDestinations add.isUser add.key
      add.value
  · unfold Axiom.execAdd
    rw [hfail]
    refine ⟨h.config_eq, h.wellFormed, fun isUser key => ?_⟩
    rw [lastSuccessful_cons, if_neg (fun hstatus => NrStatus.noConfusion hstatus.1)]
    exact h.lookup_eq isUser key
  · unfold Axiom.execAdd
    rw [hsuccess]
    refine ⟨?_, h.wellFormed.replaced add.isUser attr hlimit, fun isUser key => ?_⟩
    · rw [NrAttributes.config_replaced]
      exact h.config_eq
    · rw [NrAttributes.lookup_replaced, lastSuccessful_cons, h.lookup_eq, hkey]
      by_cases hsame : isUser = add.isUser ∧ attr.key = key
      · obtain ⟨huser, rfl⟩ := hsame
        rw [if_pos ⟨huser, rfl⟩, if_pos ⟨rfl, huser.symm, rfl⟩, hvalue, hdestinations,
          h.config_eq]
      · rw [if_neg hsame, if_neg]
        rintro ⟨-, huser, hkey⟩
        exact hsame ⟨huser.symm, Option.some.inj hkey⟩

theorem addAttributes_valid (config : Option NrAttributeConfig) (adds : List AttributeAdd) :
    (addAttributes config adds).Valid config := by
  have hstart : AttributeRun.Valid config
      { attributes := nrAttributesCreate config, log := [] } := by
    refine ⟨rfl, ⟨rfl, Nat.zero_le _, fun isUser => ?_⟩, fun isUser key => ?_⟩
    · cases isUser <;> exact List.nodup_nil
    · cases isUser <;> rfl
  have hthroughout : Throughout execAdd (AttributeRun.Valid config)
      { attributes := nrAttributesCreate config, log := [] } adds :=
    throughout_of_along (fun _ add h _ => h.execAdd add) hstart (along_true _ _)
  exact hthroughout.last

theorem addAttributes_log (config : Option NrAttributeConfig) (adds : List AttributeAdd) :
    (addAttributes config adds).log.map Prod.fst = adds.reverse := by
  have hrun : ∀ run : AttributeRun, (runFrom execAdd run adds).log.map Prod.fst =
      adds.reverse ++ run.log.map Prod.fst := by
    induction adds with
    | nil => exact fun _ => rfl
    | cons add adds ih =>
        intro run
        rw [runFrom_cons, ih, List.reverse_cons, List.append_assoc]
        rfl
  exact (hrun _).trans (List.append_nil _)

theorem nrAttributesAddInternal_failure {ats : NrAttributes} (h : ats.WellFormed)
    (add : AttributeAdd)
    (hfailure : (nrAttributesAddInternal ats add.defaultDestinations add.isUser add.key
      add.value).2 = .failure) :
    (nrAttributesAddInternal ats add.defaultDestinations add.isUser add.key add.value).1 =
      ats := by
  obtain hfail | ⟨attr, -, -, -, -, hsuccess⟩ :=
    nrAttributesAddInternal_cases h add.defaultDestinations add.isUser add.key add.value
  · rw [hfail]
  · rw [hsuccess] at hfailure
    cases hfailure

/-- The internal add that an add makes. -/
def AttributeAdd.bounded (add : AttributeAdd) : AttributeAdd :=
  { add with value := boundedValue add.value }

/-- The attributes after a sequence of adds as the agent makes them. -/
def addAttributesBounded (config : Option NrAttributeConfig) (adds : List AttributeAdd) :
    NrAttributes :=
  runFrom
    (fun ats add =>
      (nrAttributesAdd ats add.defaultDestinations add.isUser add.key add.value).1)
    (nrAttributesCreate config) adds

theorem addAttributesBounded_eq (config : Option NrAttributeConfig) (adds : List AttributeAdd) :
    addAttributesBounded config adds =
      (addAttributes config (adds.map AttributeAdd.bounded)).attributes := by
  have hrun : ∀ run : AttributeRun,
      runFrom (fun ats (add : AttributeAdd) =>
          (nrAttributesAdd ats add.defaultDestinations add.isUser add.key add.value).1)
        run.attributes adds =
        (runFrom execAdd run (adds.map AttributeAdd.bounded)).attributes := by
    induction adds with
    | nil => exact fun _ => rfl
    | cons add adds ih => exact fun run => ih (execAdd run add.bounded)
  exact hrun { attributes := nrAttributesCreate config, log := [] }

end AxiomDaemon.Axiom

import AxiomDaemon.Lib.Precedence
import AxiomDaemon.Lib.Transition
import AxiomDaemon.Util.StringPool

/-!
The configuration of the destinations of attributes, `nr_attributes.c`.

A rule names the attributes it is about by their key, or by a prefix of it that a star
follows, and adds destinations to these attributes or takes some from them. The rules
are kept in a sorted list, rules for the same text are merged, and the list is applied
from its beginning to its end.

Lengths are taken to be numbers without bound. Without a configuration the calls that
change it do nothing, so they have one here.
-/

namespace AxiomDaemon.Axiom

open AxiomDaemon.Lib AxiomDaemon.Util

/-! ### The configuration -/

/-- A set of destinations, one bit for each. -/
abbrev Destinations := BitVec 32

/-- `*`. -/
def asterisk : UInt8 := 42

/-- `nr_strcmp`, of strings that are not `NULL`. -/
def nrStrcmp (s1 s2 : CString) : Ordering := compare s1.1 s2.1

/-- `nr_strncmp`, of strings that are not `NULL`. -/
def nrStrncmp (s1 s2 : CString) (n : ℕ) : Ordering := compare (s1.1.take n) (s2.1.take n)

/-- `nr_strndup`. -/
def nrStrndup (orig : CString) (len : ℕ) : CString :=
  ⟨orig.1.take len, fun h => orig.2 (List.mem_of_mem_take h)⟩

/-- `nr_attribute_destination_modifier_t`, without the link. `match` does not have the
star. -/
structure NrAttributeDestinationModifier where
  hasWildcardSuffix : Bool
  match_ : CString
  matchLen : ℕ
  matchHash : UInt32
  includeDestinations : Destinations
  excludeDestinations : Destinations
  matchLen_eq : matchLen = match_.1.length
  matchHash_eq : matchHash = nrMkhash match_

/-- `nr_attribute_config_t`. -/
structure NrAttributeConfig where
  disabledDestinations : Destinations
  modifierList : List NrAttributeDestinationModifier

/-- `nr_attribute_config_create`. -/
def nrAttributeConfigCreate : NrAttributeConfig where
  disabledDestinations := 0
  modifierList := []

/-- `nr_attribute_config_disable_destinations`. -/
def nrAttributeConfigDisableDestinations (config : NrAttributeConfig)
    (disabledDestinations : Destinations) : NrAttributeConfig :=
  { config with
    disabledDestinations := config.disabledDestinations ||| disabledDestinations }

/-- `nr_attribute_destination_modifier_create`. The source reads the byte before an empty
text; it is taken not to be a star. -/
def nrAttributeDestinationModifierCreate (match_ : CString)
    (includeDestinations excludeDestinations : Destinations) : NrAttributeDestinationModifier :=
  let hasWildcardSuffix := match_.1.getLast? = some asterisk
  let matchLen := if hasWildcardSuffix then match_.1.length - 1 else match_.1.length
  { hasWildcardSuffix := hasWildcardSuffix
    match_ := nrStrndup match_ matchLen
    matchLen := matchLen
    matchHash := nrMkhash (nrStrndup match_ matchLen)
    includeDestinations := includeDestinations
    excludeDestinations := excludeDestinations
    matchLen_eq := by
      rw [nrStrndup, List.length_take, min_eq_left]
      dsimp only [matchLen]
      split <;> omega
    matchHash_eq := rfl }

/-- `nr_attribute_destination_modifier_compare`: `.lt` is for the modifier that is to be
applied before the other. -/
def nrAttributeDestinationModifierCompare (mod1 mod2 : NrAttributeDestinationModifier) :
    Ordering :=
  match nrStrcmp mod1.match_ mod2.match_ with
  | .lt => .lt
  | .eq =>
      if mod1.hasWildcardSuffix = mod2.hasWildcardSuffix then .eq
      else if mod1.hasWildcardSuffix then .lt
      else .gt
  | .gt => .gt

/-- The loop of `nr_attribute_config_modify_destinations`. -/
def insertModifier (newEntry : NrAttributeDestinationModifier) :
    List NrAttributeDestinationModifier → List NrAttributeDestinationModifier
  | [] => [newEntry]
  | entry :: next =>
      match nrAttributeDestinationModifierCompare newEntry entry with
      | .lt => newEntry :: entry :: next
      | .eq =>
          { entry with
            includeDestinations := entry.includeDestinations ||| newEntry.includeDestinations
            excludeDestinations :=
              entry.excludeDestinations ||| newEntry.excludeDestinations } :: next
      | .gt => entry :: insertModifier newEntry next

/-- `nr_attribute_config_modify_destinations`. -/
def nrAttributeConfigModifyDestinations (config : NrAttributeConfig) (match_ : Option CString)
    (includeDestinations excludeDestinations : Destinations) : NrAttributeConfig :=
  match match_ with
  | none => config
  | some match_ =>
      { config with
        modifierList := insertModifier
          (nrAttributeDestinationModifierCreate match_ includeDestinations excludeDestinations)
          config.modifierList }

/-- `nr_attribute_destination_modifier_match`. -/
def nrAttributeDestinationModifierMatch (modifier : NrAttributeDestinationModifier)
    (key : CString) (keyHash : UInt32) : Bool :=
  if !modifier.hasWildcardSuffix then
    if modifier.matchHash ≠ keyHash then false
    else nrStrcmp modifier.match_ key = .eq
  else nrStrncmp modifier.match_ key modifier.matchLen = .eq

/-- `nr_attribute_destination_modifier_apply`. -/
def nrAttributeDestinationModifierApply (modifier : NrAttributeDestinationModifier)
    (key : CString) (keyHash : UInt32) (destinations : Destinations) : Destinations :=
  if !nrAttributeDestinationModifierMatch modifier key keyHash then destinations
  else (destinations ||| modifier.includeDestinations) &&& ~~~modifier.excludeDestinations

/-- `nr_attribute_config_apply`. -/
def nrAttributeConfigApply (config : Option NrAttributeConfig) (key : Option CString)
    (keyHash : UInt32) (destinations : Destinations) : Destinations :=
  match key, config with
  | none, _ => 0
  | some _, none => destinations
  | some key, some config =>
      config.modifierList.foldl
          (fun destinations modifier =>
            nrAttributeDestinationModifierApply modifier key keyHash destinations)
          destinations &&&
        ~~~config.disabledDestinations

/-! ### Patterns

What a rule is about, and how specific it is. -/

/-- A text, or the texts that begin with it. -/
structure Pattern where
  stem : Bytes
  wildcard : Bool

namespace Pattern

/-- The pattern is about the key. -/
def Covers (pattern : Pattern) (key : Bytes) : Prop :=
  if pattern.wildcard then pattern.stem <+: key else pattern.stem = key

instance (pattern : Pattern) (key : Bytes) : Decidable (pattern.Covers key) :=
  inferInstanceAs
    (Decidable (if pattern.wildcard then pattern.stem <+: key else pattern.stem = key))

/-- Patterns with a longer text have precedence, and with the same text the one without
a star has. -/
def rank (pattern : Pattern) : ℕ :=
  2 * pattern.stem.length + if pattern.wildcard then 0 else 1

/-- Patterns by their texts; the one with a star comes first. -/
def cmp : Pattern → Pattern → Ordering :=
  compareLex (compareOn Pattern.stem) (compareOn fun pattern => !pattern.wildcard)

instance : Std.TransCmp cmp := by
  unfold cmp
  infer_instance

theorem eq_of_cmp {pattern other : Pattern} (h : cmp pattern other = .eq) : pattern = other := by
  obtain ⟨hstem, hwildcard⟩ := compareLex_eq_eq.mp h
  have hstem := Std.LawfulEqOrd.eq_of_compare hstem
  have hwildcard := Bool.not_inj (Std.LawfulEqOrd.eq_of_compare hwildcard)
  cases pattern
  cases other
  cases hstem
  cases hwildcard
  rfl

theorem Covers.begins {pattern : Pattern} {key : Bytes} (h : pattern.Covers key) :
    pattern.stem <+: key := by
  unfold Covers at h
  split at h
  · exact h
  · rw [h]

theorem compare_append_ne_lt (s t : Bytes) : compare (s ++ t) s ≠ .lt := by
  induction s with
  | nil =>
      cases t with
      | nil => exact nofun
      | cons => exact nofun
  | cons c s ih =>
      have hc : compare c c = .eq := Std.ReflCmp.compare_self
      rw [List.cons_append, List.compare_cons_cons, hc, Ordering.eq_then]
      exact ih

/-- Of two patterns that are about one key, the later one has precedence. -/
theorem rank_lt {pattern other : Pattern} {key : Bytes} (hcmp : cmp pattern other = .lt)
    (hpattern : pattern.Covers key) (hother : other.Covers key) : pattern.rank < other.rank := by
  rcases Ordering.then_eq_lt.mp hcmp with hstem | ⟨hstem, hwildcard⟩
  · -- both texts are beginnings of the key, so the one that comes first is the shorter one
    have hlength : pattern.stem.length < other.stem.length := by
      by_contra hle
      obtain ⟨t, ht⟩ : other.stem <+: pattern.stem :=
        List.prefix_of_prefix_length_le hother.begins hpattern.begins (Nat.le_of_not_lt hle)
      apply compare_append_ne_lt other.stem t
      rw [ht]
      exact hstem
    unfold rank
    split <;> split <;> omega
  · have hstem : pattern.stem = other.stem := Std.LawfulEqOrd.eq_of_compare hstem
    unfold rank
    rw [hstem]
    cases hp : pattern.wildcard <;> cases ho : other.wildcard <;>
      simp [compareOn, hp, ho] at hwildcard ⊢

end Pattern

/-! ### Rules

What a configuration is asked to do, and what it is to decide. -/

/-- A rule as it is given to `nr_attribute_config_modify_destinations`. -/
structure Rule where
  text : CString
  nonempty : text.1 ≠ []
  includes : Destinations
  excludes : Destinations

/-- A star at the end of the text is not part of the pattern. -/
def Rule.pattern (rule : Rule) : Pattern :=
  if rule.text.1.getLast? = some asterisk then { stem := rule.text.1.dropLast, wildcard := true }
  else { stem := rule.text.1, wildcard := false }

/-- What a rule says of one destination of an attribute. -/
def vote (key : Bytes) (bit : ℕ) (pattern : Pattern) (includes excludes : Destinations) :
    Option Bool :=
  if ¬ pattern.Covers key then none
  else if excludes.getLsbD bit then some false
  else if includes.getLsbD bit then some true
  else none

/-- The decision of the longest rule that is about the key and the destination. -/
def decision (rules : List Rule) (key : Bytes) (bit : ℕ) : Option Bool :=
  verdict (fun rule => rule.pattern.rank)
    (fun rule => vote key bit rule.pattern rule.includes rule.excludes) rules

theorem vote_ne_none_iff {key : Bytes} {bit : ℕ} {pattern : Pattern}
    {includes excludes : Destinations} :
    vote key bit pattern includes excludes ≠ none ↔
      pattern.Covers key ∧ (includes.getLsbD bit = true ∨ excludes.getLsbD bit = true) := by
  unfold vote
  split
  · simp_all
  · split <;> simp_all

theorem vote_eq_false_iff {key : Bytes} {bit : ℕ} {pattern : Pattern}
    {includes excludes : Destinations} :
    vote key bit pattern includes excludes = some false ↔
      pattern.Covers key ∧ excludes.getLsbD bit = true := by
  unfold vote
  split
  · simp_all
  · split <;> simp_all

/-! ### The sorted list -/

namespace NrAttributeDestinationModifier

def pattern (modifier : NrAttributeDestinationModifier) : Pattern where
  stem := modifier.match_
  wildcard := modifier.hasWildcardSuffix

/-- What becomes of an entry when a new one is merged into it. -/
def merge (entry newEntry : NrAttributeDestinationModifier) : NrAttributeDestinationModifier :=
  { entry with
    includeDestinations := entry.includeDestinations ||| newEntry.includeDestinations
    excludeDestinations := entry.excludeDestinations ||| newEntry.excludeDestinations }

@[simp] theorem merge_pattern (entry newEntry : NrAttributeDestinationModifier) :
    (merge entry newEntry).pattern = entry.pattern := rfl

end NrAttributeDestinationModifier

theorem compare_eq_cmp (mod1 mod2 : NrAttributeDestinationModifier) :
    nrAttributeDestinationModifierCompare mod1 mod2 = Pattern.cmp mod1.pattern mod2.pattern := by
  simp only [nrAttributeDestinationModifierCompare, nrStrcmp, Pattern.cmp, compareLex, compareOn,
    NrAttributeDestinationModifier.pattern]
  cases compare mod1.match_.1 mod2.match_.1 with
  | lt => rfl
  | eq => cases mod1.hasWildcardSuffix <;> cases mod2.hasWildcardSuffix <;> rfl
  | gt => rfl

theorem insertModifier_eq (newEntry : NrAttributeDestinationModifier)
    (entries : List NrAttributeDestinationModifier) :
    insertModifier newEntry entries =
      insertMerging Pattern.cmp NrAttributeDestinationModifier.pattern
        NrAttributeDestinationModifier.merge newEntry entries := by
  induction entries with
  | nil => rfl
  | cons entry next ih =>
      rw [insertModifier, insertMerging, compare_eq_cmp, ih]
      rfl

theorem create_pattern (rule : Rule) :
    (nrAttributeDestinationModifierCreate rule.text rule.includes rule.excludes).pattern =
      rule.pattern := by
  simp only [nrAttributeDestinationModifierCreate, NrAttributeDestinationModifier.pattern,
    nrStrndup, Rule.pattern]
  split
  · next h => simp only [h, decide_true, List.dropLast_eq_take]
  · next h => simp only [h, decide_false, List.take_length]

theorem match_iff_covers (modifier : NrAttributeDestinationModifier) (key : CString) :
    nrAttributeDestinationModifierMatch modifier key (nrMkhash key) = true ↔
      modifier.pattern.Covers key := by
  obtain ⟨wildcard, match_, matchLen, matchHash, _, _, rfl, rfl⟩ := modifier
  cases wildcard with
  | true =>
      have heq : nrStrncmp match_ key match_.1.length = .eq ↔ match_.1 <+: key.1 := by
        rw [nrStrncmp, Std.LawfulEqOrd.compare_eq_iff_eq, List.take_length,
          List.prefix_iff_eq_take]
      exact decide_eq_true_iff.trans heq
  | false =>
      have heq : nrStrcmp match_ key = .eq ↔ match_.1 = key.1 :=
        Std.LawfulEqOrd.compare_eq_iff_eq
      change (if nrMkhash match_ ≠ nrMkhash key then false
        else decide (nrStrcmp match_ key = .eq)) = true ↔ match_.1 = key.1
      split
      · next hhash =>
          have hne : match_.1 ≠ key.1 := fun h => hhash (congrArg nrMkhash h)
          exact iff_of_false Bool.false_ne_true hne
      · exact decide_eq_true_iff.trans heq

theorem getLsbD_and_not (destinations excludes : Destinations) (bit : ℕ) :
    (destinations &&& ~~~excludes).getLsbD bit =
      (destinations.getLsbD bit && !excludes.getLsbD bit) := by
  rw [BitVec.getLsbD_and, BitVec.getLsbD_not]
  cases hbit : destinations.getLsbD bit with
  | false => rfl
  | true =>
      have hlt : bit < 32 := BitVec.lt_of_getLsbD hbit
      rw [decide_eq_true hlt, Bool.true_and]

/-- One modifier overrides what was decided of a destination, or has nothing to say. -/
theorem apply_getLsbD (modifier : NrAttributeDestinationModifier) (key : CString)
    (destinations : Destinations) (bit : ℕ) :
    (nrAttributeDestinationModifierApply modifier key (nrMkhash key) destinations).getLsbD bit =
      (vote key bit modifier.pattern modifier.includeDestinations
        modifier.excludeDestinations).getD (destinations.getLsbD bit) := by
  unfold nrAttributeDestinationModifierApply vote
  cases hmatch : nrAttributeDestinationModifierMatch modifier key (nrMkhash key) with
  | false =>
      have hcovers : ¬ modifier.pattern.Covers key := by
        rw [← match_iff_covers, hmatch]
        exact Bool.false_ne_true
      rw [if_pos hcovers]
      rfl
  | true =>
      have hcovers : modifier.pattern.Covers key := (match_iff_covers modifier key).mp hmatch
      rw [if_neg (not_not_intro hcovers), Bool.not_true, if_neg Bool.false_ne_true,
        getLsbD_and_not, BitVec.getLsbD_or]
      -- the source includes first and excludes then, so that excluding wins
      cases modifier.excludeDestinations.getLsbD bit with
      | true => rw [if_pos rfl, Bool.not_true, Bool.and_false, Option.getD_some]
      | false =>
          rw [if_neg Bool.false_ne_true, Bool.not_false, Bool.and_true]
          cases modifier.includeDestinations.getLsbD bit with
          | true => rw [if_pos rfl, Bool.or_true, Option.getD_some]
          | false => rw [if_neg Bool.false_ne_true, Bool.or_false, Option.getD_none]

/-! ### Configuring -/

/-- A call that changes a configuration. -/
inductive ConfigCall
  | modify (rule : Rule)
  | disable (destinations : Destinations)

def execConfig (config : NrAttributeConfig) : ConfigCall → NrAttributeConfig
  | .modify rule =>
      nrAttributeConfigModifyDestinations config (some rule.text) rule.includes rule.excludes
  | .disable destinations => nrAttributeConfigDisableDestinations config destinations

/-- The rules that were inserted. -/
def rulesOf (calls : List ConfigCall) : List Rule :=
  calls.filterMap fun call =>
    match call with
    | .modify rule => some rule
    | .disable _ => none

/-- One of the calls disables the destination. -/
def disables (calls : List ConfigCall) (bit : ℕ) : Bool :=
  calls.any fun call =>
    match call with
    | .modify _ => false
    | .disable destinations => destinations.getLsbD bit

/-- Rules that are merged have the property together if one of them has it. -/
def Additive (p : Pattern → Destinations → Destinations → Prop) : Prop :=
  ∀ pattern includes excludes includes' excludes',
    p pattern (includes ||| includes') (excludes ||| excludes') ↔
      p pattern includes excludes ∨ p pattern includes' excludes'

/-- The list is sorted, and is about the same things as the rules. -/
structure Configured (config : NrAttributeConfig) (calls : List ConfigCall) : Prop where
  sorted : SortedBy Pattern.cmp NrAttributeDestinationModifier.pattern config.modifierList
  agrees : ∀ p, Additive p →
    ((∃ modifier ∈ config.modifierList,
        p modifier.pattern modifier.includeDestinations modifier.excludeDestinations) ↔
      ∃ rule ∈ rulesOf calls, p rule.pattern rule.includes rule.excludes)
  disabled : ∀ bit, config.disabledDestinations.getLsbD bit = disables calls bit

theorem configured_create : Configured nrAttributeConfigCreate [] where
  sorted := List.Pairwise.nil
  agrees := fun _ _ => by simp [nrAttributeConfigCreate, rulesOf]
  disabled := fun bit => BitVec.getLsbD_zero

theorem configured_modify {config : NrAttributeConfig} {calls : List ConfigCall}
    (h : Configured config calls) (rule : Rule) :
    Configured (execConfig config (.modify rule)) (calls ++ [.modify rule]) := by
  let newEntry := nrAttributeDestinationModifierCreate rule.text rule.includes rule.excludes
  have hlist : (execConfig config (.modify rule)).modifierList =
      insertMerging Pattern.cmp NrAttributeDestinationModifier.pattern
        NrAttributeDestinationModifier.merge newEntry config.modifierList :=
    insertModifier_eq newEntry config.modifierList
  have hrules : rulesOf (calls ++ [.modify rule]) = rulesOf calls ++ [rule] :=
    List.filterMap_append
  refine ⟨?_, fun p hp => ?_, fun bit => ?_⟩
  · rw [hlist]
    exact insertMerging_sorted NrAttributeDestinationModifier.merge_pattern h.sorted newEntry
  · let q (modifier : NrAttributeDestinationModifier) : Prop :=
      p modifier.pattern modifier.includeDestinations modifier.excludeDestinations
    have hmerge : ∀ other : NrAttributeDestinationModifier,
        Pattern.cmp newEntry.pattern other.pattern = .eq →
          (q (other.merge newEntry) ↔ q newEntry ∨ q other) := by
      intro other hcmp
      dsimp only [q]
      rw [NrAttributeDestinationModifier.merge_pattern, Pattern.eq_of_cmp hcmp, or_comm]
      exact hp _ _ _ _ _
    have hnew : q newEntry ↔ p rule.pattern rule.includes rule.excludes := by
      dsimp only [q]
      rw [create_pattern]
      rfl
    have hold : (∃ modifier ∈ config.modifierList, q modifier) ↔
        ∃ rule ∈ rulesOf calls, p rule.pattern rule.includes rule.excludes := h.agrees p hp
    rw [hlist, hrules]
    refine (exists_mem_insertMerging hmerge).trans ?_
    rw [hnew, hold, or_comm]
    simp only [List.mem_append, List.mem_singleton, or_and_right, exists_or, exists_eq_left]
  · rw [disables, List.any_append, ← disables, ← h.disabled bit]
    exact (Bool.or_false _).symm

theorem configured_disable {config : NrAttributeConfig} {calls : List ConfigCall}
    (h : Configured config calls) (destinations : Destinations) :
    Configured (execConfig config (.disable destinations)) (calls ++ [.disable destinations]) := by
  have hrules : rulesOf (calls ++ [.disable destinations]) = rulesOf calls := by
    rw [rulesOf, List.filterMap_append]
    exact List.append_nil _
  refine ⟨h.sorted, fun p hp => ?_, fun bit => ?_⟩
  · rw [hrules]
    exact h.agrees p hp
  · rw [disables, List.any_append, ← disables, ← h.disabled bit]
    simp [execConfig, nrAttributeConfigDisableDestinations]

theorem configured_run {config : NrAttributeConfig} {before : List ConfigCall}
    (h : Configured config before) (calls : List ConfigCall) :
    Configured (runFrom execConfig config calls) (before ++ calls) := by
  induction calls generalizing config before with
  | nil => rwa [List.append_nil]
  | cons call calls ih =>
      rw [runFrom_cons, List.append_cons]
      cases call with
      | modify rule => exact ih (configured_modify h rule)
      | disable destinations => exact ih (configured_disable h destinations)

theorem Configured.apply {config : NrAttributeConfig} {calls : List ConfigCall}
    (h : Configured config calls) (key : CString) (destinations : Destinations) (bit : ℕ) :
    (nrAttributeConfigApply (some config) (some key) (nrMkhash key) destinations).getLsbD bit =
      (!disables calls bit &&
        (decision (rulesOf calls) key bit).getD (destinations.getLsbD bit)) := by
  have hfold : ∀ modifiers : List NrAttributeDestinationModifier,
      (modifiers.foldl (fun destinations modifier =>
          nrAttributeDestinationModifierApply modifier key (nrMkhash key) destinations)
        destinations).getLsbD bit =
      modifiers.foldl (fun answer modifier =>
          (vote key bit modifier.pattern modifier.includeDestinations
            modifier.excludeDestinations).getD answer)
        (destinations.getLsbD bit) := by
    intro modifiers
    induction modifiers generalizing destinations with
    | nil => rfl
    | cons modifier modifiers ih => rw [List.foldl_cons, List.foldl_cons, ih, apply_getLsbD]
  have hranked : RankedUp (fun modifier => modifier.pattern.rank)
      (fun modifier => vote key bit modifier.pattern modifier.includeDestinations
        modifier.excludeDestinations) config.modifierList := by
    refine h.sorted.imp fun hcmp hmodifier hlater => ?_
    exact Pattern.rank_lt hcmp (vote_ne_none_iff.mp hmodifier).1 (vote_ne_none_iff.mp hlater).1
  have hverdict : verdict (fun modifier => modifier.pattern.rank)
      (fun modifier => vote key bit modifier.pattern modifier.includeDestinations
        modifier.excludeDestinations) config.modifierList = decision (rulesOf calls) key bit := by
    apply verdict_congr
    · intro n
      apply h.agrees fun pattern includes excludes =>
        pattern.rank = n ∧ vote key bit pattern includes excludes ≠ none
      intro pattern includes excludes includes' excludes'
      simp only [vote_ne_none_iff, BitVec.getLsbD_or, Bool.or_eq_true]
      tauto
    · intro n
      apply h.agrees fun pattern includes excludes =>
        pattern.rank = n ∧ vote key bit pattern includes excludes = some false
      intro pattern includes excludes includes' excludes'
      simp only [vote_eq_false_iff, BitVec.getLsbD_or, Bool.or_eq_true]
      tauto
  rw [nrAttributeConfigApply, getLsbD_and_not, hfold, foldl_override hranked, hverdict,
    h.disabled, Bool.and_comm]

theorem disables_perm {calls calls' : List ConfigCall} (h : calls.Perm calls') (bit : ℕ) :
    disables calls bit = disables calls' bit := h.any_eq

theorem decision_perm {calls calls' : List ConfigCall} (h : calls.Perm calls') (key : Bytes)
    (bit : ℕ) : decision (rulesOf calls) key bit = decision (rulesOf calls') key bit :=
  verdict_perm (h.filterMap _)

/-- `ab` is excluded from the first destination, other keys that begin with `a` are
included in it. -/
def abCalls : List ConfigCall :=
  [.modify { text := ⟨[97, 42], by decide⟩, nonempty := by decide, includes := 1, excludes := 0 },
    .modify { text := ⟨[97, 98], by decide⟩, nonempty := by decide, includes := 0, excludes := 1 }]

def abKey : CString := ⟨[97, 98], by decide⟩

example : decision (rulesOf abCalls) abKey 0 = some false := by decide

example : decision (rulesOf abCalls) [97, 99] 0 = some true := by decide

end AxiomDaemon.Axiom

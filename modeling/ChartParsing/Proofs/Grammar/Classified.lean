import ChartParsing.Proofs.Grammar.Making
import ChartParsing.Proofs.Grammar.Numbering
import Mathlib.Data.Nat.Size
import Mathlib.Order.Bounds.Basic

/-!
# What a grammar is compiled to, and when it is not

Only the size of a source can stand in the way of compiling it: too many labels for their
numbers, or a packing by place value with too many keys. Otherwise every label has its number
in the run of its class, so that the children of each binary rule are where they are looked
for, and the range kept for a left child is that of its right children, neither more nor less.
-/

namespace ChartParsing

/-! ## Room for the keys -/

/-- The length of an array with a key for every left child and every number of as many bits
as the last right child has. -/
def ClassBounds.keyCount (b : ClassBounds) : Nat :=
  b.leftChildren.stop.toNat * 2 ^ max 1 (Nat.size (b.rightChildren.stop.toNat - 1))

theorem SlotTable.bitsFor_eq (largest : UInt32) :
    bitsFor largest = max 1 (Nat.size largest.toNat) := by
  apply Nat.le_antisymm
  · apply bitsFor_le
    · exact Nat.size_le.1 (Nat.le_max_right 1 _)
    · exact Nat.le_max_left 1 _
  · apply Nat.max_le.2
    constructor
    · unfold bitsFor
      split_ifs <;> omega
    · exact Nat.size_le.2 (le_two_pow_bitsFor largest)

namespace Packing

variable {bounds : ClassBounds}

theorem shift_build_eq (bounds : ClassBounds) :
    (maxKeyCount < bounds.keyCount ∧
      ShiftPacking.build bounds = .error (.packingOverflow .shift bounds.keyCount)) ∨
    (bounds.keyCount ≤ maxKeyCount ∧ ∃ p, ShiftPacking.build bounds = .ok p) := by
  have hstop := bounds.rightChildren.stop.toNat_lt
  have hlast : (UInt32.ofNat (bounds.rightChildren.stop.toNat - 1)).toNat =
      bounds.rightChildren.stop.toNat - 1 := Nat.mod_eq_of_lt (by omega)
  have hrequired : bounds.leftChildren.stop.toNat * Nat.pow 2
      (SlotTable.bitsFor (UInt32.ofNat (bounds.rightChildren.stop.toNat - 1))) =
        bounds.keyCount := by
    rw [SlotTable.bitsFor_eq, hlast]
    rfl
  unfold ShiftPacking.build
  dsimp only
  rw [hrequired]
  split_ifs with hmany
  · exact .inl ⟨hmany, rfl⟩
  · exact .inr ⟨Nat.le_of_not_lt hmany, _, rfl⟩

/-- A packing is refused only by place value, and just if its keys are too many. -/
theorem build_eq (kind : PackingKind) (bounds : ClassBounds) (pairs : List (UInt16 × UInt16)) :
    (kind ≠ .perfectHash ∧ maxKeyCount < bounds.keyCount ∧
      build kind bounds pairs = .error (.packingOverflow .shift bounds.keyCount)) ∨
    ((kind = .perfectHash ∨ bounds.keyCount ≤ maxKeyCount) ∧
      ∃ p, build kind bounds pairs = .ok p) := by
  have hshift := shift_build_eq bounds
  cases kind with
  | shift =>
    rcases hshift with ⟨hmany, herror⟩ | ⟨hfew, p, hp⟩
    · exact .inl ⟨by decide, hmany, by rw [build, herror]; rfl⟩
    · exact .inr ⟨.inr hfew, _, by rw [build, hp]; rfl⟩
  | bitVector =>
    rcases hshift with ⟨hmany, herror⟩ | ⟨hfew, p, hp⟩
    · exact .inl ⟨by decide, hmany, by rw [build, BitVectorPacking.build, herror]; rfl⟩
    · exact .inr ⟨.inr hfew, _, by rw [build, BitVectorPacking.build, hp]; rfl⟩
  | perfectHash => exact .inr ⟨.inl rfl, _, rfl⟩

end Packing

/-! ## Ranges of siblings -/

namespace Grammar

/-- A range is that of the least and the greatest of some numbers, if there are any. -/
def Spans : Option (UInt16 × UInt16) → Set UInt16 → Prop
  | none, rights => rights = ∅
  | some (lo, hi), rights => IsLeast rights lo ∧ IsGreatest rights hi

theorem isLeast_insert {rights : Set UInt16} {lo : UInt16} (h : IsLeast rights lo) (n : UInt16) :
    IsLeast (insert n rights) (min lo n) := by
  obtain ⟨hlo, hleast⟩ := h
  rw [UInt16.min_def]
  split_ifs with hle
  · refine ⟨Set.mem_insert_of_mem n hlo, ?_⟩
    rintro m (rfl | hm)
    · exact hle
    · exact hleast hm
  · have hlt : n ≤ lo := (UInt16.le_total lo n).resolve_left hle
    refine ⟨Set.mem_insert n rights, ?_⟩
    rintro m (rfl | hm)
    · exact UInt16.le_refl m
    · exact UInt16.le_trans hlt (hleast hm)

theorem isGreatest_insert {rights : Set UInt16} {hi : UInt16} (h : IsGreatest rights hi)
    (n : UInt16) : IsGreatest (insert n rights) (max hi n) := by
  obtain ⟨hhi, hgreatest⟩ := h
  change IsGreatest _ (if hi ≤ n then n else hi)
  split_ifs with hle
  · refine ⟨Set.mem_insert n rights, ?_⟩
    rintro m (rfl | hm)
    · exact UInt16.le_refl m
    · exact UInt16.le_trans (hgreatest hm) hle
  · refine ⟨Set.mem_insert_of_mem n hhi, ?_⟩
    rintro m (rfl | hm)
    · exact (UInt16.le_total hi m).resolve_left hle
    · exact hgreatest hm

theorem isLeast_singleton (n : UInt16) : IsLeast {n} n :=
  ⟨rfl, by rintro m rfl; exact UInt16.le_refl m⟩

theorem isGreatest_singleton (n : UInt16) : IsGreatest {n} n :=
  ⟨rfl, by rintro m rfl; exact UInt16.le_refl m⟩

theorem Spans.widen {range : Option (UInt16 × UInt16)} {rights : Set UInt16}
    (h : Spans range rights) (n : UInt16) : Spans (widen n range) (insert n rights) := by
  cases range with
  | none =>
    obtain rfl : rights = ∅ := h
    rw [insert_empty_eq]
    exact ⟨isLeast_singleton n, isGreatest_singleton n⟩
  | some range =>
    obtain ⟨hleast, hgreatest⟩ := h
    exact ⟨isLeast_insert hleast n, isGreatest_insert hgreatest n⟩

theorem rangesOf_concat (count : Nat) (pairs : List (UInt16 × UInt16)) (left right : UInt16) :
    rangesOf count (pairs ++ [(left, right)]) =
      (rangesOf count pairs).modify left.toNat (Grammar.widen right) := by
  simp [rangesOf]

theorem size_rangesOf (count : Nat) (pairs : List (UInt16 × UInt16)) :
    (rangesOf count pairs).size = count := by
  induction pairs using List.reverseRecOn with
  | nil => simp [rangesOf]
  | append_singleton pairs pair ih => rw [rangesOf_concat, Array.size_modify, ih]

/-- The range of each left child is that of the right children it is paired with. -/
theorem spans_rangesOf {count : Nat} {pairs : List (UInt16 × UInt16)} {left : UInt16}
    (hleft : left.toNat < count) :
    Spans ((rangesOf count pairs).getD left.toNat none) {right | (left, right) ∈ pairs} := by
  induction pairs using List.reverseRecOn with
  | nil => simp [rangesOf, Spans, hleft]
  | append_singleton pairs pair ih =>
    obtain ⟨l, r⟩ := pair
    have hin : left.toNat < (rangesOf count pairs).size := by rwa [size_rangesOf]
    rw [Array.getD_eq_getD_getElem?, Array.getElem?_eq_getElem hin, Option.getD_some] at ih
    rw [rangesOf_concat, Array.getD_eq_getD_getElem?, Array.getElem?_modify,
      Array.getElem?_eq_getElem hin]
    split_ifs with heq
    · obtain rfl := UInt16.toNat_inj.1 heq
      have hset : {right | (l, right) ∈ pairs ++ [(l, r)]} =
          insert r {right | (l, right) ∈ pairs} := by
        ext right
        simp [or_comm]
      rw [hset]
      exact ih.widen r
    · have hne : left ≠ l := fun h => heq (by rw [h])
      have hset : {right | (left, right) ∈ pairs ++ [(l, r)]} =
          {right | (left, right) ∈ pairs} := by
        ext right
        simp [hne]
      rw [hset]
      exact ih

end Grammar

/-! ## Places and classes -/

namespace LabelTable

/-- In 16 bits, too, the number of a label is its place. -/
theorem Indexed.toUInt16_eq_iff {t : LabelTable} (h : t.Indexed) (hsize : t.size ≤ 65535)
    {label : String} {nt : UInt16} :
    (t.number? label).map (·.toUInt16) = some nt ↔ t.toList[nt.toNat]? = some label := by
  have h32 {n : UInt32} : t.number? label = some n ↔ t.toList[n.toNat]? = some label :=
    h.number_eq_iff (by omega)
  rw [Option.map_eq_some_iff]
  constructor
  · rintro ⟨n, hn, rfl⟩
    have hget := h32.1 hn
    have hlt := (List.getElem?_eq_some_iff.1 hget).1
    rw [length_toList] at hlt
    have hback : n.toUInt16.toNat = n.toNat := Nat.mod_eq_of_lt (by omega)
    rwa [hback]
  · intro hget
    refine ⟨nt.toUInt32, h32.2 (by simpa using hget), by simp⟩

theorem Indexed.number_lt {t : LabelTable} (h : t.Indexed) (hsize : t.size ≤ 65535)
    {label : String} (hmem : label ∈ t.toList) : (t.number label).toUInt16.toNat < t.size := by
  have hget := (h.toUInt16_eq_iff hsize).1 (congrArg (Option.map _) (h.number?_eq hmem))
  simpa using (List.getElem?_eq_some_iff.1 hget).1

end LabelTable

namespace GrammarSource

variable {s : GrammarSource} {label : String} {nt : UInt16} {c : LabelClass}

/-- How many labels there are of each class. -/
def sizes (s : GrammarSource) (c : LabelClass) : Nat :=
  s.numbering.countP fun label => s.InClass label c

theorem count_sizes (s : GrammarSource) : LabelClass.count s.sizes = s.numbering.length := by
  rw [numbering, LabelClass.length_members]
  exact congrArg LabelClass.count (funext fun c => (length_members c).symm)

/-- A label stands in the run of its class. -/
theorem run_of_getElem? {i : Nat} (h : s.numbering[i]? = some label) (hc : s.InClass label c) :
    LabelClass.before s.sizes c ≤ i ∧ i < LabelClass.before s.sizes c + s.sizes c := by
  obtain ⟨d, hmem, hle, hlt⟩ := LabelClass.exists_of_getElem?_members h
  obtain rfl := hc.unique (Occurrences.mem_members.1 hmem).2
  simp only [length_members] at hle hlt
  exact ⟨hle, hlt⟩

section Few

variable (hfew : s.numbering.length ≤ 65535) (h : s.numbering[nt.toNat]? = some label)

include hfew h

theorem classOf_bounds_iff : (s.bounds s.numbering).classOf nt = c ↔ s.InClass label c := by
  obtain ⟨d, hd⟩ := s.exists_inClass label
  have hcount : LabelClass.count s.sizes ≤ 65535 := by rwa [count_sizes]
  have hlt : nt.toNat < LabelClass.count s.sizes := by
    rw [count_sizes]
    exact (List.getElem?_eq_some_iff.1 h).1
  have hclass : (s.bounds s.numbering).classOf nt = d :=
    (ClassBounds.classOf_eq_iff hcount hlt).2 (run_of_getElem? h hd)
  rw [hclass]
  constructor
  · rintro rfl
    exact hd
  · exact hd.unique

theorem interval_bounds_iff :
    ((s.bounds s.numbering).interval c).contains nt = true ↔ s.InClass label c := by
  have hcount : LabelClass.count s.sizes ≤ 65535 := by rwa [count_sizes]
  have hlt : nt.toNat < LabelClass.count s.sizes := by
    rw [count_sizes]
    exact (List.getElem?_eq_some_iff.1 h).1
  rw [← classOf_bounds_iff hfew h]
  exact (ClassBounds.interval_contains_iff hcount c).trans
    (ClassBounds.classOf_eq_iff hcount hlt).symm

theorem leftChildren_of_isLeft (hleft : s.IsLeft label) :
    (s.bounds s.numbering).leftChildren.contains nt = true := by
  obtain ⟨d, hd⟩ := s.exists_inClass label
  have hcount : LabelClass.count s.sizes ≤ 65535 := by rwa [count_sizes]
  refine (ClassBounds.leftChildren_contains_iff hcount (run_of_getElem? h hd)).2 ⟨?_, ?_⟩
  · rintro rfl
    exact hd.2.1 hleft
  · rintro rfl
    exact hd.2.1 hleft

theorem rightChildren_of_isRight (hright : s.IsRight label) :
    (s.bounds s.numbering).rightChildren.contains nt = true := by
  obtain ⟨d, hd⟩ := s.exists_inClass label
  have hcount : LabelClass.count s.sizes ≤ 65535 := by rwa [count_sizes]
  refine (ClassBounds.rightChildren_contains_iff hcount (run_of_getElem? h hd)).2 ⟨?_, ?_⟩
  · rintro rfl
    exact hd.2.2 hright
  · rintro rfl
    exact hd.2.2 hright

end Few

end GrammarSource

/-! ## Compiling -/

namespace GrammarSource

/-- The binary rules of a source, each once. -/
def binaryRules (s : GrammarSource) : List (String × String × String) :=
  (s.rules.filterMap fun r => r.right.map fun right => (r.parent, r.left, right)).dedup

/-- The tags of words in a source, each pair once. -/
def wordTags (s : GrammarSource) : List (String × String) :=
  (s.lexicon.map fun e => (e.parent, e.left)).dedup

/-- More binary rules, or more tags of words, than offsets in 32 bits can tell. -/
def Crowded (s : GrammarSource) : Prop :=
  2 ^ 32 ≤ s.binaryRules.length ∨ 2 ^ 32 ≤ s.wordTags.length

theorem not_crowded_of_length {s : GrammarSource} (hrules : s.rules.length < 2 ^ 32)
    (hlexicon : s.lexicon.length < 2 ^ 32) : ¬s.Crowded := by
  have hrules' : s.binaryRules.length ≤ s.rules.length :=
    (List.dedup_sublist _).length_le.trans (List.length_filterMap_le _ _)
  have htags : s.wordTags.length ≤ s.lexicon.length :=
    (List.dedup_sublist _).length_le.trans (Nat.le_of_eq (List.length_map _))
  rintro (hmany | hmany) <;> omega

/-- The faults that the size of a source has, under a packing. The last of them is not
reported: a sum of offsets overflows, and the run stops. -/
inductive Oversized (s : GrammarSource) (kind : PackingKind) : GrammarError → Prop
  | labels {labels : List String} (hlabels : s.Numbering labels) (hmany : 65535 < labels.length) :
      Oversized s kind (.tooManyNonTerminals labels.length)
  | keys {labels : List String} (hlabels : s.Numbering labels) (hfew : labels.length ≤ 65535)
      (hkind : kind ≠ .perfectHash) (hmany : 2 ^ 31 < (s.bounds labels).keyCount) :
      Oversized s kind (.packingOverflow .shift (s.bounds labels).keyCount)
  | offsets {labels : List String} (hlabels : s.Numbering labels) (hfew : labels.length ≤ 65535)
      (hroom : kind = .perfectHash ∨ (s.bounds labels).keyCount ≤ 2 ^ 31) (hmany : s.Crowded) :
      Oversized s kind .indexOutOfRange

end GrammarSource

namespace Grammar

/-- The numbers of the labels that stand to the right of a left child in a binary rule. -/
def rightsOf (g : Grammar) (s : GrammarSource) (left : UInt16) : Set UInt16 :=
  {right | ∃ rule ∈ s.rules, g.number? rule.left = some left ∧
    ∃ label, rule.right = some label ∧ g.number? label = some right}

/-- A grammar has the labels of a source, numbered by their classes. -/
structure Classifies (g : Grammar) (s : GrammarSource) : Prop where
  numbering : s.Numbering g.labels.toList
  length_le : g.labels.toList.length ≤ 65535
  number : ∀ label nt, g.number? label = some nt ↔ g.labels.toList[nt.toNat]? = some label
  bounds : g.bounds = s.bounds g.labels.toList
  classOf : ∀ label nt, g.number? label = some nt →
    ∀ c, g.bounds.classOf nt = c ↔ s.InClass label c
  interval : ∀ label nt, g.number? label = some nt →
    ∀ c, (g.bounds.interval c).contains nt = true ↔ s.InClass label c
  children : ∀ rule ∈ s.rules, ∀ label, rule.right = some label →
    ∃ left right, g.number? rule.left = some left ∧ g.number? label = some right ∧
      g.bounds.leftChildren.contains left = true ∧ g.bounds.rightChildren.contains right = true
  siblings : ∀ left, Spans (g.siblingRange? left) (g.rightsOf s left)

/-- Productions whose left children are known are refused with their packing only. -/
theorem ofProductions_of_packing_error {start : UInt16} {labels lexicon : LabelTable}
    {bounds : ClassBounds} {productions : List Production} {kind : PackingKind} {e : GrammarError}
    (hlefts : ∀ pair ∈ pairsOf productions, pair.1.toNat < labels.size)
    (herror : Packing.build kind bounds (pairsOf productions) = .error e) :
    ofProductions start labels lexicon bounds productions kind = .error e := by
  have hknown : ¬((pairsOf productions).any fun pair => labels.size ≤ pair.1.toNat) = true := by
    rw [List.any_eq_true]
    rintro ⟨pair, hpair, hle⟩
    exact Nat.not_lt.2 (of_decide_eq_true hle) (hlefts pair hpair)
  unfold ofProductions
  dsimp only
  rw [if_neg hknown, herror]
  rfl

theorem bounds_of_ofProductions {start : UInt16} {labels lexicon : LabelTable}
    {bounds : ClassBounds} {productions : List Production} {kind : PackingKind} {g : Grammar}
    (h : ofProductions start labels lexicon bounds productions kind = .ok g) :
    g.bounds = bounds := by
  unfold ofProductions at h
  dsimp only at h
  split_ifs at h
  · cases h
  · simp only [bind_eq_ok] at h
    obtain ⟨packing, -, binary, -, byParent, -, byPair, -, unaryByParent, -, unaryByChild, -,
      lexical, -, lefts, -, rights, -, hg⟩ := h
    exact Except.ok.inj hg ▸ rfl

variable {s : GrammarSource} {labels lexicon : LabelTable}

/-- The pairs of children of the productions of a source are those of its binary rules. -/
theorem mem_pairsOf_productionsOf {left right : UInt16} :
    (left, right) ∈ pairsOf (productionsOf s labels lexicon) ↔
      ∃ rule ∈ s.rules, (labels.number rule.left).toUInt16 = left ∧
        ∃ label, rule.right = some label ∧ (labels.number label).toUInt16 = right := by
  simp only [pairsOf, List.mem_map, Prod.exists, Prod.mk.injEq]
  constructor
  · rintro ⟨parent, left, right, score, hmem, rfl, rfl⟩
    rcases List.mem_append.1 (mem_binaryOf.1 hmem) with hentry | hrule
    · obtain ⟨entry, -, heq⟩ := List.mem_map.1 hentry
      cases heq
    · obtain ⟨rule, hrule, heq⟩ := List.mem_map.1 hrule
      rw [ruleProduction, Production.mk.injEq] at heq
      obtain ⟨-, hchildren, -⟩ := heq
      cases hright : rule.right with
      | none =>
        rw [hright] at hchildren
        cases hchildren
      | some label =>
        rw [hright] at hchildren
        obtain ⟨hl, hr⟩ := Expansion.binary.inj hchildren
        exact ⟨rule, hrule, hl, label, hright, hr⟩
  · rintro ⟨rule, hrule, rfl, label, hright, rfl⟩
    have hmem : ruleProduction labels rule ∈ productionsOf s labels lexicon :=
      List.mem_append_right _ (List.mem_map_of_mem hrule)
    rw [ruleProduction, hright] at hmem
    exact ⟨_, _, _, _, mem_binaryOf.2 hmem, rfl, rfl⟩

section Compiled

variable (s)

/-- The table of the labels of a source. -/
def labelsOf : LabelTable := .ofList s.numbering

theorem indexed_labelsOf : (labelsOf s).Indexed := LabelTable.indexed_ofList _

theorem toList_labelsOf : (labelsOf s).toList = s.numbering :=
  LabelTable.toList_ofList s.numbering_numbering.nodup

theorem size_labelsOf : (labelsOf s).size = s.numbering.length := by
  rw [← LabelTable.length_toList, toList_labelsOf]

variable {s}

theorem mem_labelsOf {label : String} : label ∈ (labelsOf s).toList ↔ s.IsLabel label := by
  rw [toList_labelsOf, s.numbering_numbering.mem]

theorem isLabel_left {rule : LabelledRule} (h : rule ∈ s.rules) : s.IsLabel rule.left :=
  .inr (.inr ⟨rule, h, .inr (.inl rfl)⟩)

theorem isLabel_right {rule : LabelledRule} (h : rule ∈ s.rules) {label : String}
    (hright : rule.right = some label) : s.IsLabel label :=
  .inr (.inr ⟨rule, h, .inr (.inr hright)⟩)

/-- The words of the productions of a source are those of its lexicon. -/
theorem productionsOf_words (s : GrammarSource) (labels : LabelTable) :
    ∀ p ∈ productionsOf s labels (.ofList s.words), ∀ word, p.expansion = .lexical word →
      word.toNat < (LabelTable.ofList s.words).size := by
  intro p hp word hword
  rcases List.mem_append.1 hp with hp | hp
  · obtain ⟨entry, hentry, rfl⟩ := List.mem_map.1 hp
    obtain rfl := Expansion.lexical.inj hword
    have hmem : entry.left ∈ (LabelTable.ofList s.words).toList :=
      LabelTable.mem_ofList.2 (List.mem_map.2 ⟨entry, hentry, rfl⟩)
    exact (LabelTable.numbered_ofList s.words).1 entry.left _
      ((LabelTable.indexed_ofList s.words).number?_eq hmem)
  · obtain ⟨rule, -, rfl⟩ := List.mem_map.1 hp
    cases hright : rule.right <;> simp [ruleProduction, hright] at hword

/-- Each number of 32 bits is that of a word with a tag, if the words are too many for them. -/
theorem le_length_tagsOf_of_many (labels : LabelTable)
    (hmany : 2 ^ 32 < (LabelTable.ofList s.words).size) :
    2 ^ 32 ≤ (tagsOf (productionsOf s labels (.ofList s.words))).length := by
  set t := LabelTable.ofList s.words
  have hindexed := LabelTable.indexed_ofList s.words
  have hword : ∀ i < 2 ^ 32, UInt32.ofNat i ∈ (tagsOf (productionsOf s labels t)).map Prod.snd := by
    intro i hi
    obtain ⟨word, hword⟩ : ∃ word, t.toList[i]? = some word :=
      ⟨_, List.getElem?_eq_getElem (by rw [LabelTable.length_toList]; omega)⟩
    have hmem : word ∈ t.toList := List.mem_of_getElem? hword
    have hnumber : t.number word = UInt32.ofNat i := by
      rw [LabelTable.number, (hindexed.number word _).2 ⟨i, hword, rfl⟩, Option.getD_some]
    obtain ⟨entry, hentry, rfl⟩ := List.mem_map.1 (LabelTable.mem_ofList.1 hmem)
    have htag : ((labels.number entry.parent).toUInt16, t.number entry.left) ∈
        tagsOf (productionsOf s labels t) := by
      rw [mem_tagsOf, lexicalOf_productionsOf]
      exact ⟨entry.logProb, List.mem_map_of_mem hentry⟩
    exact List.mem_map.2 ⟨_, htag, hnumber⟩
  have hnodup : ((List.range (2 ^ 32)).map UInt32.ofNat).Nodup := by
    refine List.nodup_range.map_on fun i hi j hj heq => ?_
    rw [List.mem_range] at hi hj
    have hback := congrArg UInt32.toNat heq
    rwa [UInt32.toNat_ofNat_of_lt' hi, UInt32.toNat_ofNat_of_lt' hj] at hback
  have hsubset : (List.range (2 ^ 32)).map UInt32.ofNat ⊆
      (tagsOf (productionsOf s labels t)).map Prod.snd := by
    intro n hn
    obtain ⟨i, hi, rfl⟩ := List.mem_map.1 hn
    exact hword i (List.mem_range.1 hi)
  have hle := (hnodup.subperm hsubset).length_le
  rwa [List.length_map, List.length_map, List.length_range] at hle

variable (hfew : s.numbering.length ≤ 65535)

include hfew

theorem number_labelsOf_lt {label : String} (h : s.IsLabel label) :
    ((labelsOf s).number label).toUInt16.toNat < (labelsOf s).size :=
  (indexed_labelsOf s).number_lt (by rwa [size_labelsOf]) (mem_labelsOf.2 h)

theorem getElem?_number {label : String} (h : s.IsLabel label) :
    s.numbering[((labelsOf s).number label).toUInt16.toNat]? = some label := by
  have hnumber := (indexed_labelsOf s).number?_eq (mem_labelsOf.2 h)
  rw [← toList_labelsOf s, ← (indexed_labelsOf s).toUInt16_eq_iff (by rwa [size_labelsOf]), hnumber]
  rfl

theorem number_labelsOf_inj {label label' : String}
    (hlabel : s.IsLabel label) (hlabel' : s.IsLabel label')
    (h : ((labelsOf s).number label).toUInt16 = ((labelsOf s).number label').toUInt16) :
    label = label' := by
  have hget := getElem?_number hfew hlabel
  rw [h, getElem?_number hfew hlabel'] at hget
  exact (Option.some.inj hget).symm

theorem productionsOf_names (lexicon : LabelTable) :
    ∀ p ∈ productionsOf s (labelsOf s) lexicon, Names (labelsOf s).size p := by
  intro p hp
  rcases List.mem_append.1 hp with hp | hp
  · obtain ⟨entry, hentry, rfl⟩ := List.mem_map.1 hp
    exact ⟨number_labelsOf_lt hfew (.inr (.inl ⟨entry, hentry, rfl⟩)), trivial⟩
  · obtain ⟨rule, hrule, rfl⟩ := List.mem_map.1 hp
    have hparent := number_labelsOf_lt hfew (.inr (.inr ⟨rule, hrule, .inl rfl⟩))
    have hleft := number_labelsOf_lt hfew (isLabel_left hrule)
    refine ⟨hparent, ?_⟩
    cases hright : rule.right with
    | none => simpa [ruleProduction, hright] using hleft
    | some label =>
      have hlabel := number_labelsOf_lt hfew (isLabel_right hrule hright)
      simpa [ruleProduction, hright] using ⟨hleft, hlabel⟩

theorem pair_in_children {left right : UInt16} {lexicon : LabelTable}
    (h : (left, right) ∈ pairsOf (productionsOf s (labelsOf s) lexicon)) :
    left.toNat < (labelsOf s).size ∧
      (s.bounds s.numbering).leftChildren.contains left = true ∧
      (s.bounds s.numbering).rightChildren.contains right = true := by
  obtain ⟨rule, hrule, rfl, label, hright, rfl⟩ := mem_pairsOf_productionsOf.1 h
  have hbinary : rule.isBinary = true := by rw [LabelledRule.isBinary, hright]; rfl
  refine ⟨number_labelsOf_lt hfew (isLabel_left hrule), ?_, ?_⟩
  · exact s.leftChildren_of_isLeft hfew (getElem?_number hfew (isLabel_left hrule))
      ⟨rule, hrule, hbinary, rfl⟩
  · exact s.rightChildren_of_isRight hfew (getElem?_number hfew (isLabel_right hrule hright))
      ⟨rule, hrule, hright⟩

theorem length_rulesOf_productionsOf (lexicon : LabelTable) :
    (rulesOf (productionsOf s (labelsOf s) lexicon)).length = s.binaryRules.length := by
  have hmap : (binaryOf (productionsOf s (labelsOf s) lexicon)).map (fun r => (r.1, r.2.1, r.2.2.1)) =
      (s.rules.filterMap fun r => r.right.map fun right => (r.parent, r.left, right)).map
        fun (p, l, r) => (((labelsOf s).number p).toUInt16, ((labelsOf s).number l).toUInt16,
          ((labelsOf s).number r).toUInt16) := by
    rw [binaryOf_productionsOf, List.map_filterMap, List.map_filterMap]
    refine List.filterMap_congr fun r _ => ?_
    cases r.right <;> rfl
  have hlabels {p l r : String}
      (h : (p, l, r) ∈ s.rules.filterMap fun r => r.right.map fun right => (r.parent, r.left, right)) :
      s.IsLabel p ∧ s.IsLabel l ∧ s.IsLabel r := by
    obtain ⟨rule, hrule, heq⟩ := List.mem_filterMap.1 h
    obtain ⟨right, hright, heq⟩ := Option.map_eq_some_iff.1 heq
    cases heq
    exact ⟨.inr (.inr ⟨rule, hrule, .inl rfl⟩), isLabel_left hrule, isLabel_right hrule hright⟩
  rw [rulesOf, hmap]
  apply length_dedup_map
  rintro ⟨p, l, r⟩ h ⟨p', l', r'⟩ h' heq
  obtain ⟨hp, hl, hr⟩ := hlabels h
  obtain ⟨hp', hl', hr'⟩ := hlabels h'
  simp only [Prod.mk.injEq] at heq ⊢
  exact ⟨number_labelsOf_inj hfew hp hp' heq.1, number_labelsOf_inj hfew hl hl' heq.2.1,
    number_labelsOf_inj hfew hr hr' heq.2.2⟩

/-- The numbers of words wrap only where their tags are too many anyway. -/
theorem length_tagsOf_productionsOf :
    2 ^ 32 ≤ (tagsOf (productionsOf s (labelsOf s) (.ofList s.words))).length ↔
      2 ^ 32 ≤ s.wordTags.length := by
  set number := fun (tag, word) =>
    (((labelsOf s).number tag).toUInt16, (LabelTable.ofList s.words).number word)
  have hmap : tagsOf (productionsOf s (labelsOf s) (.ofList s.words)) =
      ((s.lexicon.map fun e => (e.parent, e.left)).map number).dedup := by
    rw [tagsOf, lexicalOf_productionsOf, List.map_map, List.map_map]
    rfl
  rcases Nat.lt_or_ge (2 ^ 32) (LabelTable.ofList s.words).size with hmany | hwords
  · have htags := le_length_tagsOf_of_many (labelsOf s) hmany
    refine ⟨fun _ => ?_, fun _ => htags⟩
    rw [hmap] at htags
    exact Nat.le_trans htags (length_dedup_map_le _ _)
  · rw [hmap, length_dedup_map]
    · rfl
    have hmem {e : LabelledRule} (he : e ∈ s.lexicon) :
        e.left ∈ (LabelTable.ofList s.words).toList :=
      LabelTable.mem_ofList.2 (List.mem_map_of_mem he)
    intro x hx y hy heq
    obtain ⟨e, he, rfl⟩ := List.mem_map.1 hx
    obtain ⟨e', he', rfl⟩ := List.mem_map.1 hy
    obtain ⟨htag, hword⟩ := Prod.mk.inj heq
    rw [number_labelsOf_inj hfew (.inr (.inl ⟨e, he, rfl⟩)) (.inr (.inl ⟨e', he', rfl⟩)) htag,
      (LabelTable.indexed_ofList s.words).number_inj hwords (hmem he) (hmem he') hword]

theorem crowded_productionsOf :
    Grammar.Crowded (productionsOf s (labelsOf s) (.ofList s.words)) ↔ s.Crowded := by
  rw [Grammar.Crowded, GrammarSource.Crowded, length_rulesOf_productionsOf hfew,
    length_tagsOf_productionsOf hfew]

/-- With labels few enough, compiling is decided by the packing and by the offsets. -/
theorem compile_eq_of_few (kind : PackingKind) :
    (kind ≠ .perfectHash ∧ maxKeyCount < (s.bounds s.numbering).keyCount ∧
      compile s kind = .error (.packingOverflow .shift (s.bounds s.numbering).keyCount)) ∨
    ((kind = .perfectHash ∨ (s.bounds s.numbering).keyCount ≤ maxKeyCount) ∧
      (¬s.Crowded → ∃ g, compile s kind = .ok g) ∧
      (s.Crowded → compile s kind = .error .indexOutOfRange)) := by
  rw [compile_eq, if_neg (Nat.not_lt.2 hfew)]
  rcases Packing.build_eq kind (s.bounds s.numbering)
    (pairsOf (productionsOf s (labelsOf s) (.ofList s.words))) with
    ⟨hkind, hmany, herror⟩ | ⟨hroom, packing, hpacking⟩
  · refine .inl ⟨hkind, hmany, ofProductions_of_packing_error ?_ herror⟩
    rintro ⟨left, right⟩ hpair
    exact (pair_in_children hfew hpair).1
  · have hkeys : ∀ pair ∈ pairsOf (productionsOf s (labelsOf s) (.ofList s.words)),
        ∃ key, packing.pack pair.1 pair.2 = some key := by
      rintro ⟨left, right⟩ hpair
      obtain ⟨-, hleft, hright⟩ := pair_in_children hfew hpair
      exact Packing.exists_key_of_mem hpacking hpair hleft hright
    obtain ⟨hok, herror⟩ := ofProductions_of_pairs ((labelsOf s).number s.start).toUInt16
      (by rwa [size_labelsOf]) (productionsOf_names hfew _) (productionsOf_words s _) hpacking hkeys
    rw [crowded_productionsOf hfew] at hok herror
    refine .inr ⟨hroom, fun hfew => ?_, herror⟩
    obtain ⟨g, hg, -⟩ := hok hfew
    exact ⟨g, hg⟩

theorem made_of_compile {kind : PackingKind} {g : Grammar} (h : compile s kind = .ok g) :
    g.start = ((labelsOf s).number s.start).toUInt16 ∧ g.bounds = s.bounds s.numbering ∧
      ∃ binary, Made (labelsOf s) (.ofList s.words) (s.bounds s.numbering)
        (productionsOf s (labelsOf s) (.ofList s.words)) kind g binary := by
  rw [compile_eq, if_neg (Nat.not_lt.2 hfew)] at h
  obtain ⟨hstart, binary, hmade⟩ := ofProductions_ok h
  exact ⟨hstart, bounds_of_ofProductions h, binary, hmade⟩

theorem classifies_of_few {kind : PackingKind} {g : Grammar} (h : compile s kind = .ok g) :
    g.Classifies s := by
  obtain ⟨-, hbounds, binary, hmade⟩ := made_of_compile hfew h
  have hlabels : g.labels = labelsOf s := hmade.labels_eq
  have hlist : g.labels.toList = s.numbering := by rw [hlabels, toList_labelsOf]
  have hsize : (labelsOf s).size ≤ 65535 := by rwa [size_labelsOf]
  have hnumber (label : String) (nt : UInt16) :
      g.number? label = some nt ↔ s.numbering[nt.toNat]? = some label := by
    rw [number?, hlabels, (indexed_labelsOf s).toUInt16_eq_iff hsize, toList_labelsOf]
  have hnumberOf {label : String} (hlabel : s.IsLabel label) :
      g.number? label = some ((labelsOf s).number label).toUInt16 :=
    (hnumber label _).2 (getElem?_number hfew hlabel)
  constructor
  case numbering => rw [hlist]; exact s.numbering_numbering
  case length_le => rwa [hlist]
  case number => rwa [hlist]
  case bounds => rw [hbounds, hlist]
  case classOf =>
    intro label nt hnt c
    rw [hbounds]
    exact s.classOf_bounds_iff hfew ((hnumber label nt).1 hnt)
  case interval =>
    intro label nt hnt c
    rw [hbounds]
    exact s.interval_bounds_iff hfew ((hnumber label nt).1 hnt)
  case children =>
    intro rule hrule label hright
    have hpair : (_, _) ∈ pairsOf (productionsOf s (labelsOf s) (.ofList s.words)) :=
      mem_pairsOf_productionsOf.2 ⟨rule, hrule, rfl, label, hright, rfl⟩
    obtain ⟨-, hleft, hrightChild⟩ := pair_in_children hfew hpair
    rw [hbounds]
    exact ⟨_, _, hnumberOf (isLabel_left hrule), hnumberOf (isLabel_right hrule hright), hleft,
      hrightChild⟩
  case siblings =>
    intro left
    have hrights : g.rightsOf s left = {right |
        (left, right) ∈ pairsOf (productionsOf s (labelsOf s) (.ofList s.words))} := by
      ext right
      refine Iff.trans ?_ mem_pairsOf_productionsOf.symm
      refine exists_congr fun rule => and_congr_right fun hrule => ?_
      rw [hnumberOf (isLabel_left hrule), Option.some.injEq]
      refine and_congr_right fun _ => exists_congr fun label => and_congr_right fun hright => ?_
      rw [hnumberOf (isLabel_right hrule hright), Option.some.injEq]
    rw [siblingRange?, hmade.ranges, hrights]
    by_cases hleft : left.toNat < (labelsOf s).size
    · exact spans_rangesOf hleft
    · rw [Array.getD_eq_getD_getElem?, Array.getElem?_eq_none
        (by rw [size_rangesOf]; exact Nat.le_of_not_lt hleft)]
      refine Set.eq_empty_of_forall_notMem fun right hpair => hleft ?_
      exact (pair_in_children hfew hpair).1

end Compiled

/-- Compiling fails just for the size of a source, with the fault that its size has; and a
grammar it gives has just the labels of the source, each numbered in the run of its class, and
all children of binary rules where left and right children are, in exact ranges. -/
theorem compile_classifies (s : GrammarSource) (kind : PackingKind) :
    (∀ e, compile s kind = .error e ↔ s.Oversized kind e) ∧
      ∀ g, compile s kind = .ok g → g.Classifies s := by
  by_cases hfew : s.numbering.length ≤ 65535
  · refine ⟨fun e => ?_, fun g => classifies_of_few hfew⟩
    constructor
    · intro herror
      rcases compile_eq_of_few hfew kind with ⟨hkind, hmany, heq⟩ | ⟨hroom, hok, hstop⟩
      · obtain rfl := Except.error.inj (herror.symm.trans heq)
        exact .keys s.numbering_numbering hfew hkind hmany
      · by_cases hcrowded : s.Crowded
        · obtain rfl := Except.error.inj (herror.symm.trans (hstop hcrowded))
          exact .offsets s.numbering_numbering hfew hroom hcrowded
        · obtain ⟨g, hg⟩ := hok hcrowded
          cases herror.symm.trans hg
    · rintro (⟨hlabels, hmany⟩ | ⟨hlabels, -, hkind, hmany⟩ | ⟨hlabels, -, hroom, hcrowded⟩)
      · rw [(hlabels.perm s.numbering_numbering).length_eq] at hmany
        exact absurd hmany (Nat.not_lt.2 hfew)
      · rw [hlabels.bounds_eq s.numbering_numbering] at hmany ⊢
        rcases compile_eq_of_few hfew kind with ⟨-, -, heq⟩ | ⟨hroom, -⟩
        · exact heq
        · rcases hroom with hhash | hroom
          · exact absurd hhash hkind
          · exact absurd hmany (Nat.not_lt.2 hroom)
      · rw [hlabels.bounds_eq s.numbering_numbering] at hroom
        rcases compile_eq_of_few hfew kind with ⟨hkind, hmany, -⟩ | ⟨-, -, hstop⟩
        · rcases hroom with hhash | hroom
          · exact absurd hhash hkind
          · exact absurd hmany (Nat.not_lt.2 hroom)
        · exact hstop hcrowded
  · have hmany : 65535 < s.numbering.length := Nat.lt_of_not_le hfew
    have heq : compile s kind = .error (.tooManyNonTerminals s.numbering.length) := by
      rw [compile_eq, if_pos hmany]
    refine ⟨fun e => ?_, fun g hg => by cases heq.symm.trans hg⟩
    constructor
    · intro herror
      obtain rfl := Except.error.inj (herror.symm.trans heq)
      exact .labels s.numbering_numbering hmany
    · rintro (⟨hlabels, -⟩ | ⟨hlabels, hlength, -, -⟩ | ⟨hlabels, hlength, -, -⟩)
      · rw [heq, (hlabels.perm s.numbering_numbering).length_eq]
      · rw [(hlabels.perm s.numbering_numbering).length_eq] at hlength
        exact absurd hlength hfew
      · rw [(hlabels.perm s.numbering_numbering).length_eq] at hlength
        exact absurd hlength hfew

theorem compile_classifies_sample : ∃ g, compile (.sample true) .perfectHash = .ok g ∧
    g.Classifies (.sample true) := by
  obtain ⟨g, hg, -⟩ := exists_sample_under true .perfectHash
  exact ⟨g, hg, (compile_classifies (.sample true) .perfectHash).2 g hg⟩

end Grammar
end ChartParsing

import ChartParsing.Proofs.Grammar.Compile
import ChartParsing.Proofs.Label.Class
import ChartParsing.Proofs.SortedSearch
import Mathlib.Data.List.Perm.Basic

/-!
# The numbers of a source's labels

The class of a label is determined by the places it stands in, wherever in the source they
are. The labels are numbered class by class, and in a class by label. A source then compiles
to the grammar of its productions over these numbers, unless there are too many labels.
-/

namespace ChartParsing

namespace GrammarSource

/-- A label is the parent of an entry of the lexicon. -/
def IsTag (s : GrammarSource) (label : String) : Prop :=
  ∃ entry ∈ s.lexicon, entry.parent = label

/-- A label is the left child of a binary rule. -/
def IsLeft (s : GrammarSource) (label : String) : Prop :=
  ∃ rule ∈ s.rules, rule.isBinary = true ∧ rule.left = label

/-- A label is the right child of a rule. -/
def IsRight (s : GrammarSource) (label : String) : Prop :=
  ∃ rule ∈ s.rules, rule.right = some label

/-- A label is a non-terminal of the source. -/
def IsLabel (s : GrammarSource) (label : String) : Prop :=
  label = s.start ∨ s.IsTag label ∨
    ∃ rule ∈ s.rules, rule.parent = label ∨ rule.left = label ∨ rule.right = some label

/-- The class of a label, by the places it stands in. -/
def InClass (s : GrammarSource) (label : String) : LabelClass → Prop
  | .partOfSpeech => s.IsTag label
  | .eitherChild => ¬s.IsTag label ∧ s.IsLeft label ∧ s.IsRight label
  | .leftChildOnly => ¬s.IsTag label ∧ s.IsLeft label ∧ ¬s.IsRight label
  | .rightChildOnly => ¬s.IsTag label ∧ ¬s.IsLeft label ∧ s.IsRight label
  | .unaryChildOnly => ¬s.IsTag label ∧ ¬s.IsLeft label ∧ ¬s.IsRight label

variable (s : GrammarSource) (label : String)

instance : Decidable (s.IsTag label) :=
  inferInstanceAs (Decidable (∃ entry ∈ s.lexicon, entry.parent = label))

instance : Decidable (s.IsLeft label) :=
  inferInstanceAs (Decidable (∃ rule ∈ s.rules, rule.isBinary = true ∧ rule.left = label))

instance : Decidable (s.IsRight label) :=
  inferInstanceAs (Decidable (∃ rule ∈ s.rules, rule.right = some label))

instance : (c : LabelClass) → Decidable (s.InClass label c)
  | .partOfSpeech => inferInstanceAs (Decidable (s.IsTag label))
  | .eitherChild => inferInstanceAs (Decidable (¬_ ∧ _ ∧ _))
  | .leftChildOnly => inferInstanceAs (Decidable (¬_ ∧ _ ∧ ¬_))
  | .rightChildOnly => inferInstanceAs (Decidable (¬_ ∧ ¬_ ∧ _))
  | .unaryChildOnly => inferInstanceAs (Decidable (¬_ ∧ ¬_ ∧ ¬_))

/-- The labels of a source are listed once each, class by class and by label in a class. -/
structure Numbering (s : GrammarSource) (labels : List String) : Prop where
  nodup : labels.Nodup
  mem : ∀ label, label ∈ labels ↔ s.IsLabel label
  sorted : labels.Pairwise fun l m => ∀ c d, s.InClass l c → s.InClass m d →
    c.rank < d.rank ∨ (c = d ∧ l < m)

/-- The bounds of the classes of the labels in a list. -/
def bounds (s : GrammarSource) (labels : List String) : ClassBounds :=
  .ofSizes fun c => labels.countP fun label => s.InClass label c

/-- The labels of a source in the order in which they are numbered. -/
def numbering (s : GrammarSource) : List String :=
  LabelClass.all.flatMap (Occurrences.ofSource s).members

/-- The words of the lexicon, as often as they have an entry. -/
def words (s : GrammarSource) : List String := s.lexicon.map (·.left)

end GrammarSource

/-! ## Classes -/

namespace Occurrences

open GrammarSource

variable {s : GrammarSource} {label : String} {c : LabelClass}

theorem contains_tags : (ofSource s).tags.contains label = true ↔ s.IsTag label := by
  simp [ofSource, Std.HashSet.contains_ofList, IsTag]

theorem contains_lefts : (ofSource s).lefts.contains label = true ↔ s.IsLeft label := by
  simp [ofSource, Std.HashSet.contains_ofList, IsLeft, and_assoc]

theorem contains_rights : (ofSource s).rights.contains label = true ↔ s.IsRight label := by
  simp [ofSource, Std.HashSet.contains_ofList, IsRight]

/-- The class that a label is put in is that of the places it stands in. -/
theorem classOf_eq_iff : (ofSource s).classOf label = c ↔ s.InClass label c := by
  rw [classOf]
  by_cases htag : s.IsTag label
  · rw [if_pos (contains_tags.2 htag)]
    cases c <;> simp [InClass, htag]
  · rw [if_neg fun h => htag (contains_tags.1 h)]
    have hlefts : (ofSource s).lefts.contains label = decide (s.IsLeft label) :=
      Bool.eq_iff_iff.2 (by rw [contains_lefts, decide_eq_true_iff])
    have hrights : (ofSource s).rights.contains label = decide (s.IsRight label) :=
      Bool.eq_iff_iff.2 (by rw [contains_rights, decide_eq_true_iff])
    rw [hlefts, hrights]
    by_cases hleft : s.IsLeft label <;> by_cases hright : s.IsRight label <;>
      cases c <;> simp [InClass, htag, hleft, hright]

theorem mem_labels : label ∈ (ofSource s).labels ↔ s.IsLabel label := by
  simp only [ofSource, SortedSearch.mem_sortedDistinct, labelsOf, List.mem_append, List.mem_cons,
    List.mem_map, List.mem_flatMap, Option.mem_toList, IsLabel, IsTag, or_assoc, eq_comm]

theorem nodup_labels : (ofSource s).labels.Nodup :=
  SortedSearch.nodup_sortedDistinct (fun _ _ _ => String.le_trans) String.le_total
    (fun _ _ => String.le_antisymm) _

theorem increasing_labels : (ofSource s).labels.Pairwise fun l m => l < m := by
  refine (SortedSearch.increasing_sortedDistinct (fun _ _ _ => String.le_trans) String.le_total
    (fun _ _ => String.le_antisymm) _).imp ?_
  rintro l m ⟨hle, hne⟩
  exact Std.lt_of_le_of_ne hle hne

theorem mem_members : label ∈ (ofSource s).members c ↔ s.IsLabel label ∧ s.InClass label c := by
  rw [members, List.mem_filter, mem_labels, decide_eq_true_iff, classOf_eq_iff]

end Occurrences

namespace GrammarSource

open Occurrences

variable {s : GrammarSource} {label : String} {labels labels' : List String}

theorem InClass.unique {c d : LabelClass} (hc : s.InClass label c) (hd : s.InClass label d) :
    c = d :=
  (classOf_eq_iff.2 hc).symm.trans (classOf_eq_iff.2 hd)

theorem exists_inClass (s : GrammarSource) (label : String) : ∃ c, s.InClass label c :=
  ⟨_, classOf_eq_iff.1 rfl⟩

theorem numbering_numbering (s : GrammarSource) : s.Numbering s.numbering := by
  have hclasses : LabelClass.all.Pairwise fun c d => c.rank < d.rank := by decide
  constructor
  case nodup =>
    refine List.nodup_flatMap.2 ⟨fun c _ => nodup_labels.filter _, ?_⟩
    refine hclasses.imp fun {c d} hlt label hc hd => ?_
    have heq := (mem_members.1 hc).2.unique (mem_members.1 hd).2
    exact Nat.lt_irrefl _ (heq ▸ hlt)
  case mem =>
    intro label
    rw [numbering, List.mem_flatMap]
    constructor
    · rintro ⟨c, -, hmem⟩
      exact (mem_members.1 hmem).1
    · intro hlabel
      obtain ⟨c, hc⟩ := s.exists_inClass label
      exact ⟨c, c.mem_all, mem_members.2 ⟨hlabel, hc⟩⟩
  case sorted =>
    refine List.pairwise_flatMap.2 ⟨fun e _ => ?_, hclasses.imp ?_⟩
    · refine (increasing_labels.filter _).imp_of_mem ?_
      intro l m hl hm hlt c d hc hd
      refine .inr ⟨?_, hlt⟩
      rw [hc.unique (mem_members.1 hl).2, hd.unique (mem_members.1 hm).2]
    · intro e f hlt l hl m hm c d hc hd
      refine .inl ?_
      rwa [hc.unique (mem_members.1 hl).2, hd.unique (mem_members.1 hm).2]

/-- A numbering has as many labels as any other, and as many of each class. -/
theorem Numbering.perm (h : s.Numbering labels) (h' : s.Numbering labels') :
    labels.Perm labels' :=
  (List.perm_ext_iff_of_nodup h.nodup h'.nodup).2 fun label => by rw [h.mem, h'.mem]

theorem Numbering.bounds_eq (h : s.Numbering labels) (h' : s.Numbering labels') :
    s.bounds labels = s.bounds labels' := by
  unfold bounds
  simp only [(h.perm h').countP_eq]

theorem length_members (c : LabelClass) : ((ofSource s).members c).length =
    s.numbering.countP fun label => s.InClass label c := by
  have hperm : s.numbering.Perm (ofSource s).labels :=
    (List.perm_ext_iff_of_nodup s.numbering_numbering.nodup nodup_labels).2 fun label => by
      rw [s.numbering_numbering.mem, mem_labels]
  rw [hperm.countP_eq, members, List.countP_eq_length_filter]
  simp only [classOf_eq_iff]

end GrammarSource

/-! ## Productions -/

namespace LabelTable

/-- The number of a label, zero if it has none. -/
def number (t : LabelTable) (label : String) : UInt32 := (t.number? label).getD 0

theorem Indexed.number?_eq (h : Indexed t) {label : String} (hmem : label ∈ t.toList) :
    t.number? label = some (t.number label) := by
  obtain ⟨n, hn⟩ := h.isSome_iff.2 hmem
  rw [LabelTable.number, hn, Option.getD_some]

theorem Indexed.number_inj (h : Indexed t) (hsize : t.size ≤ 2 ^ 32) {label label' : String}
    (hmem : label ∈ t.toList) (hmem' : label' ∈ t.toList) (heq : t.number label = t.number label') :
    label = label' := by
  have hget := (h.number_eq_iff hsize).1 (h.number?_eq hmem)
  rw [heq, (h.number_eq_iff hsize).1 (h.number?_eq hmem')] at hget
  exact (Option.some.inj hget).symm

theorem number?_insert_self (t : LabelTable) (label : String) :
    (t.insert label).2.number? label = some (t.insert label).1 := by
  rw [number?_insert]
  cases h : t.number? label with
  | some n => simp [insert_of_number? t h]
  | none => simp [insert, h]

/-- A number that a label has is kept while other labels are entered. -/
theorem number?_insertAll {t : LabelTable} {label : String} {n : UInt32}
    (h : t.number? label = some n) (labels : List String) :
    (labels.foldl (fun t label => (t.insert label).2) t).number? label = some n := by
  induction labels generalizing t with
  | nil => exact h
  | cons other labels ih =>
    refine ih ?_
    rw [number?_insert, if_neg, h]
    rintro ⟨hnone, rfl⟩
    rw [h] at hnone
    cases hnone

end LabelTable

namespace Grammar

/-- The production of an entry over given tables. -/
def entryProduction (labels lexicon : LabelTable) (entry : LabelledRule) : Production :=
  ⟨(labels.number entry.parent).toUInt16, .lexical (lexicon.number entry.left), entry.logProb⟩

/-- The production of a rule over a given table. -/
def ruleProduction (labels : LabelTable) (rule : LabelledRule) : Production :=
  ⟨(labels.number rule.parent).toUInt16,
    match rule.right with
    | some right => .binary (labels.number rule.left).toUInt16 (labels.number right).toUInt16
    | none => .unary (labels.number rule.left).toUInt16,
    rule.logProb⟩

/-- The productions of a source over given tables. -/
def productionsOf (s : GrammarSource) (labels lexicon : LabelTable) : List Production :=
  s.lexicon.map (entryProduction labels lexicon) ++ s.rules.map (ruleProduction labels)

variable {labels : LabelTable}

theorem numberIn_eq (h : labels.Indexed) {label : String} (hmem : label ∈ labels.toList) :
    numberIn labels label = .ok (labels.number label).toUInt16 := by
  rw [numberIn, h.number?_eq hmem]

theorem compileEntries_eq (h : labels.Indexed) {entries : List LabelledRule}
    (hmem : ∀ entry ∈ entries, entry.parent ∈ labels.toList) (t : LabelTable)
    (done : List Production) :
    let lexicon := (entries.map (·.left)).foldl (fun t word => (t.insert word).2) t
    entries.foldlM (compileEntry labels) (t, done) =
      .ok (lexicon, (entries.map (entryProduction labels lexicon)).reverse ++ done) := by
  induction entries generalizing t done with
  | nil => rfl
  | cons entry entries ih =>
    intro lexicon
    have hkept : lexicon.number? entry.left = some (t.insert entry.left).1 :=
      LabelTable.number?_insertAll (t.number?_insert_self entry.left) _
    have hword : lexicon.number entry.left = (t.insert entry.left).1 := by
      rw [LabelTable.number, hkept, Option.getD_some]
    have hentry : compileEntry labels (t, done) entry =
        .ok ((t.insert entry.left).2, entryProduction labels lexicon entry :: done) := by
      rw [compileEntry, numberIn_eq h (hmem entry List.mem_cons_self), entryProduction, hword]
      rfl
    rw [List.foldlM_cons, hentry]
    refine (ih (fun e he => hmem e (List.mem_cons_of_mem _ he)) _ _).trans ?_
    rw [List.map_cons, List.reverse_cons, List.append_assoc]
    rfl

theorem compileRules_eq (h : labels.Indexed) {rules : List LabelledRule}
    (hmem : ∀ rule ∈ rules, rule.parent ∈ labels.toList ∧ rule.left ∈ labels.toList ∧
      ∀ right, rule.right = some right → right ∈ labels.toList) :
    rules.mapM (compileRule labels) = .ok (rules.map (ruleProduction labels)) := by
  induction rules with
  | nil => rfl
  | cons rule rules ih =>
    obtain ⟨hparent, hleft, hright⟩ := hmem rule List.mem_cons_self
    have hrule : compileRule labels rule = .ok (ruleProduction labels rule) := by
      rw [compileRule, numberIn_eq h hparent, numberIn_eq h hleft, ruleProduction]
      cases hr : rule.right with
      | some right =>
        simp only [bind, Except.bind, numberIn_eq h (hright right hr)]
        rfl
      | none => rfl
    rw [List.mapM_cons, hrule, ih fun r hr => hmem r (List.mem_cons_of_mem _ hr)]
    rfl

/-- A source is compiled to the grammar of its productions, if its labels are few enough. -/
theorem compile_eq (s : GrammarSource) (kind : PackingKind) : compile s kind =
    if 65535 < s.numbering.length then .error (.tooManyNonTerminals s.numbering.length)
    else ofProductions ((LabelTable.ofList s.numbering).number s.start).toUInt16
      (.ofList s.numbering) (.ofList s.words) (s.bounds s.numbering)
      (productionsOf s (.ofList s.numbering) (.ofList s.words)) kind := by
  have hlength : (Occurrences.ofSource s).labels.length = s.numbering.length :=
    (Occurrences.length_members _).symm
  have hbounds : (ClassBounds.ofSizes fun c => ((Occurrences.ofSource s).members c).length) =
      s.bounds s.numbering := by
    unfold GrammarSource.bounds
    simp only [GrammarSource.length_members]
  have hindexed := LabelTable.indexed_ofList s.numbering
  have hmem {label : String} (hlabel : s.IsLabel label) :
      label ∈ (LabelTable.ofList s.numbering).toList :=
    LabelTable.mem_ofList.2 ((s.numbering_numbering.mem label).2 hlabel)
  have hentries := compileEntries_eq hindexed
    (fun entry (hentry : entry ∈ s.lexicon) => hmem (.inr (.inl ⟨entry, hentry, rfl⟩))) ∅ []
  have hrules := compileRules_eq hindexed fun rule (hrule : rule ∈ s.rules) =>
    ⟨hmem (.inr (.inr ⟨rule, hrule, .inl rfl⟩)), hmem (.inr (.inr ⟨rule, hrule, .inr (.inl rfl)⟩)),
      fun right hright => hmem (.inr (.inr ⟨rule, hrule, .inr (.inr hright)⟩))⟩
  have hstart := numberIn_eq hindexed (hmem (.inl rfl))
  unfold compile
  dsimp only
  rw [hlength, hbounds]
  change (if s.numbering.length > 65535 then _ else _) = _
  split_ifs with hmany
  · rfl
  · change (s.lexicon.foldlM (compileEntry (.ofList s.numbering)) (∅, [])).bind _ = _
    rw [hentries]
    change (s.rules.mapM (compileRule (.ofList s.numbering))).bind _ = _
    rw [hrules]
    change (numberIn (.ofList s.numbering) s.start).bind _ = _
    rw [hstart, List.append_nil]
    change ofProductions _ _ _ _ (List.reverse (List.reverse _) ++ _) _ = _
    rw [List.reverse_reverse]
    rfl

/-! ## Productions of each kind -/

theorem binaryOf_productionsOf (s : GrammarSource) (labels lexicon : LabelTable) :
    binaryOf (productionsOf s labels lexicon) = s.rules.filterMap fun r => r.right.map fun right =>
      ((labels.number r.parent).toUInt16, (labels.number r.left).toUInt16,
        (labels.number right).toUInt16, r.logProb) := by
  have hentries : binaryOf (s.lexicon.map (entryProduction labels lexicon)) = [] := by
    simp [binaryOf, entryProduction]
  rw [binaryOf] at hentries
  rw [binaryOf, productionsOf, List.filterMap_append, hentries, List.nil_append,
    List.filterMap_map]
  apply List.filterMap_congr
  intro r _
  cases hright : r.right <;> simp [ruleProduction, hright]

theorem unaryOf_productionsOf (s : GrammarSource) (labels lexicon : LabelTable) :
    unaryOf (productionsOf s labels lexicon) = s.rules.filterMap fun r =>
      if r.right = none then some ((labels.number r.parent).toUInt16,
        (labels.number r.left).toUInt16, r.logProb) else none := by
  have hentries : unaryOf (s.lexicon.map (entryProduction labels lexicon)) = [] := by
    simp [unaryOf, entryProduction]
  rw [unaryOf] at hentries
  rw [unaryOf, productionsOf, List.filterMap_append, hentries, List.nil_append,
    List.filterMap_map]
  apply List.filterMap_congr
  intro r _
  cases hright : r.right <;> simp [ruleProduction, hright]

theorem lexicalOf_productionsOf (s : GrammarSource) (labels lexicon : LabelTable) :
    lexicalOf (productionsOf s labels lexicon) = s.lexicon.map fun e =>
      ((labels.number e.parent).toUInt16, lexicon.number e.left, e.logProb) := by
  have hrules : lexicalOf (s.rules.map (ruleProduction labels)) = [] := by
    apply List.filterMap_eq_nil_iff.2
    intro p hp
    obtain ⟨rule, -, rfl⟩ := List.mem_map.1 hp
    cases hright : rule.right <;> simp [ruleProduction, hright]
  rw [lexicalOf] at hrules
  rw [lexicalOf, productionsOf, List.filterMap_append, hrules, List.append_nil]
  simp [entryProduction, Function.comp_def]

end Grammar
end ChartParsing

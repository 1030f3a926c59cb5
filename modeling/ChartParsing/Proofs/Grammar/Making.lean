import ChartParsing.Proofs.Grammar.Crowded

/-!
# Making a grammar

A grammar can be made of any productions that name only its own non-terminals and words
and whose pairs of children the packing takes. The tables of siblings never stand in the
way: their keys are below their size by construction.
-/

namespace ChartParsing

/-- Siblings never stand in the way of a table, if there are few enough rules. -/
theorem SiblingIndex.exists_ofEntries? (labels : Nat) (entries : List Entry)
    (rules : List (UInt16 × UInt16 × UInt16)) (hfew : rules.length < 2 ^ 32)
    (hrules : ∀ e ∈ entries, (e.parent, e.sibling, e.child) ∈ rules) :
    ∃ index, ofEntries? labels entries = some index := by
  unfold ofEntries?
  dsimp only
  set hash := PairHash.build ⟨0, UInt16.ofNat labels⟩
    (entries.map fun e => (e.parent, e.sibling))
  have hbucketed : Triple.Bucketed hash.size (entries.filterMap fun e =>
      (hash.pack e.parent e.sibling).map fun key => Triple.inColumn e.child key e.value) := by
    refine Triple.bucketed_iff.2 ⟨?_, Nat.lt_of_le_of_lt ?_ hfew⟩
    · intro t ht
      obtain ⟨e, -, he⟩ := List.mem_filterMap.1 ht
      obtain ⟨key, hkey, rfl⟩ := Option.map_eq_some_iff.1 he
      exact (PairHash.unpack_of_pack hkey).2
    · refine Triple.length_positions_le
        (fun (p, sibling, child) => ((hash.pack p sibling).getD 0, child.toUInt32)) ?_
      intro t ht
      obtain ⟨e, he, hpack⟩ := List.mem_filterMap.1 ht
      obtain ⟨key, hkey, rfl⟩ := Option.map_eq_some_iff.1 hpack
      exact ⟨_, hrules e he, by simp [hkey, Triple.inColumn]⟩
  obtain ⟨matrix, hmatrix⟩ := ColumnMatrix.exists_ofTriples? hbucketed
  exact ⟨⟨hash, matrix⟩, by rw [hmatrix]; rfl⟩

namespace Grammar

variable {labels lexicon : LabelTable} {bounds : ClassBounds} {productions : List Production}
  {kind : PackingKind}

theorem exists_keyed (kind : PackingKind) {packing : Packing}
    {rules : List (UInt16 × UInt16 × UInt16 × Score)}
    (h : ∀ rule ∈ rules, ∃ key, packing.pack rule.2.1 rule.2.2.1 = some key) :
    ∃ binary, keyed kind packing rules = .ok binary := by
  unfold keyed
  induction rules with
  | nil => exact ⟨[], rfl⟩
  | cons rule rules ih =>
    obtain ⟨binary, hbinary⟩ := ih fun rule hrule => h rule (List.mem_cons_of_mem _ hrule)
    obtain ⟨key, hkey⟩ := h rule List.mem_cons_self
    refine ⟨(rule.1, key, rule.2.2.2) :: binary, ?_⟩
    rw [List.mapM_cons, hbinary]
    dsimp only
    rw [hkey]
    rfl

/-- Binary rules make a table of siblings, whichever child is the sibling. -/
theorem exists_siblings (labels : Nat) (hfew : (rulesOf productions).length < 2 ^ 32)
    (seen : UInt16 → UInt16 → UInt16 → UInt16 × UInt16 × UInt16) :
    ∃ index, SiblingIndex.ofEntries? labels ((binaryOf productions).map fun (p, l, r, v) =>
      ⟨(seen p l r).1, (seen p l r).2.1, (seen p l r).2.2, v⟩) = some index := by
  refine SiblingIndex.exists_ofEntries? labels _
    ((rulesOf productions).map fun (p, l, r) => seen p l r) (by simpa using hfew) ?_
  rintro e he
  obtain ⟨⟨p, l, r, v⟩, hmem, rfl⟩ := List.mem_map.1 he
  exact List.mem_map.2 ⟨(p, l, r), mem_rulesOf.2 ⟨v, hmem⟩, rfl⟩

/-! ## Making -/

section Making

variable (start : UInt16) {packing : Packing} (hsize : labels.size ≤ 65535)
  (hnames : ∀ p ∈ productions, Names labels.size p)
  (hwords : ∀ p ∈ productions, ∀ word, p.expansion = .lexical word → word.toNat < lexicon.size)
  (hpacking : Packing.build kind bounds (pairsOf productions) = .ok packing)
  (hpairs : ∀ pair ∈ pairsOf productions, ∃ key, packing.pack pair.1 pair.2 = some key)

include hnames

theorem lefts_known :
    ¬((pairsOf productions).any fun pair => labels.size ≤ pair.1.toNat) = true := by
  rw [List.any_eq_true]
  rintro ⟨pair, hpair, hle⟩
  obtain ⟨rule, hrule, rfl⟩ := List.mem_map.1 hpair
  exact Nat.not_lt.2 (of_decide_eq_true hle) (hnames _ (mem_binaryOf.1 hrule)).2.1

include hsize hwords hpacking hpairs

/-- Productions that name only known non-terminals and words, and whose pairs of children
have keys, make a grammar if there are few enough of them, and none otherwise. -/
theorem ofProductions_of_pairs :
    (¬Crowded productions → ∃ g,
      ofProductions start labels lexicon bounds productions kind = .ok g ∧ g.lexicon = lexicon) ∧
    (Crowded productions →
      ofProductions start labels lexicon bounds productions kind = .error .indexOutOfRange) := by
  have hlefts := lefts_known hnames
  have hlexical : ∀ t ∈ (lexicalOf productions).map fun e => Triple.inColumn e.1 e.2.1 e.2.2,
      t.major.toNat < lexicon.size :=
    List.forall_mem_map.2 fun entry hentry => hwords _ (mem_lexicalOf.1 hentry) _ rfl
  obtain ⟨binary, hbinary⟩ := exists_keyed kind
    fun rule (hrule : rule ∈ binaryOf productions) => hpairs _ (List.mem_map_of_mem hrule)
  obtain ⟨unaryByParent, hunaryByParent⟩ :=
    RowMatrix.exists_ofTriples? (bucketed_unaryByParent hsize hnames)
  obtain ⟨unaryByChild, hunaryByChild⟩ :=
    ColumnMatrix.exists_ofTriples? (bucketed_unaryByChild hsize hnames)
  unfold ofProductions
  dsimp only
  rw [if_neg hlefts, hpacking]
  simp only [bind, Except.bind, hbinary]
  by_cases hrules : (rulesOf productions).length < 2 ^ 32
  · obtain ⟨byParent, hbyParent⟩ :=
      RowMatrix.exists_ofTriples? (bucketed_byParent hbinary hnames hrules)
    obtain ⟨byPair, hbyPair⟩ :=
      ColumnMatrix.exists_ofTriples? (bucketed_byPair hpacking hbinary hrules)
    obtain ⟨left, hleft⟩ := exists_siblings labels.size hrules fun p l r => (p, r, l)
    obtain ⟨right, hright⟩ := exists_siblings labels.size hrules fun p l r => (p, l, r)
    simp only [hbyParent, hbyPair, hunaryByParent, hunaryByChild, inRange]
    by_cases htags : (tagsOf productions).length < 2 ^ 32
    · obtain ⟨lexical, hlexical⟩ := ColumnMatrix.exists_ofTriples? <|
        Triple.bucketed_iff.2 ⟨hlexical, by rwa [length_positions_lexical]⟩
      simp only [hlexical, hleft, hright]
      refine ⟨fun _ => ⟨_, rfl, rfl⟩, fun hcrowded => ?_⟩
      exact absurd hcrowded (not_or.2 ⟨Nat.not_le.2 hrules, Nat.not_le.2 htags⟩)
    · have hnone := ColumnMatrix.ofTriples?_eq_none fun h : Triple.Bucketed lexicon.size _ =>
        htags ((length_positions_lexical productions) ▸ (Triple.bucketed_iff.1 h).2)
      simp only [hnone]
      exact ⟨fun hfew => absurd (.inr (Nat.not_lt.1 htags)) hfew, fun _ => trivial⟩
  · have hnone := RowMatrix.ofTriples?_eq_none
      (not_bucketed_byParent hpacking hbinary labels.size (Nat.not_lt.1 hrules))
    simp only [hnone, inRange]
    exact ⟨fun hfew => absurd (.inl (Nat.not_lt.1 hrules)) hfew, fun _ => trivial⟩

end Making

end Grammar

/-! ## A sample -/

/-- A tag for one word, and a start symbol that joins two tags and can be raised from one. -/
def GrammarSource.sample (raised : Bool) : GrammarSource where
  start := "S"
  rules := ⟨"S", "A", some "A", 0⟩ :: if raised then [⟨"S", "A", none, 0⟩] else []
  lexicon := [⟨"A", "a", none, 0⟩]

namespace Occurrences

open GrammarSource

theorem labels_sample (raised : Bool) : (ofSource (sample raised)).labels = ["A", "S"] := by
  cases raised with
  | false =>
    change SortedSearch.sortedDistinct ["S", "A", "S", "A", "A"] = _
    simp [SortedSearch.sortedDistinct, List.mergeSort, SortedSearch.dropRepeats]
  | true =>
    change SortedSearch.sortedDistinct ["S", "A", "S", "A", "A", "S", "A"] = _
    simp [SortedSearch.sortedDistinct, List.mergeSort, SortedSearch.dropRepeats]

theorem members_sample (raised : Bool) (c : LabelClass) :
    (ofSource (sample raised)).members c =
      match c with
      | .partOfSpeech => ["A"]
      | .unaryChildOnly => ["S"]
      | _ => [] := by
  have htags : (ofSource (sample raised)).tags = .ofList ["A"] := rfl
  have hlefts : (ofSource (sample raised)).lefts = .ofList ["A"] := by cases raised <;> rfl
  have hrights : (ofSource (sample raised)).rights = .ofList ["A"] := by cases raised <;> rfl
  unfold members classOf
  rw [labels_sample, htags, hlefts, hrights]
  cases c <;> simp

end Occurrences

namespace Grammar

/-- Every rule and every entry of the lexicon has probability one. -/
structure Certain (g : Grammar) : Prop where
  tag : ∀ {tag word score}, g.HasTag tag word score → score = 0
  unary : ∀ {parent child score}, g.HasUnary parent child score → score = 0
  binary : ∀ {parent left right score}, g.HasBinary parent left right score → score = 0

theorem size_labels_sample : (LabelTable.ofList ["A", "S"]).size = 2 := by
  simp [LabelTable.ofList, LabelTable.number?_insert, LabelTable.number?_empty,
    LabelTable.size_insert]

theorem size_lexicon_sample : (LabelTable.ofList ["a"]).size = 1 := by
  simp [LabelTable.ofList, LabelTable.number?_empty, LabelTable.size_insert]

/-- The productions of the sample. -/
def sampleProductions (raised : Bool) : List Production :=
  ⟨0, .lexical 0, 0⟩ :: ⟨1, .binary 0 0, 0⟩ :: if raised then [⟨1, .unary 0, 0⟩] else []

theorem compile_sample (raised : Bool) (kind : PackingKind) :
    compile (.sample raised) kind = ofProductions 1 (.ofList ["A", "S"]) (.ofList ["a"])
      ⟨0, 0, 1, 1, 1, 2⟩ (sampleProductions raised) kind := by
  have hlabels : LabelTable.ofList
      (LabelClass.all.flatMap (Occurrences.ofSource (.sample raised)).members) =
        .ofList ["A", "S"] := by
    simp [LabelClass.all, Occurrences.members_sample]
  have hbounds : (ClassBounds.ofSizes fun c =>
      ((Occurrences.ofSource (.sample raised)).members c).length) = ⟨0, 0, 1, 1, 1, 2⟩ := by
    simp [ClassBounds.ofSizes, LabelClass.all, Occurrences.members_sample]
  have hA : numberIn (.ofList ["A", "S"]) "A" = .ok 0 := by
    simp [numberIn, LabelTable.ofList, LabelTable.number?_insert, LabelTable.number?_empty]
  have hS : numberIn (.ofList ["A", "S"]) "S" = .ok 1 := by
    simp [numberIn, LabelTable.ofList, LabelTable.number?_insert, LabelTable.number?_empty,
      LabelTable.size_insert]
  unfold compile
  dsimp only
  rw [hlabels, hbounds, Occurrences.labels_sample]
  have hwords : List.foldlM (compileEntry (.ofList ["A", "S"])) (∅, [])
      (GrammarSource.sample raised).lexicon = .ok (.ofList ["a"], [⟨0, .lexical 0, 0⟩]) := by
    unfold GrammarSource.sample
    rw [List.foldlM_cons, compileEntry]
    dsimp only
    rw [hA]
    have : ((∅ : LabelTable).insert "a").1 = 0 := by
      simp [LabelTable.insert, LabelTable.number?_empty]
    rw [this]
    rfl
  have hrules : (GrammarSource.sample raised).rules.mapM (compileRule (.ofList ["A", "S"])) =
      .ok (⟨1, .binary 0 0, 0⟩ :: if raised then [⟨1, .unary 0, 0⟩] else []) := by
    cases raised <;>
      simp [GrammarSource.sample, compileRule, hA, hS, bind, Except.bind, pure, Except.pure]
  rw [hwords, hrules]
  change ((numberIn (.ofList ["A", "S"]) "S").bind fun start => _) = _
  rw [hS]
  rfl

theorem certain_of_made {labels lexicon : LabelTable} {bounds : ClassBounds} {kind : PackingKind}
    {g : Grammar} {binary : List (UInt16 × UInt32 × Score)} {raised : Bool}
    (h : Made labels lexicon bounds (sampleProductions raised) kind g binary) : g.Certain := by
  constructor
  · intro tag word score hmem
    rw [HasTag, ColumnMatrix.mem_column h.lexical (Made.narrow_inColumn _ _ _ _)] at hmem
    have hone : lexicalOf (sampleProductions raised) = [(0, 0, 0)] := by cases raised <;> rfl
    rw [hone] at hmem
    exact Triple.eq_of_total?_singleton hmem
  · intro parent child score hmem
    rw [HasUnary, RowMatrix.mem_row h.unaryByParent] at hmem
    cases raised with
    | false => cases hmem
    | true => exact Triple.eq_of_total?_singleton hmem
  · rintro parent left right score ⟨key, -, hmem⟩
    rw [RowMatrix.mem_row h.binaryByParent] at hmem
    have hone : binaryOf (sampleProductions raised) = [(1, 0, 0, 0)] := by cases raised <;> rfl
    have hkeyed := h.keyed
    rw [hone, keyed, List.mapM_cons, bind_eq_ok] at hkeyed
    obtain ⟨entry, hentry, hkeyed⟩ := hkeyed
    obtain rfl := Except.ok.inj hkeyed
    dsimp only at hentry
    split at hentry
    · obtain rfl := Except.ok.inj hentry
      exact Triple.eq_of_total?_singleton hmem
    · cases hentry

/-- The one unary rule of the sample. -/
theorem hasUnary_sample_iff {kind : PackingKind} {g : Grammar}
    (hg : compile (.sample true) kind = .ok g) {parent child : UInt16} {score : Score} :
    g.HasUnary parent child score ↔ parent = 1 ∧ child = 0 ∧ score = 0 := by
  rw [compile_sample] at hg
  obtain ⟨-, binary, h⟩ := ofProductions_ok hg
  rw [HasUnary, RowMatrix.mem_row h.unaryByParent]
  constructor
  · intro htotal
    obtain ⟨t, ht, hrank⟩ := Triple.exists_of_total? htotal
    obtain rfl := List.mem_singleton.1 ht
    obtain ⟨hparent, hchild⟩ := Triple.place_eq_iff.1 hrank
    exact ⟨(toUInt32_inj hparent).symm, (toUInt32_inj hchild).symm,
      Triple.eq_of_total?_singleton htotal⟩
  · rintro ⟨rfl, rfl, rfl⟩
    exact Triple.total?_singleton ⟨(1 : UInt16).toUInt32, (0 : UInt16).toUInt32, 0⟩

theorem size_sample {raised : Bool} {kind : PackingKind} {g : Grammar}
    (hg : compile (.sample raised) kind = .ok g) : g.size = 2 := by
  rw [compile_sample] at hg
  obtain ⟨-, binary, h⟩ := ofProductions_ok hg
  rw [Grammar.size, h.labels_eq]
  exact size_labels_sample

theorem unaryByChild_sample {kind : PackingKind} {g : Grammar}
    (hg : compile (.sample true) kind = .ok g) :
    g.unaryByChild = ⟨#[0], #[0, 1], #[0, 1, 1], #[(1, 0)]⟩ := by
  rw [compile_sample] at hg
  obtain ⟨-, binary, h⟩ := ofProductions_ok hg
  have hmatrix := h.unaryByChild
  rw [size_labels_sample] at hmatrix
  refine Option.some.inj (hmatrix.symm.trans ?_)
  change ColumnMatrix.ofTriples? 2 [.inColumn 1 0 0] = _
  have hmerged : Triple.accumulate [.inColumn 1 0 0] = #[⟨0, 1, 0⟩] := by
    unfold Triple.accumulate
    rw [List.mergeSort_singleton]
    rfl
  have hoffsets : Triple.offsets 2 #[0] = #[0, 1, 1] := by decide
  rw [ColumnMatrix.ofTriples?, Triple.accumulate?, hmerged]
  simp [ColumnMatrix.Runs.add, hoffsets]

/-- Under every packing the sample compiles, to a grammar that has its word and no scores but
zero. -/
theorem exists_sample_under (raised : Bool) (kind : PackingKind) :
    ∃ g, compile (.sample raised) kind = .ok g ∧ g.lexicon.number? "a" = some 0 ∧ g.Certain := by
  have hpairs : pairsOf (sampleProductions raised) = [(0, 0)] := by cases raised <;> rfl
  obtain ⟨packing, hpacking⟩ : ∃ packing,
      Packing.build kind ⟨0, 0, 1, 1, 1, 2⟩ [(0, 0)] = .ok packing := by
    cases kind <;> exact ⟨_, rfl⟩
  have hkeys : ∀ pair ∈ pairsOf (sampleProductions raised),
      ∃ key, packing.pack pair.1 pair.2 = some key := by
    rw [hpairs]
    intro pair hpair
    obtain rfl := List.mem_singleton.1 hpair
    exact Packing.exists_key_of_mem hpacking hpair (by decide) (by decide)
  rw [← hpairs] at hpacking
  obtain ⟨g, hg, hlexicon⟩ : ∃ g, ofProductions 1 (.ofList ["A", "S"]) (.ofList ["a"])
      ⟨0, 0, 1, 1, 1, 2⟩ (sampleProductions raised) kind = .ok g ∧ g.lexicon = .ofList ["a"] := by
    refine (ofProductions_of_pairs 1 ?_ ?_ ?_ hpacking hkeys).1 ?_
    · rw [size_labels_sample]
      decide
    · rw [size_labels_sample]
      cases raised <;> simp [sampleProductions, Names]
    · rw [size_lexicon_sample]
      cases raised <;> simp [sampleProductions]
    · apply not_crowded_of_length
      cases raised <;> simp [sampleProductions]
  obtain ⟨-, binary, hmade⟩ := ofProductions_ok hg
  rw [compile_sample]
  refine ⟨g, hg, ?_, certain_of_made hmade⟩
  rw [hlexicon]
  simp [LabelTable.ofList, LabelTable.number?_insert, LabelTable.number?_empty]

theorem exists_sample (raised : Bool) : ∃ g, compile (.sample raised) .shift = .ok g ∧
    g.lexicon.number? "a" = some 0 ∧ g.Certain := exists_sample_under raised .shift

end Grammar
end ChartParsing

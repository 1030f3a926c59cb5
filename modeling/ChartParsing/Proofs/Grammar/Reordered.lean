import ChartParsing.Proofs.Grammar.Classified
import ChartParsing.Proofs.Grammar.Siblings
import ChartParsing.Proofs.Packing.Congruence

/-!
# Sources in another order

The tables of a grammar are sorted, so the order in which rules are listed leaves no trace in
them as long as no rule is listed twice: scores are then never added, and adding is all that
depends on the order. Only words are numbered as they come. Of sources that list the same
rules and entries in different orders, one compiles just if the other one does, and then to
the same grammar but for its lexicon.
-/

namespace ChartParsing

namespace Triple

/-- Triples of different positions are accumulated alike in whatever order they come. -/
theorem accumulate_perm {ts us : List Triple} (h : ts.Perm us)
    (hts : ts.Pairwise fun t u => t.rank ≠ u.rank) : accumulate ts = accumulate us := by
  have hsorted (ts : List Triple) : (ts.mergeSort le).Pairwise fun t u => le t u = true := by
    apply List.pairwise_mergeSort
    · intro a b c
      simp only [le_iff_rank]
      omega
    · intro a b
      simp only [Bool.or_eq_true, le_iff_rank]
      omega
  have hperm : (ts.mergeSort le).Perm (us.mergeSort le) :=
    ((List.mergeSort_perm ts le).trans h).trans (List.mergeSort_perm us le).symm
  have hnodup : (ts.map rank).Nodup := List.pairwise_map.2 hts
  have hsame : ts.mergeSort le = us.mergeSort le := by
    refine hperm.eq_of_pairwise ?_ (hsorted ts) (hsorted us)
    intro t u ht hu htu hut
    rw [le_iff_rank] at htu hut
    have ht' : t ∈ ts := (List.mergeSort_perm ts le).mem_iff.1 ht
    have hu' : u ∈ ts := h.mem_iff.2 ((List.mergeSort_perm us le).mem_iff.1 hu)
    exact List.inj_on_of_nodup_map hnodup ht' hu' (Nat.le_antisymm htu hut)
  unfold accumulate
  rw [hsame]

theorem accumulate?_perm (count : Nat) {ts us : List Triple} (h : ts.Perm us)
    (hts : ts.Pairwise fun t u => t.rank ≠ u.rank) :
    accumulate? count ts = accumulate? count us := by
  rw [accumulate?, accumulate?, accumulate_perm h hts]

theorem total?_perm {ts us : List Triple} (h : ts.Perm us)
    (hts : ts.Pairwise fun t u => t.rank ≠ u.rank) (major minor : UInt32) :
    total? ts (place major minor) = total? us (place major minor) := by
  apply Option.ext
  intro value
  rw [← mem_bucket, ← mem_bucket, bucket, bucket, accumulate_perm h hts]

/-- The total of a position that is given once is the value it is given. -/
theorem exists_of_total?_of_distinct {ts : List Triple}
    (hts : ts.Pairwise fun t u => t.rank ≠ u.rank) {rank : Nat} {value : Score}
    (h : total? ts rank = some value) : ∃ t ∈ ts, t.value = value := by
  have hmem (t : Triple) (ht : t ∈ ts.filter fun t => t.rank = rank) : t ∈ ts ∧ t.rank = rank := by
    simpa using ht
  have hdistinct := hts.filter fun t => t.rank = rank
  unfold total? at h
  cases hgiven : ts.filter fun t => t.rank = rank with
  | nil => simp [hgiven] at h
  | cons t rest =>
    rw [hgiven] at h hmem hdistinct
    cases rest with
    | nil => exact ⟨t, (hmem t List.mem_cons_self).1, Option.some.inj h⟩
    | cons u rest =>
      have hne := (List.pairwise_cons.1 hdistinct).1 u List.mem_cons_self
      have ht := (hmem t List.mem_cons_self).2
      exact absurd (ht.trans (hmem u (List.mem_cons_of_mem t List.mem_cons_self)).2.symm) hne

end Triple

theorem RowMatrix.ofTriples?_perm (rows : Nat) {ts us : List Triple} (h : ts.Perm us)
    (hts : ts.Pairwise fun t u => t.rank ≠ u.rank) : ofTriples? rows ts = ofTriples? rows us := by
  rw [ofTriples?, ofTriples?, Triple.accumulate?_perm _ h hts]

theorem ColumnMatrix.ofTriples?_perm (columns : Nat) {ts us : List Triple} (h : ts.Perm us)
    (hts : ts.Pairwise fun t u => t.rank ≠ u.rank) :
    ofTriples? columns ts = ofTriples? columns us := by
  rw [ofTriples?, ofTriples?, Triple.accumulate?_perm _ h hts]

theorem SiblingIndex.ofEntries?_perm (labels : Nat) {entries entries' : List Entry}
    (h : entries.Perm entries') (hdistinct : entries.Pairwise fun d e =>
      ¬(d.parent = e.parent ∧ d.sibling = e.sibling ∧ d.child = e.child)) :
    ofEntries? labels entries = ofEntries? labels entries' := by
  have hhash : PairHash.build ⟨0, UInt16.ofNat labels⟩ (entries.map fun e => (e.parent, e.sibling)) =
      PairHash.build ⟨0, UInt16.ofNat labels⟩ (entries'.map fun e => (e.parent, e.sibling)) :=
    PairHash.build_congr (fun pair => (h.map _).mem_iff) _
  unfold ofEntries?
  dsimp only
  rw [← hhash]
  generalize hbuild : PairHash.build ⟨0, UInt16.ofNat labels⟩
    (entries.map fun e => (e.parent, e.sibling)) = hash
  rw [ColumnMatrix.ofTriples?_perm _ (h.filterMap _)]
  rw [List.pairwise_filterMap]
  refine hdistinct.imp fun {d e} hne t ht u hu hrank => hne ?_
  obtain ⟨key, hkey, rfl⟩ := Option.map_eq_some_iff.1 ht
  obtain ⟨key', hkey', rfl⟩ := Option.map_eq_some_iff.1 hu
  obtain ⟨rfl, hchild⟩ := Triple.place_eq_iff.1 hrank
  subst hbuild
  have hpair := (PairHash.unpack_of_pack hkey).1.symm.trans (PairHash.unpack_of_pack hkey').1
  obtain ⟨hparent, hsibling⟩ := Prod.mk.inj (Option.some.inj hpair)
  exact ⟨hparent, hsibling, toUInt32_inj hchild⟩

namespace Grammar

/-- A grammar with another lexicon and other scores of its words. -/
def withLexicon (g : Grammar) (lexicon : LabelTable) (lexical : ColumnMatrix) : Grammar :=
  { g with lexicon, lexical }

/-- Productions with the same rules among non-terminals, each of them listed once. -/
structure SameRules (productions productions' : List Production) : Prop where
  binary : (binaryOf productions).Perm (binaryOf productions')
  unary : (unaryOf productions).Perm (unaryOf productions')
  binary_distinct : (binaryOf productions).Pairwise fun r q =>
    ¬(r.1 = q.1 ∧ r.2.1 = q.2.1 ∧ r.2.2.1 = q.2.2.1)
  unary_distinct : (unaryOf productions).Pairwise fun r q => ¬(r.1 = q.1 ∧ r.2.1 = q.2.1)

/-- Ranges are determined by the right children that they span. -/
theorem Spans.unique {range range' : Option (UInt16 × UInt16)} {rights : Set UInt16}
    (h : Spans range rights) (h' : Spans range' rights) : range = range' := by
  cases range with
  | none =>
    obtain rfl : rights = ∅ := h
    cases range' with
    | none => rfl
    | some range' => exact h'.1.1.elim
  | some range =>
    cases range' with
    | none =>
      obtain rfl : rights = ∅ := h'
      exact h.1.1.elim
    | some range' =>
      have hlo := UInt16.le_antisymm (h.1.2 h'.1.1) (h'.1.2 h.1.1)
      have hhi := UInt16.le_antisymm (h'.2.2 h.2.1) (h.2.2 h'.2.1)
      rw [Option.some.injEq, Prod.ext_iff]
      exact ⟨hlo, hhi⟩

theorem rangesOf_congr {count : Nat} (hcount : count ≤ 65536) {pairs pairs' : List (UInt16 × UInt16)}
    (h : ∀ pair, pair ∈ pairs ↔ pair ∈ pairs') : rangesOf count pairs = rangesOf count pairs' := by
  have hsize : (rangesOf count pairs).size = (rangesOf count pairs').size := by
    rw [size_rangesOf, size_rangesOf]
  apply Array.ext hsize
  intro i hi hi'
  rw [size_rangesOf] at hi
  have hback : (UInt16.ofNat i).toNat = i := Nat.mod_eq_of_lt (by omega)
  have hlt : (UInt16.ofNat i).toNat < count := by rwa [hback]
  have hspans : Spans _ {right | (_, right) ∈ pairs} := spans_rangesOf hlt
  have hspans' : Spans _ {right | (_, right) ∈ pairs'} := spans_rangesOf hlt
  simp only [← h] at hspans'
  have heq := hspans.unique hspans'
  rw [hback] at heq
  simpa [Array.getD_eq_getD_getElem?, size_rangesOf, hi] using heq

section Made

variable {g h : Grammar} {labels lexicon lexicon' : LabelTable} {bounds : ClassBounds}
  {productions productions' : List Production} {kind : PackingKind}
  {binary binary' : List (UInt16 × UInt32 × Score)}

theorem Made.keys_distinct (hmade : Made labels lexicon bounds productions kind g binary)
    (hdistinct : (binaryOf productions).Pairwise fun r q =>
      ¬(r.1 = q.1 ∧ r.2.1 = q.2.1 ∧ r.2.2.1 = q.2.2.1)) :
    binary.Pairwise fun d e => ¬(d.1 = e.1 ∧ d.2.1 = e.2.1) := by
  obtain ⟨hbinary, hkeys⟩ := keyed_eq_map hmade.keyed
  rw [hbinary, List.pairwise_map]
  refine hdistinct.imp_of_mem fun {r q} hr hq hne heq => hne ?_
  obtain ⟨hparent, hkey⟩ := heq
  obtain ⟨key, hr⟩ := hkeys r hr
  obtain ⟨key', hq⟩ := hkeys q hq
  simp only [hr, hq, Option.getD_some] at hkey
  subst hkey
  have hpair := (Packing.unpack_of_pack hmade.packing hr).1.symm.trans
    (Packing.unpack_of_pack hmade.packing hq).1
  obtain ⟨hleft, hright⟩ := Prod.mk.inj (Option.some.inj hpair)
  exact ⟨hparent, hleft, hright⟩

/-- Of two tables that are made, each is what the other one is made of. -/
theorem eq_of_some {α : Type} {x y : Option α} {a b : α} (hx : x = some a) (hy : y = some b)
    (h : x = y) : b = a := by
  rw [hx, hy] at h
  exact (Option.some.inj h).symm

section

variable (hmade : Made labels lexicon bounds productions kind g binary)
  (hmade' : Made labels lexicon' bounds productions' kind h binary')
  (hrules : SameRules productions productions')

include hmade hmade' hrules

theorem Made.packing_eq : h.packing = g.packing := by
  have hbuild := hmade'.packing
  rw [← Packing.build_congr fun pair => (hrules.binary.map _).mem_iff, hmade.packing] at hbuild
  exact (Except.ok.inj hbuild).symm

/-- Binary rules are keyed alike, so they fill the tables by parent and by pair alike. -/
theorem Made.binary_eq :
    h.binaryByParent = g.binaryByParent ∧ h.binaryByPair = g.binaryByPair := by
  have hpacking := hmade.packing_eq hmade' hrules
  have hbinary : binary.Perm binary' := by
    rw [(keyed_eq_map hmade.keyed).1, (keyed_eq_map hmade'.keyed).1, hpacking]
    exact hrules.binary.map _
  have hkeys := hmade.keys_distinct hrules.binary_distinct
  have hbyPair := hmade'.binaryByPair
  rw [hpacking] at hbyPair
  constructor
  · apply eq_of_some hmade.binaryByParent hmade'.binaryByParent
    apply RowMatrix.ofTriples?_perm _ (hbinary.map _)
    refine List.pairwise_map.2 (hkeys.imp fun {d e} hne hrank => hne ?_)
    obtain ⟨hparent, hkey⟩ := Triple.place_eq_iff.1 hrank
    exact ⟨toUInt32_inj hparent, hkey⟩
  · apply eq_of_some hmade.binaryByPair hbyPair
    apply ColumnMatrix.ofTriples?_perm _ (hbinary.map _)
    refine List.pairwise_map.2 (hkeys.imp fun {d e} hne hrank => hne ?_)
    obtain ⟨hkey, hparent⟩ := Triple.place_eq_iff.1 hrank
    exact ⟨toUInt32_inj hparent, hkey⟩

theorem Made.unary_eq :
    h.unaryByParent = g.unaryByParent ∧ h.unaryByChild = g.unaryByChild := by
  constructor
  · apply eq_of_some hmade.unaryByParent hmade'.unaryByParent
    apply RowMatrix.ofTriples?_perm _ (hrules.unary.map _)
    refine List.pairwise_map.2 (hrules.unary_distinct.imp fun {r q} hne hrank => hne ?_)
    obtain ⟨hparent, hchild⟩ := Triple.place_eq_iff.1 hrank
    exact ⟨toUInt32_inj hparent, toUInt32_inj hchild⟩
  · apply eq_of_some hmade.unaryByChild hmade'.unaryByChild
    apply ColumnMatrix.ofTriples?_perm _ (hrules.unary.map _)
    refine List.pairwise_map.2 (hrules.unary_distinct.imp fun {r q} hne hrank => hne ?_)
    obtain ⟨hchild, hparent⟩ := Triple.place_eq_iff.1 hrank
    exact ⟨toUInt32_inj hparent, toUInt32_inj hchild⟩

theorem Made.siblings_eq :
    h.leftChildren = g.leftChildren ∧ h.rightChildren = g.rightChildren := by
  constructor
  · apply eq_of_some hmade.leftChildren hmade'.leftChildren
    apply SiblingIndex.ofEntries?_perm _ (hrules.binary.map _)
    refine List.pairwise_map.2 (hrules.binary_distinct.imp fun {r q} hne heq => hne ?_)
    exact ⟨heq.1, heq.2.2, heq.2.1⟩
  · apply eq_of_some hmade.rightChildren hmade'.rightChildren
    apply SiblingIndex.ofEntries?_perm _ (hrules.binary.map _)
    exact List.pairwise_map.2 hrules.binary_distinct

/-- All tables but those of words are made of the rules alone. -/
theorem Made.eq_withLexicon (hsize : labels.size ≤ 65535) (hstart : h.start = g.start)
    (hbounds : h.bounds = g.bounds) : h = g.withLexicon h.lexicon h.lexical := by
  have hpacking := hmade.packing_eq hmade' hrules
  obtain ⟨hbyParent, hbyPair⟩ := hmade.binary_eq hmade' hrules
  obtain ⟨hunaryByParent, hunaryByChild⟩ := hmade.unary_eq hmade' hrules
  obtain ⟨hlefts, hrights⟩ := hmade.siblings_eq hmade' hrules
  have hlabels : h.labels = g.labels := hmade'.labels_eq.trans hmade.labels_eq.symm
  have hranges : h.siblingRanges = g.siblingRanges := by
    rw [hmade.ranges, hmade'.ranges]
    exact (rangesOf_congr (by omega) fun pair => (hrules.binary.map _).mem_iff).symm
  cases g
  cases h
  simp only [withLexicon] at *
  subst_vars
  rfl

end

end Made

end Grammar

/-! ## Sources -/

namespace GrammarSource

/-- Two sources list the same rules and entries, each in an order of its own. -/
structure Reordered (s s' : GrammarSource) : Prop where
  start : s'.start = s.start
  rules : s.rules.Perm s'.rules
  lexicon : s.lexicon.Perm s'.lexicon

/-- No rule and no entry is listed twice, not with different probabilities either. -/
structure Unrepeated (s : GrammarSource) : Prop where
  rules : (s.rules.map fun r => (r.parent, r.left, r.right)).Nodup
  lexicon : (s.lexicon.map fun e => (e.parent, e.left)).Nodup

theorem Numbering.unique {s : GrammarSource} {labels labels' : List String}
    (h : s.Numbering labels) (h' : s.Numbering labels') : labels = labels' := by
  refine (h.perm h').eq_of_pairwise ?_ h.sorted h'.sorted
  intro l m _ _ hlm hml
  obtain ⟨c, hc⟩ := s.exists_inClass l
  obtain ⟨d, hd⟩ := s.exists_inClass m
  rcases hlm c d hc hd with hlt | ⟨rfl, hlt⟩
  · rcases hml d c hd hc with hgt | ⟨rfl, -⟩
    · exact absurd hgt (Nat.lt_asymm hlt)
    · exact absurd hlt (Nat.lt_irrefl _)
  · rcases hml c c hd hc with hgt | ⟨-, hgt⟩
    · exact absurd hgt (Nat.lt_irrefl _)
    · exact absurd hgt (String.lt_asymm hlt)

namespace Reordered

variable {s s' : GrammarSource}

theorem isTag_iff (h : s.Reordered s') (label : String) : s'.IsTag label ↔ s.IsTag label := by
  simp only [IsTag, h.lexicon.mem_iff]

theorem isLeft_iff (h : s.Reordered s') (label : String) : s'.IsLeft label ↔ s.IsLeft label := by
  simp only [IsLeft, h.rules.mem_iff]

theorem isRight_iff (h : s.Reordered s') (label : String) :
    s'.IsRight label ↔ s.IsRight label := by
  simp only [IsRight, h.rules.mem_iff]

theorem isLabel_iff (h : s.Reordered s') (label : String) :
    s'.IsLabel label ↔ s.IsLabel label := by
  simp only [IsLabel, h.start, h.isTag_iff, h.rules.mem_iff]

theorem inClass_iff (h : s.Reordered s') (label : String) (c : LabelClass) :
    s'.InClass label c ↔ s.InClass label c := by
  cases c <;> simp only [InClass, h.isTag_iff, h.isLeft_iff, h.isRight_iff]

theorem numbering_eq (h : s.Reordered s') : s'.numbering = s.numbering := by
  have hnumbering : s.Numbering s'.numbering := by
    obtain ⟨hnodup, hmem, hsorted⟩ := s'.numbering_numbering
    refine ⟨hnodup, fun label => ?_, ?_⟩
    · rw [hmem, h.isLabel_iff]
    · simpa only [h.inClass_iff] using hsorted
  exact hnumbering.unique s.numbering_numbering

theorem bounds_eq (h : s.Reordered s') (labels : List String) :
    s'.bounds labels = s.bounds labels := by
  simp only [GrammarSource.bounds, h.inClass_iff]

theorem crowded_iff (h : s.Reordered s') : s'.Crowded ↔ s.Crowded := by
  unfold Crowded binaryRules wordTags
  rw [(h.rules.filterMap _).dedup.length_eq, (h.lexicon.map _).dedup.length_eq]

theorem words_perm (h : s.Reordered s') : s.words.Perm s'.words := h.lexicon.map _

end Reordered
end GrammarSource

namespace Grammar

variable {s s' : GrammarSource}

/-- The productions of two orders have the same rules, each once. -/
theorem sameRules_productionsOf (h : s.Reordered s') (hs : s.Unrepeated)
    (hfew : s.numbering.length ≤ 65535) (lexicon lexicon' : LabelTable) :
    SameRules (productionsOf s (labelsOf s) lexicon) (productionsOf s' (labelsOf s) lexicon') := by
  have hdistinct := List.pairwise_map.1 hs.rules
  have hinj {r q : LabelledRule} (hr : r ∈ s.rules) (hq : q ∈ s.rules)
      (hparent : ((labelsOf s).number r.parent).toUInt16 =
        ((labelsOf s).number q.parent).toUInt16)
      (hleft : ((labelsOf s).number r.left).toUInt16 = ((labelsOf s).number q.left).toUInt16) :
      r.parent = q.parent ∧ r.left = q.left :=
    ⟨number_labelsOf_inj hfew (.inr (.inr ⟨r, hr, .inl rfl⟩)) (.inr (.inr ⟨q, hq, .inl rfl⟩))
      hparent, number_labelsOf_inj hfew (isLabel_left hr) (isLabel_left hq) hleft⟩
  constructor
  case binary =>
    rw [binaryOf_productionsOf, binaryOf_productionsOf]
    exact h.rules.filterMap _
  case unary =>
    rw [unaryOf_productionsOf, unaryOf_productionsOf]
    exact h.rules.filterMap _
  case binary_distinct =>
    rw [binaryOf_productionsOf, List.pairwise_filterMap]
    refine hdistinct.imp_of_mem fun {r q} hr hq hne b hb b' hb' heq => hne ?_
    obtain ⟨right, hright, rfl⟩ := Option.map_eq_some_iff.1 hb
    obtain ⟨right', hright', rfl⟩ := Option.map_eq_some_iff.1 hb'
    obtain ⟨hparent, hleft, heq⟩ := heq
    obtain ⟨hparent, hleft⟩ := hinj hr hq hparent hleft
    have hrights := number_labelsOf_inj hfew (isLabel_right hr hright) (isLabel_right hq hright') heq
    rw [hparent, hleft, hright, hright', hrights]
  case unary_distinct =>
    rw [unaryOf_productionsOf, List.pairwise_filterMap]
    refine hdistinct.imp_of_mem fun {r q} hr hq hne b hb b' hb' heq => hne ?_
    split_ifs at hb with hright
    split_ifs at hb' with hright'
    obtain rfl := Option.some.inj hb
    obtain rfl := Option.some.inj hb'
    obtain ⟨hparent, hleft⟩ := hinj hr hq heq.1 heq.2
    rw [hparent, hleft, hright, hright']

/-! ## Compiling -/

/-- Sources in two orders are refused for the same reason, or compiled alike. -/
theorem compile_orders (h : s.Reordered s') (kind : PackingKind) :
    (∃ e, compile s kind = .error e ∧ compile s' kind = .error e) ∨
      (s.numbering.length ≤ 65535 ∧
        ∃ g g', compile s kind = .ok g ∧ compile s' kind = .ok g') := by
  by_cases hfew : s.numbering.length ≤ 65535
  · have hfew' : s'.numbering.length ≤ 65535 := by rwa [h.numbering_eq]
    have hcount : (s'.bounds s'.numbering).keyCount = (s.bounds s.numbering).keyCount := by
      rw [h.numbering_eq, h.bounds_eq]
    have hside := compile_eq_of_few hfew kind
    have hside' := compile_eq_of_few hfew' kind
    rw [hcount, h.crowded_iff] at hside'
    rcases hside with ⟨hkind, hmany, herror⟩ | ⟨hroom, hok, hstop⟩
    · rcases hside' with ⟨-, -, herror'⟩ | ⟨hhash | hroom, -⟩
      · exact .inl ⟨_, herror, herror'⟩
      · exact absurd hhash hkind
      · exact absurd hmany (Nat.not_lt.2 hroom)
    · rcases hside' with ⟨hkind, hmany, -⟩ | ⟨-, hok', hstop'⟩
      · rcases hroom with hhash | hroom
        · exact absurd hhash hkind
        · exact absurd hmany (Nat.not_lt.2 hroom)
      · by_cases hcrowded : s.Crowded
        · exact .inl ⟨_, hstop hcrowded, hstop' hcrowded⟩
        · obtain ⟨g, hg⟩ := hok hcrowded
          obtain ⟨g', hg'⟩ := hok' hcrowded
          exact .inr ⟨hfew, g, g', hg, hg'⟩
  · have hmany : 65535 < s.numbering.length := Nat.lt_of_not_le hfew
    refine .inl ⟨.tooManyNonTerminals s.numbering.length, ?_, ?_⟩
    · rw [compile_eq, if_pos hmany]
    · rw [compile_eq, h.numbering_eq, if_pos hmany]

/-- The other order is compiled with the labels and the runs of classes of the first. -/
theorem made_of_reordered (h : s.Reordered s') (hfew : s.numbering.length ≤ 65535)
    {kind : PackingKind} {g' : Grammar} (hg' : compile s' kind = .ok g') :
    g'.start = ((labelsOf s).number s.start).toUInt16 ∧ g'.bounds = s.bounds s.numbering ∧
      ∃ binary, Made (labelsOf s) (.ofList s'.words) (s.bounds s.numbering)
        (productionsOf s' (labelsOf s) (.ofList s'.words)) kind g' binary := by
  have hmade := made_of_compile (by rwa [h.numbering_eq]) hg'
  have hlabels : labelsOf s' = labelsOf s := by rw [labelsOf, labelsOf, h.numbering_eq]
  rwa [hlabels, h.start, h.numbering_eq, h.bounds_eq] at hmade

/-- Grammars of sources in two orders are the same but for their lexicons. -/
theorem eq_withLexicon_of_compile (h : s.Reordered s') (hs : s.Unrepeated)
    (hfew : s.numbering.length ≤ 65535) {kind : PackingKind} {g g' : Grammar}
    (hg : compile s kind = .ok g) (hg' : compile s' kind = .ok g') :
    g' = g.withLexicon g'.lexicon g'.lexical := by
  obtain ⟨hstart, hbounds, binary, hmade⟩ := made_of_compile hfew hg
  obtain ⟨hstart', hbounds', binary', hmade'⟩ := made_of_reordered h hfew hg'
  refine hmade.eq_withLexicon hmade' (sameRules_productionsOf h hs hfew _ _) ?_ ?_ ?_
  · rwa [size_labelsOf]
  · rw [hstart, hstart']
  · rw [hbounds, hbounds']

end Grammar
end ChartParsing

import ChartParsing.Proofs.Grammar.Reordered
import Mathlib.Data.List.Sort

/-!
# Words in another order

Words are numbered as the lexicon lists them. Lexicons that list the same entries in two
orders give them different numbers, which go over into one another; under these numbers the
words have the same tags with the same scores. That is all in which the grammars of two
orders of a source differ.
-/

namespace ChartParsing

namespace LabelTable

/-- Tables of the same labels list them in two orders. -/
theorem perm_ofList {labels labels' : List String} (h : labels.Perm labels') :
    (ofList labels).toList.Perm (ofList labels').toList := by
  apply (List.perm_ext_iff_of_nodup (indexed_ofList _).nodup (indexed_ofList _).nodup).2
  intro label
  rw [mem_ofList, mem_ofList, h.mem_iff]

theorem size_ofList_of_perm {labels labels' : List String} (h : labels.Perm labels') :
    (ofList labels').size = (ofList labels).size := by
  rw [← length_toList, ← length_toList, (perm_ofList h).length_eq]

/-- Labels of a table have numbers of their own, unless the numbers have wrapped. -/
theorem number_ofList_inj {labels : List String} (hsize : (ofList labels).size ≤ 2 ^ 32)
    {label label' : String} (hlabel : label ∈ labels) (hlabel' : label' ∈ labels) :
    (ofList labels).number label = (ofList labels).number label' ↔ label = label' := by
  have hindexed := indexed_ofList labels
  have hget {label : String} (hlabel : label ∈ labels) :=
    (hindexed.number_eq_iff hsize).1 (hindexed.number?_eq (mem_ofList.2 hlabel))
  constructor
  · intro heq
    have hsame := hget hlabel
    rw [heq, hget hlabel'] at hsame
    exact (Option.some.inj hsame).symm
  · exact congrArg _

/-- The number in another table of the label with a number. -/
def renumber (t u : LabelTable) (n : UInt32) : UInt32 := ((t.label? n).map u.number).getD n

theorem renumber_number {labels : List String} (hsize : (ofList labels).size ≤ 2 ^ 32)
    {label : String} (hlabel : label ∈ labels) (u : LabelTable) :
    (ofList labels).renumber u ((ofList labels).number label) = u.number label := by
  have hindexed := indexed_ofList labels
  have hget := (hindexed.number_eq_iff hsize).1 (hindexed.number?_eq (mem_ofList.2 hlabel))
  have hlabel? : (ofList labels).label? ((ofList labels).number label) = some label := by
    rw [label?, ← Array.getElem?_toList]
    exact hget
  rw [renumber, hlabel?]
  rfl

/-- Tables of the same labels find the same ones, each under its own number. -/
theorem number?_renumber {labels labels' : List String} (h : labels.Perm labels')
    (hsize : (ofList labels).size ≤ 2 ^ 32) (label : String) :
    (ofList labels').number? label =
      ((ofList labels).number? label).map ((ofList labels).renumber (ofList labels')) := by
  by_cases hlabel : label ∈ labels
  · have hmem := mem_ofList.2 hlabel
    have hmem' := mem_ofList.2 (h.mem_iff.1 hlabel)
    rw [(indexed_ofList labels).number?_eq hmem, (indexed_ofList labels').number?_eq hmem',
      Option.map_some, renumber_number hsize hlabel]
  · have hnone := (indexed_ofList labels).number?_eq_none_iff.2 (mt mem_ofList.1 hlabel)
    have hnone' := (indexed_ofList labels').number?_eq_none_iff.2
      (mt mem_ofList.1 (mt h.mem_iff.2 hlabel))
    rw [hnone, hnone', Option.map_none]

theorem exists_number {labels : List String} (hsize : (ofList labels).size ≤ 2 ^ 32) {n : UInt32}
    (hn : n.toNat < (ofList labels).size) : ∃ label ∈ labels, (ofList labels).number label = n := by
  rw [← length_toList] at hn
  have hget := List.getElem?_eq_getElem hn
  refine ⟨_, mem_ofList.1 (List.getElem_mem hn), ?_⟩
  rw [number, ((indexed_ofList labels).number_eq_iff hsize).2 hget, Option.getD_some]

theorem renumber_inj {labels labels' : List String} (h : labels.Perm labels')
    (hsize : (ofList labels).size ≤ 2 ^ 32) {m n : UInt32} (hm : m.toNat < (ofList labels).size)
    (hn : n.toNat < (ofList labels).size)
    (heq : (ofList labels).renumber (ofList labels') m =
      (ofList labels).renumber (ofList labels') n) : m = n := by
  obtain ⟨label, hlabel, rfl⟩ := exists_number hsize hm
  obtain ⟨label', hlabel', rfl⟩ := exists_number hsize hn
  have hsize' : (ofList labels').size ≤ 2 ^ 32 := by rwa [size_ofList_of_perm h]
  rw [renumber_number hsize hlabel, renumber_number hsize hlabel',
    number_ofList_inj hsize' (h.mem_iff.1 hlabel) (h.mem_iff.1 hlabel')] at heq
  rw [heq]

end LabelTable

namespace ColumnMatrix

variable {columns : Nat} {entries : List Triple} {m : ColumnMatrix}

theorem toLists_eq (h : ofTriples? columns entries = some m) :
    m.toLists = m.populated.toList.map fun c => (c, m.column c) := by
  apply List.ext_getElem
  · simp [toLists]
  · intro i hi hi'
    rw [List.length_map, Array.length_toList] at hi'
    have hcolumn := populatedColumn_eq h hi'
    simp only [Array.getD_eq_getD_getElem?, Array.getElem?_eq_getElem hi', Option.getD_some]
      at hcolumn
    simp [toLists, hcolumn]

/-- Only columns of the matrix hold entries. -/
theorem lt_of_mem_populated (h : ofTriples? columns entries = some m) {c : UInt32}
    (hc : c ∈ m.populated.toList) : c.toNat < columns := by
  rw [mem_populated h] at hc
  by_contra hout
  apply hc
  rw [column, bounds, columns_eq h, if_neg hout]
  simp

theorem nodup_populated (h : ofTriples? columns entries = some m) :
    m.populated.toList.Nodup :=
  (populated_sorted h).imp fun {_ _} hlt heq => Nat.ne_of_lt hlt (congrArg UInt32.toNat heq)

/-- Columns with the same totals are equal, in whatever matrices they are. -/
theorem column_congr {columns' : Nat} {entries' : List Triple} {m' : ColumnMatrix}
    (h : ofTriples? columns entries = some m) (h' : ofTriples? columns' entries' = some m')
    (hnarrow : Narrow entries) (hnarrow' : Narrow entries') {c c' : UInt32}
    (htotal : ∀ row : UInt16, Triple.total? entries' (Triple.place c' row.toUInt32) =
      Triple.total? entries (Triple.place c row.toUInt32)) : m'.column c' = m.column c := by
  have hantisymm : Std.Antisymm fun x y : UInt16 × Score => x.1 < y.1 :=
    ⟨fun x y hxy hyx => absurd hxy (UInt16.lt_asymm hyx)⟩
  have hirrefl : Std.Irrefl fun x y : UInt16 × Score => x.1 < y.1 := ⟨fun x => UInt16.lt_irrefl _⟩
  apply (column_sorted h' hnarrow' c').eq_of_mem_iff (column_sorted h hnarrow c)
  rintro ⟨row, value⟩
  rw [mem_column h' hnarrow', mem_column h hnarrow, htotal]

end ColumnMatrix

namespace Grammar

variable {s s' : GrammarSource}

/-- A grammar is another one with its words numbered anew. -/
structure Renumbers (g h : Grammar) (f : UInt32 → UInt32) : Prop where
  same : h = g.withLexicon h.lexicon h.lexical
  number : ∀ word, h.lexicon.number? word = (g.lexicon.number? word).map f
  columns : h.lexical.columns = g.lexical.columns
  column : ∀ word n, g.lexicon.number? word = some n →
    h.lexical.column (f n) = g.lexical.column n
  toLists : h.lexical.toLists.Perm (g.lexical.toLists.map fun (n, tags) => (f n, tags))

/-- Entries that are listed once are at positions of their own, if the words are numbered in
any way that tells them apart. -/
theorem entries_distinct (hs : s.Unrepeated) (hfew : s.numbering.length ≤ 65535)
    {words : List String} (hwords : (LabelTable.ofList words).size ≤ 2 ^ 32)
    (hmem : ∀ e ∈ s.lexicon, e.left ∈ words) :
    (s.lexicon.map fun e => Triple.inColumn ((labelsOf s).number e.parent).toUInt16
      ((LabelTable.ofList words).number e.left) e.logProb).Pairwise
        fun t u => t.rank ≠ u.rank := by
  rw [List.pairwise_map]
  refine (List.pairwise_map.1 hs.lexicon).imp_of_mem fun {d e} hd he hne hrank => hne ?_
  obtain ⟨hword, htag⟩ := Triple.place_eq_iff.1 hrank
  have hparent := number_labelsOf_inj hfew (.inr (.inl ⟨d, hd, rfl⟩)) (.inr (.inl ⟨e, he, rfl⟩))
    (toUInt32_inj htag)
  have hleft := (LabelTable.number_ofList_inj hwords (hmem d hd) (hmem e he)).1 hword
  rw [hparent, hleft]

section Made

variable {g h : Grammar} {bounds : ClassBounds} {kind : PackingKind}
  {binary binary' : List (UInt16 × UInt32 × Score)} (hss' : s.Reordered s') (hs : s.Unrepeated)
  (hfew : s.numbering.length ≤ 65535) (hwords : (LabelTable.ofList s.words).size ≤ 2 ^ 32)
  (hmade : Made (labelsOf s) (.ofList s.words) bounds
    (productionsOf s (labelsOf s) (.ofList s.words)) kind g binary)
  (hmade' : Made (labelsOf s) (.ofList s'.words) bounds
    (productionsOf s' (labelsOf s) (.ofList s'.words)) kind h binary')

include hss' hs hfew hwords

theorem total?_reordered {word : String} (hword : word ∈ s.words) (tag : UInt16) :
    Triple.total? ((lexicalOf (productionsOf s' (labelsOf s) (.ofList s'.words))).map
        fun (p, w, v) => .inColumn p w v)
      (Triple.place ((LabelTable.ofList s'.words).number word) tag.toUInt32) =
    Triple.total? ((lexicalOf (productionsOf s (labelsOf s) (.ofList s.words))).map
        fun (p, w, v) => .inColumn p w v)
      (Triple.place ((LabelTable.ofList s.words).number word) tag.toUInt32) := by
  have hwords' : (LabelTable.ofList s'.words).size ≤ 2 ^ 32 := by
    rwa [LabelTable.size_ofList_of_perm hss'.words_perm]
  have hmem (e : LabelledRule) (he : e ∈ s.lexicon) : e.left ∈ s.words :=
    List.mem_map.2 ⟨e, he, rfl⟩
  have hmem' (e : LabelledRule) (he : e ∈ s.lexicon) : e.left ∈ s'.words :=
    hss'.words_perm.mem_iff.1 (hmem e he)
  have hword' : word ∈ s'.words := hss'.words_perm.mem_iff.1 hword
  have hdistinct := entries_distinct hs hfew hwords' hmem'
  rw [lexicalOf_productionsOf, lexicalOf_productionsOf, List.map_map, List.map_map]
  refine (Triple.total?_perm (hss'.lexicon.map _) hdistinct _ _).symm.trans ?_
  -- the same entries now, with the words of each side
  refine Triple.total?_map_congr (fun e he => ?_) fun _ => rfl
  have hsame := (LabelTable.number_ofList_inj hwords' (hmem' e he) hword').trans
    (LabelTable.number_ofList_inj hwords (hmem e he) hword).symm
  refine Triple.place_eq_iff.trans (Iff.trans ?_ Triple.place_eq_iff.symm)
  exact and_congr_left fun _ => hsame

include hmade hmade'

/-- Words have the same tags with the same scores, as long as their numbers tell them apart. -/
theorem column_reordered {word : String} (hword : word ∈ s.words) :
    h.lexical.column ((LabelTable.ofList s'.words).number word) =
      g.lexical.column ((LabelTable.ofList s.words).number word) := by
  apply ColumnMatrix.column_congr hmade.lexical hmade'.lexical
  · exact Made.narrow_inColumn _ _ _ _
  · exact Made.narrow_inColumn _ _ _ _
  · exact total?_reordered hss' hs hfew hwords hword

/-- The words with tags are the same ones. -/
theorem populated_reordered : h.lexical.populated.toList.Perm (g.lexical.populated.toList.map
    ((LabelTable.ofList s.words).renumber (.ofList s'.words))) := by
  have hperm := hss'.words_perm
  have hwords' : (LabelTable.ofList s'.words).size ≤ 2 ^ 32 := by
    rwa [LabelTable.size_ofList_of_perm hperm]
  have hnumber {word : String} (hword : word ∈ s.words) :=
    LabelTable.renumber_number hwords hword (.ofList s'.words)
  have hiff {word : String} (hword : word ∈ s.words) :
      (LabelTable.ofList s'.words).number word ∈ h.lexical.populated.toList ↔
        (LabelTable.ofList s.words).number word ∈ g.lexical.populated.toList := by
    rw [ColumnMatrix.mem_populated hmade.lexical, ColumnMatrix.mem_populated hmade'.lexical,
      column_reordered hss' hs hfew hwords hmade hmade' hword]
  have hnodup := (ColumnMatrix.nodup_populated hmade.lexical).map_on fun m hm n hn =>
    LabelTable.renumber_inj hperm hwords (ColumnMatrix.lt_of_mem_populated hmade.lexical hm)
      (ColumnMatrix.lt_of_mem_populated hmade.lexical hn)
  apply (List.perm_ext_iff_of_nodup (ColumnMatrix.nodup_populated hmade'.lexical) hnodup).2
  intro n
  rw [List.mem_map]
  constructor
  · intro hn
    obtain ⟨word, hword, rfl⟩ := LabelTable.exists_number hwords'
      (ColumnMatrix.lt_of_mem_populated hmade'.lexical hn)
    have hword : word ∈ s.words := hperm.mem_iff.2 hword
    exact ⟨_, (hiff hword).1 hn, hnumber hword⟩
  · rintro ⟨n, hn, rfl⟩
    obtain ⟨word, hword, rfl⟩ := LabelTable.exists_number hwords
      (ColumnMatrix.lt_of_mem_populated hmade.lexical hn)
    rw [hnumber hword]
    exact (hiff hword).2 hn

/-- The entries of the words are those of the other order, under their new numbers. -/
theorem renumbers_of_made (hsame : h = g.withLexicon h.lexicon h.lexical) :
    g.Renumbers h (g.lexicon.renumber h.lexicon) := by
  have hperm := hss'.words_perm
  have hcolumn {word : String} (hword : word ∈ s.words) :=
    column_reordered hss' hs hfew hwords hmade hmade' hword
  have hnumber {word : String} (hword : word ∈ s.words) :=
    LabelTable.renumber_number hwords hword (.ofList s'.words)
  rw [hmade.lexicon_eq, hmade'.lexicon_eq]
  constructor
  case same => exact hsame
  case number =>
    rw [hmade.lexicon_eq, hmade'.lexicon_eq]
    exact LabelTable.number?_renumber hperm hwords
  case columns =>
    rw [ColumnMatrix.columns_eq hmade.lexical, ColumnMatrix.columns_eq hmade'.lexical,
      LabelTable.size_ofList_of_perm hperm]
  case column =>
    intro word n hn
    rw [hmade.lexicon_eq] at hn
    have hword : word ∈ s.words :=
      LabelTable.mem_ofList.1 ((LabelTable.indexed_ofList _).isSome_iff.1 ⟨n, hn⟩)
    obtain rfl : (LabelTable.ofList s.words).number word = n := by
      rw [LabelTable.number, hn, Option.getD_some]
    rw [hnumber hword, hcolumn hword]
  case toLists =>
    have hpopulated := populated_reordered hss' hs hfew hwords hmade hmade'
    rw [ColumnMatrix.toLists_eq hmade.lexical, ColumnMatrix.toLists_eq hmade'.lexical, List.map_map]
    refine (hpopulated.map _).trans (List.Perm.of_eq ?_)
    rw [List.map_map]
    refine List.map_congr_left fun n hn => ?_
    obtain ⟨word, hword, rfl⟩ := LabelTable.exists_number hwords
      (ColumnMatrix.lt_of_mem_populated hmade.lexical hn)
    simp only [Function.comp_apply, hnumber hword, hcolumn hword]

end Made

/-- Grammars of sources in two orders list the same words, and differ in their numbers alone. -/
theorem renumbers_of_compile (h : s.Reordered s') (hs : s.Unrepeated)
    (hfew : s.numbering.length ≤ 65535) {kind : PackingKind} {g g' : Grammar}
    (hg : compile s kind = .ok g) (hg' : compile s' kind = .ok g') :
    g.lexicon.toList.Perm g'.lexicon.toList ∧
      (g.lexicon.size ≤ 2 ^ 32 → g.Renumbers g' (g.lexicon.renumber g'.lexicon)) := by
  obtain ⟨-, -, binary, hmade⟩ := made_of_compile hfew hg
  obtain ⟨-, -, binary', hmade'⟩ := made_of_reordered h hfew hg'
  refine ⟨?_, fun hwords => ?_⟩
  · rw [hmade.lexicon_eq, hmade'.lexicon_eq]
    exact LabelTable.perm_ofList h.words_perm
  · rw [hmade.lexicon_eq] at hwords
    have hsame := eq_withLexicon_of_compile h hs hfew hg hg'
    exact renumbers_of_made h hs hfew hwords hmade hmade' hsame

end Grammar
end ChartParsing

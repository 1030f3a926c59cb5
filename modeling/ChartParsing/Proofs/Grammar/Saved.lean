import ChartParsing.Grammar.Saved
import ChartParsing.Proofs.ByteFormat.Standard
import ChartParsing.Proofs.Grammar.Making
import ChartParsing.Proofs.Grammar.Numbering
import ChartParsing.Proofs.Packing.Order

/-!
# Saved grammars

A grammar is saved field by field, and every field is read back as it was, provided that it fits
the words it is written in: a shift fits in a byte, a size in 64 bits, the keys of a set are below
its capacity and in order, the ends of a range are the right way round, and a table finds just
the labels that it lists. All of this holds of whatever grammars are made of.
-/

namespace ChartParsing

/-! ## Tables of labels -/

namespace LabelTable

variable {t : LabelTable}

theorem mem_entries {label : String} {n : UInt32} :
    (label, n) ∈ t.entries ↔ label ∈ t.toList ∧ t.number? label = some n := by
  simp only [entries, List.mem_filterMap, Option.map_eq_some_iff, Prod.mk.injEq]
  constructor
  · rintro ⟨_, hmem, _, hn, rfl, rfl⟩
    exact ⟨hmem, hn⟩
  · rintro ⟨hmem, hn⟩
    exact ⟨label, hmem, n, hn, rfl, rfl⟩

theorem pairwise_entries (h : t.toList.Nodup) :
    t.entries.Pairwise fun e e' => e.1 ≠ e'.1 := by
  refine List.pairwise_filterMap.2 (h.imp fun hne e he e' he' => ?_)
  obtain ⟨_, -, rfl⟩ := Option.map_eq_some_iff.1 he
  obtain ⟨_, -, rfl⟩ := Option.map_eq_some_iff.1 he'
  exact hne

/-- The entries of a table make up its map, whatever order they come in. -/
theorem Indexed.ofList_eq_numbers (h : t.Indexed) {entries : List (String × UInt32)}
    (hperm : entries.Perm t.entries) : Std.ExtHashMap.ofList entries = t.numbers := by
  refine Std.ExtHashMap.ext_getElem? fun label => ?_
  have hapart : entries.Pairwise fun e e' => (e.1 == e'.1) = false :=
    (hperm.pairwise_iff fun hne => BEq.symm_false hne).2
      ((pairwise_entries h.nodup).imp fun hne => beq_false_of_ne hne)
  change _ = t.number? label
  cases hn : t.number? label with
  | some n =>
    have hmem : (label, n) ∈ entries :=
      hperm.mem_iff.2 (mem_entries.2 ⟨h.isSome_iff.1 ⟨n, hn⟩, hn⟩)
    exact Std.ExtHashMap.getElem?_ofList_of_mem BEq.rfl hapart hmem
  | none =>
    refine Std.ExtHashMap.getElem?_ofList_of_contains_eq_false ?_
    rw [← Bool.not_eq_true, List.contains_iff_mem, List.mem_map]
    rintro ⟨⟨_, n⟩, hmem, rfl⟩
    have hsome := (mem_entries.1 (hperm.mem_iff.1 hmem)).2
    rw [hn] at hsome
    cases hsome

end LabelTable

/-! ## Hashes and ranges -/

theorem PairHash.shift_le {lefts : Interval} {pairs : List (UInt16 × UInt16)} {block : LeftBlock}
    (h : block ∈ (build lefts pairs).blocks) : block.shift.toNat ≤ 16 := by
  let Shifted (d : Draft) (_ : List UInt16) : Prop := ∀ block ∈ d.blocks, block.shift.toNat ≤ 16
  have hall : Shifted (lefts.toList.foldl
      (Draft.addLeft fun left => (siblings pairs).getD left []) ⟨#[], #[], #[], #[]⟩)
      lefts.toList := by
    refine addLefts_induction (motive := Shifted) (by simp [Shifted]) ?_ lefts.length_toList_le
      lefts.nodup_toList
    intro d pre left _ _ _ _ hshifted block hblock
    unfold Draft.addLeft at hblock
    dsimp only at hblock
    rw [blocks_enterAll, Array.mem_push] at hblock
    rcases hblock with hblock | rfl
    · exact hshifted block hblock
    · exact SlotTable.smallest_shift (nodup_rights _) d.marks
  exact hall block h

theorem Grammar.le_of_mem_rangesOf {count : Nat} {pairs : List (UInt16 × UInt16)}
    {lo hi : UInt16} (h : some (lo, hi) ∈ rangesOf count pairs) : lo ≤ hi := by
  have hfold (pairs : List (UInt16 × UInt16)) (ranges : Array (Option (UInt16 × UInt16)))
      (hranges : ∀ lo hi, some (lo, hi) ∈ ranges → lo ≤ hi) :
      ∀ lo hi, some (lo, hi) ∈ pairs.foldl
        (fun ranges pair => ranges.modify pair.1.toNat (widen pair.2)) ranges → lo ≤ hi := by
    induction pairs generalizing ranges with
    | nil => exact hranges
    | cons pair pairs ih =>
      refine ih _ fun least greatest hmem => ?_
      obtain ⟨i, hsize, hget⟩ := Array.mem_iff_getElem.1 hmem
      have hi : i < ranges.size := by simpa using hsize
      rw [Array.getElem_modify] at hget
      split_ifs at hget with hleft
      · obtain ⟨lo, hi, hwiden, ⟨hlo, hhi⟩, -⟩ := widen_covers pair.2 ranges[i]
        rw [hwiden] at hget
        cases hget
        exact UInt16.le_trans hlo hhi
      · exact hranges least greatest (hget ▸ Array.getElem_mem _)
  exact hfold pairs _ (by simp) lo hi h

theorem SiblingIndex.hash_of_ofEntries? {labels : Nat} {entries : List Entry}
    {index : SiblingIndex} (h : ofEntries? labels entries = some index) :
    index.hash = .build ⟨0, UInt16.ofNat labels⟩ (entries.map fun e => (e.parent, e.sibling)) := by
  unfold ofEntries? at h
  obtain ⟨matrix, -, hindex⟩ := Option.bind_eq_some_iff.1 h
  rw [← Option.some.inj hindex]

/-! ## The parts of a grammar -/

namespace Saved

open Codec

variable {f : ByteFormat} (hf : f.Lawful)
include hf

section Sequences

variable {α : Type} {c : Codec α}

theorem exact_sequence (h : ∀ a, c.Exact a) (xs : List α) : (f.sequence c).Exact xs :=
  hf.sequence c xs fun x _ => h x

theorem exact_array (h : ∀ a, c.Exact a) (xs : Array α) : (array f c).Exact xs :=
  (exact_sequence hf h xs.toList).via Array.toArray_toList

end Sequences

theorem exact_interval (r : Interval) : (interval f).Exact r :=
  ((hf.word16 r.start).pair (hf.word16 r.stop)).via rfl

theorem exact_bounds (b : ClassBounds) : (bounds f).Exact b :=
  ((hf.word16 _).pair ((hf.word16 _).pair ((hf.word16 _).pair ((hf.word16 _).pair
    ((hf.word16 _).pair (hf.word16 _)))))).via rfl

theorem exact_labelTable {t : LabelTable} (h : t.Indexed) : (labelTable f).Exact t := by
  refine Exact.via ((exact_array hf hf.text t.labels).pair
    (exact_sequence hf (fun e => (hf.text e.1).pair (hf.word32 e.2)) _)) ?_
  dsimp only
  rw [h.ofList_eq_numbers (hf.mapOrder t.entries)]

theorem exact_shiftPacking {p : ShiftPacking} (h : p.Fits) : (shiftPacking f).Exact p := by
  have hshift : (UInt32.ofNat p.shift).toNat = p.shift :=
    UInt32.toNat_ofNat_of_lt (Nat.lt_of_le_of_lt h.shift_le (by decide))
  have hsize : (UInt64.ofNat p.size).toNat = p.size :=
    UInt64.toNat_ofNat_of_lt (Nat.lt_of_le_of_lt h.size_le (by decide))
  refine Exact.via ((hf.word32 _).pair ((hf.word32 _).pair ((exact_interval hf _).pair
    ((exact_interval hf _).pair (hf.word64 _))))) ?_
  dsimp only
  rw [hshift, hsize]

theorem exact_bitVectorPacking {bounds : ClassBounds} {pairs : List (UInt16 × UInt16)}
    {p : BitVectorPacking} (h : BitVectorPacking.build bounds pairs = .ok p) :
    (bitVectorPacking f).Exact p := by
  obtain ⟨hbase, hkeys⟩ := BitVectorPacking.build_ok h
  have hfits := BitVectorPacking.build_fits h
  have hsize : (UInt64.ofNat p.base.size).toNat = p.base.size :=
    UInt64.toNat_ofNat_of_lt (Nat.lt_of_le_of_lt hfits.size_le (by decide))
  have hsorted : p.keys.toList.Pairwise (· < ·) := by
    rw [hkeys]
    exact (SortedSearch.increasing_sortedDistinct (fun _ _ _ => UInt32.le_trans) UInt32.le_total
      (fun _ _ => UInt32.le_antisymm) _).imp fun h => UInt32.lt_of_le_of_ne h.1 h.2
  have hbelow : ∀ key ∈ p.keys.toList, key.toNat < (UInt64.ofNat p.base.size).toNat := by
    intro key hkey
    rw [hkeys, SortedSearch.mem_sortedDistinct, List.mem_filterMap] at hkey
    obtain ⟨pair, -, hpack⟩ := hkey
    rw [hsize]
    exact (hfits.unpack_of_pack hpack).2
  exact Exact.via ((exact_shiftPacking hf hfits).pair (hf.keySet _ _ hsorted hbelow)) rfl

theorem exact_leftBlocks {blocks : Array LeftBlock}
    (h : ∀ block ∈ blocks, block.shift.toNat ≤ 16) : (leftBlocks f).Exact blocks := by
  refine Exact.elements (fun _ => Exact.zipped (exact_sequence hf hf.word8) fun _ =>
    Exact.zipped (exact_sequence hf hf.word32) (exact_sequence hf hf.word32)) ?_
  intro block hblock
  have hle := h block hblock
  have hshift : block.shift.toUInt8.toUInt32 = block.shift := by
    rw [← UInt32.toNat_inj, UInt8.toNat_toUInt32, UInt32.toNat_toUInt8]
    exact Nat.mod_eq_of_lt (by omega)
  dsimp only
  rw [hshift]

omit hf in
theorem ofSlotWords_slotWords (slot : Option PairSlot) : ofSlotWords (slotWords slot) = slot := by
  cases slot with
  | none => rfl
  | some s =>
    have hne : s.right.toUInt32 ≠ emptySlot := by
      intro heq
      have hlt := s.right.toNat_lt
      rw [← UInt16.toNat_toUInt32, heq] at hlt
      exact absurd hlt (by decide)
    rw [slotWords, ofSlotWords, if_neg hne, UInt16.toUInt16_toUInt32]

theorem exact_pairSlots (slots : Array (Option PairSlot)) : (pairSlots f).Exact slots :=
  Exact.elements (fun _ => Exact.zipped (exact_sequence hf hf.word32) (exact_sequence hf hf.word32))
    fun slot _ => ofSlotWords_slotWords slot

theorem exact_pairHash (lefts : Interval) (pairs : List (UInt16 × UInt16)) :
    (pairHash f).Exact (.build lefts pairs) :=
  ((exact_interval hf _).pair ((exact_leftBlocks hf fun _ => PairHash.shift_le).pair
    ((exact_pairSlots hf _).pair
      (exact_array hf (fun _ => (hf.word16 _).pair (hf.word16 _)) _)))).via rfl

/-- A variant is exact if what it holds is. -/
theorem exact_variant {α : Type} {d : Codec α} {a : α} (variant : UInt32) {make : α → Packing}
    (hd : d.Exact a) (hwrite : (packing f).write (make a) = f.word32.write variant ++ d.write a)
    (hread : ∀ bytes rest, f.word32.read bytes = .ok (variant, rest) →
      (packing f).read bytes = (d.read rest).map (Prod.map make id)) :
    (packing f).Exact (make a) := by
  have hvariant := hf.word32 variant
  constructor
  · intro rest
    rw [hwrite, List.append_assoc, hread _ _ (hvariant.whole _), hd.whole]
    rfl
  · intro bytes hbegin hne
    rw [hwrite] at hbegin hne
    rcases part_append hbegin hne with ⟨hshort, hne⟩ | ⟨rest, rfl, hrest, hne⟩
    · obtain ⟨reason, hreason⟩ := hvariant.part bytes hshort hne
      exact ⟨reason, by simp only [packing, hreason, bind, Except.bind]⟩
    · obtain ⟨reason, hreason⟩ := hd.part rest hrest hne
      exact ⟨reason, by rw [hread _ _ (hvariant.whole rest), hreason]; rfl⟩

theorem exact_packing {kind : PackingKind} {bounds : ClassBounds}
    {pairs : List (UInt16 × UInt16)} {p : Packing} (h : Packing.build kind bounds pairs = .ok p) :
    (packing f).Exact p := by
  rcases Packing.build_cases h with ⟨-, s, hs, rfl⟩ | ⟨-, b, hb, rfl⟩ | ⟨-, rfl⟩
  · refine exact_variant hf 0 (exact_shiftPacking hf (ShiftPacking.build_fits hs)) rfl ?_
    intro bytes rest hbytes
    simp only [packing, hbytes, bind, Except.bind]
    rfl
  · refine exact_variant hf 1 (exact_bitVectorPacking hf hb) rfl ?_
    intro bytes rest hbytes
    simp only [packing, hbytes, bind, Except.bind]
    rfl
  · refine exact_variant hf 2 (exact_pairHash hf _ _) rfl ?_
    intro bytes rest hbytes
    simp only [packing, hbytes, bind, Except.bind]
    rfl

theorem exact_rowMatrix (m : RowMatrix) : (rowMatrix f).Exact m :=
  ((exact_array hf hf.word32 _).pair
    (Exact.zipped (exact_sequence hf hf.word32) (exact_sequence hf hf.single))).via rfl

theorem exact_columnMatrix (m : ColumnMatrix) : (columnMatrix f).Exact m :=
  ((exact_array hf hf.word32 _).pair ((exact_array hf hf.word32 _).pair
    ((exact_array hf hf.word32 _).pair
      (Exact.zipped (exact_sequence hf hf.word16) (exact_sequence hf hf.single))))).via rfl

theorem exact_siblingIndex {labels : Nat} {entries : List SiblingIndex.Entry}
    {index : SiblingIndex} (h : SiblingIndex.ofEntries? labels entries = some index) :
    (siblingIndex f).Exact index := by
  refine Exact.via (Exact.pair ?_ (exact_columnMatrix hf index.matrix)) rfl
  rw [SiblingIndex.hash_of_ofEntries? h]
  exact exact_pairHash hf _ _

theorem exact_siblingRanges {ranges : Array (Option (UInt16 × UInt16))}
    (h : ∀ lo hi, some (lo, hi) ∈ ranges → lo ≤ hi) : (siblingRanges f).Exact ranges := by
  refine Exact.elements
    (fun _ => Exact.zipped (exact_sequence hf hf.word16) (exact_sequence hf hf.word16)) ?_
  intro range hrange
  cases range with
  | none => rfl
  | some ends => exact if_pos (h ends.1 ends.2 hrange)

/-- A grammar that is made of productions over tables of labels is restored. -/
theorem exact_grammar {labels lexicon : List String} {bounds : ClassBounds}
    {productions : List Production} {kind : PackingKind} {g : Grammar}
    {binary : List (UInt16 × UInt32 × Score)}
    (h : Grammar.Made (.ofList labels) (.ofList lexicon) bounds productions kind g binary) :
    (grammar f).Exact g := by
  have hlabels : (labelTable f).Exact g.labels := by
    rw [h.labels_eq]
    exact exact_labelTable hf (LabelTable.indexed_ofList labels)
  have hlexicon : (labelTable f).Exact g.lexicon := by
    rw [h.lexicon_eq]
    exact exact_labelTable hf (LabelTable.indexed_ofList lexicon)
  have hranges : (siblingRanges f).Exact g.siblingRanges := by
    rw [h.ranges]
    exact exact_siblingRanges hf fun _ _ => Grammar.le_of_mem_rangesOf
  have hnumbering : (numbering f).Exact (g.start, g.labels, g.lexicon, g.bounds, g.packing) :=
    (hf.word16 _).pair (hlabels.pair (hlexicon.pair ((exact_bounds hf _).pair
      (exact_packing hf h.packing))))
  have hmatrices : (matrices f).Exact (g.binaryByParent, g.binaryByPair, g.unaryByParent,
      g.unaryByChild, g.lexical, g.leftChildren, g.rightChildren, g.siblingRanges) :=
    (exact_rowMatrix hf _).pair ((exact_columnMatrix hf _).pair ((exact_rowMatrix hf _).pair
      ((exact_columnMatrix hf _).pair ((exact_columnMatrix hf _).pair
        ((exact_siblingIndex hf h.leftChildren).pair
          ((exact_siblingIndex hf h.rightChildren).pair hranges))))))
  exact (hnumbering.pair hmatrices).via rfl

end Saved

namespace Grammar

variable {f : ByteFormat}

/-- The ways to a grammar: from the rules of a source, or from numbered productions over
tables of labels. -/
inductive Produced : Grammar → Prop
  | compiled {source : GrammarSource} {kind : PackingKind} {g : Grammar}
      (h : compile source kind = .ok g) : Produced g
  | made {start : UInt16} {labels lexicon : List String} {bounds : ClassBounds}
      {productions : List Production} {kind : PackingKind} {g : Grammar}
      (h : ofProductions start (.ofList labels) (.ofList lexicon) bounds productions kind = .ok g) :
      Produced g

/-- A compiled grammar is made of productions over tables of labels. -/
theorem exists_of_compile {source : GrammarSource} {kind : PackingKind} {g : Grammar}
    (h : compile source kind = .ok g) : ∃ labels start bounds productions,
      ofProductions start (.ofList labels) (.ofList source.words) bounds productions kind
        = .ok g := by
  rw [compile_eq] at h
  split_ifs at h
  exact ⟨_, _, _, _, h⟩

theorem Produced.exact {g : Grammar} (h : g.Produced) (hf : f.Lawful) :
    (Saved.grammar f).Exact g := by
  cases h with
  | compiled h =>
    obtain ⟨labels, start, bounds, productions, h⟩ := exists_of_compile h
    obtain ⟨-, binary, hmade⟩ := ofProductions_ok h
    exact Saved.exact_grammar hf hmade
  | made h =>
    obtain ⟨-, binary, hmade⟩ := ofProductions_ok h
    exact Saved.exact_grammar hf hmade

/-- Saving loses nothing, whatever format the bytes are in: the bytes of a grammar, with or
without others after them, are loaded as that very grammar. And no byte of them can be missing
at the end: what is left is reported as no grammar. -/
theorem load_save_eq (f : ByteFormat) (hf : f.Lawful) {g : Grammar} (h : g.Produced) :
    (∀ rest, load f (g.save f ++ rest) = .ok g) ∧
      ∀ bytes, bytes <+: g.save f → bytes ≠ g.save f →
        ∃ reason, load f bytes = .error (.serialization reason) := by
  have hexact := h.exact hf
  constructor
  · intro rest
    rw [load, save, hexact.whole]
  · intro bytes hbegin hne
    obtain ⟨reason, hreason⟩ := hexact.part bytes hbegin hne
    exact ⟨reason, by rw [load, hreason]⟩

theorem load_save_eq_sample : ∃ g, compile (.sample true) .perfectHash = .ok g ∧
    (∀ rest, load .standard (g.save .standard ++ rest) = .ok g) ∧
      ∀ bytes, bytes <+: g.save .standard → bytes ≠ g.save .standard →
        ∃ reason, load .standard bytes = .error (.serialization reason) := by
  obtain ⟨g, hg, -⟩ := exists_sample_under true .perfectHash
  exact ⟨g, hg, load_save_eq .standard ByteFormat.lawful_standard (.compiled hg)⟩

end Grammar
end ChartParsing

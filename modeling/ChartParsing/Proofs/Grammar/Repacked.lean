import ChartParsing.Proofs.Grammar.Siblings
import ChartParsing.Proofs.Packing.Bijection
import Mathlib.Data.List.Sort

/-!
# Grammars under two packings

Grammars of one source that are compiled under two packings have the same rules, and the
same tables except where these go by keys of child pairs. Even there they have the same
rules in the same order, since both packings put the pairs that rules use in one order.
-/

namespace ChartParsing

/-- Two keys stand for one pair of children. -/
def Packing.SamePair (p q : Packing) (key key' : UInt32) : Prop :=
  ∃ left right, p.pack left right = some key ∧ q.pack left right = some key'

namespace Grammar

/-- A grammar has the tables of another one, under a packing that accepts no fewer pairs. -/
structure Repacked (g h : Grammar) : Prop where
  start : h.start = g.start
  labels : h.labels = g.labels
  lexicon : h.lexicon = g.lexicon
  unaryByChild : h.unaryByChild = g.unaryByChild
  lexical : h.lexical = g.lexical
  siblingRanges : h.siblingRanges = g.siblingRanges
  accepts : ∀ {left right key}, g.packing.pack left right = some key →
    ∃ key', h.packing.pack left right = some key'
  size : h.binaryByPair.populated.size = g.binaryByPair.populated.size
  populated : ∀ i < g.binaryByPair.populated.size, g.packing.SamePair h.packing
    (g.binaryByPair.populated.getD i 0) (h.binaryByPair.populated.getD i 0)
  columns : ∀ i < g.binaryByPair.populated.size,
    h.binaryByPair.populatedColumn i = g.binaryByPair.populatedColumn i

/-- What compiling one source under two packings has made its tables of. -/
theorem made_of_compile_twice {source : GrammarSource} {kind kind' : PackingKind} {g h : Grammar}
    (hg : compile source kind = .ok g) (hh : compile source kind' = .ok h) :
    h.start = g.start ∧ ∃ lexicon bounds productions binary binary',
      Made g.labels lexicon bounds productions kind g binary ∧
        Made g.labels lexicon bounds productions kind' h binary' := by
  unfold compile at hg hh
  dsimp only at hg hh
  split_ifs at hg hh with hmany
  · cases hg
  · simp only [bind_eq_ok] at hg hh
    obtain ⟨entries, hentries, rules, hrules, start, hstart, hg⟩ := hg
    obtain ⟨entries', hentries', rules', hrules', start', hstart', hh⟩ := hh
    obtain rfl := Except.ok.inj (hentries.symm.trans hentries')
    obtain rfl := Except.ok.inj (hrules.symm.trans hrules')
    obtain rfl := Except.ok.inj (hstart.symm.trans hstart')
    obtain ⟨hs, binary, hmade⟩ := ofProductions_ok hg
    obtain ⟨hs', binary', hmade'⟩ := ofProductions_ok hh
    rw [hmade.labels_eq]
    exact ⟨hs'.trans hs.symm, _, _, _, binary, binary', hmade, hmade'⟩

/-- The pairs of children that rules use, in the order of their keys. -/
def usedPairs (g : Grammar) : List (UInt16 × UInt16) :=
  g.binaryByPair.populated.toList.map fun key => (g.packing.unpack key).getD (0, 0)

variable {g h : Grammar}

theorem Repacked.size_eq (hgh : g.Repacked h) : h.size = g.size :=
  congrArg LabelTable.size hgh.labels

theorem exists_pack (hg : g.Coherent) {key : UInt32}
    (hkey : key ∈ g.binaryByPair.populated.toList) :
    g.packing.pack ((g.packing.unpack key).getD (0, 0)).1
      ((g.packing.unpack key).getD (0, 0)).2 = some key := by
  obtain ⟨⟨parent, score⟩, hmem⟩ := List.exists_mem_of_ne_nil _ ((hg.mem_populated key).1 hkey)
  obtain ⟨left, right, hpack, -⟩ := hg.binary.1 hmem
  rw [(hg.unpack_of_pack hpack).1]
  exact hpack

theorem mem_usedPairs (hg : g.Coherent) {left right : UInt16} : (left, right) ∈ g.usedPairs ↔
    ∃ parent score, g.HasBinary parent left right score := by
  unfold usedPairs
  rw [List.mem_map]
  constructor
  · rintro ⟨key, hkey, heq⟩
    obtain ⟨⟨parent, score⟩, hmem⟩ := List.exists_mem_of_ne_nil _ ((hg.mem_populated key).1 hkey)
    obtain ⟨left', right', hpack, hrule⟩ := hg.binary.1 hmem
    rw [(hg.unpack_of_pack hpack).1] at heq
    cases heq
    exact ⟨parent, score, hrule⟩
  · rintro ⟨parent, score, key, hpack, hmem⟩
    have hentry := hg.binary.2 ⟨left, right, hpack, key, hpack, hmem⟩
    refine ⟨key, (hg.mem_populated key).2 (List.ne_nil_of_mem hentry), ?_⟩
    rw [(hg.unpack_of_pack hpack).1]
    rfl

section Made

variable {labels lexicon : LabelTable} {bounds : ClassBounds} {productions : List Production}
  {kind kind' : PackingKind} {binary binary' : List (UInt16 × UInt32 × Score)}

theorem Made.sorted_usedPairs (hmade : Made labels lexicon bounds productions kind g binary)
    (hg : g.Coherent) :
    g.usedPairs.Pairwise fun p q => pairRank p.1 p.2 < pairRank q.1 q.2 := by
  unfold usedPairs
  rw [List.pairwise_map]
  refine (ColumnMatrix.populated_sorted hmade.binaryByPair).imp_of_mem
    fun {key key'} hkey hkey' hlt => ?_
  exact (Packing.key_lt_iff hmade.packing (exists_pack hg hkey) (exists_pack hg hkey')).1
    (UInt32.lt_iff_toNat_lt.2 hlt)

theorem Made.hasBinary_congr (hmade : Made labels lexicon bounds productions kind g binary)
    (hmade' : Made labels lexicon bounds productions kind' h binary') {parent left right : UInt16}
    {score : Score} :
    h.HasBinary parent left right score ↔ g.HasBinary parent left right score := by
  rw [hmade.hasBinary_iff, hmade'.hasBinary_iff]

theorem Made.usedPairs_eq (hmade : Made labels lexicon bounds productions kind g binary)
    (hmade' : Made labels lexicon bounds productions kind' h binary') (hg : g.Coherent)
    (hh : h.Coherent) : h.usedPairs = g.usedPairs := by
  have hantisymm : Std.Antisymm fun p q : UInt16 × UInt16 => pairRank p.1 p.2 < pairRank q.1 q.2 :=
    ⟨fun p q hpq hqp => absurd hpq (Nat.lt_asymm hqp)⟩
  have hirrefl : Std.Irrefl fun p q : UInt16 × UInt16 => pairRank p.1 p.2 < pairRank q.1 q.2 :=
    ⟨fun p => Nat.lt_irrefl _⟩
  refine (hmade'.sorted_usedPairs hh).eq_of_mem_iff (hmade.sorted_usedPairs hg) ?_
  rintro ⟨left, right⟩
  simp only [mem_usedPairs hg, mem_usedPairs hh, hmade.hasBinary_congr hmade']

/-- A column holds the rules of its pair in the order of their parents. -/
theorem Made.column_congr (hmade : Made labels lexicon bounds productions kind g binary)
    (hmade' : Made labels lexicon bounds productions kind' h binary') (hg : g.Coherent)
    (hh : h.Coherent) {key key' : UInt32} (hpair : g.packing.SamePair h.packing key key') :
    h.binaryByPair.column key' = g.binaryByPair.column key := by
  obtain ⟨left, right, hpack, hpack'⟩ := hpair
  have hantisymm : Std.Antisymm fun x y : UInt16 × Score => x.1 < y.1 :=
    ⟨fun x y hxy hyx => absurd hxy (UInt16.lt_asymm hyx)⟩
  have hirrefl : Std.Irrefl fun x y : UInt16 × Score => x.1 < y.1 := ⟨fun x => UInt16.lt_irrefl _⟩
  have hmem {g : Grammar} (hg : g.Coherent) {key : UInt32}
      (hpack : g.packing.pack left right = some key) {parent : UInt16} {score : Score} :
      (parent, score) ∈ g.binaryByPair.column key ↔ g.HasBinary parent left right score := by
    rw [hg.binary]
    constructor
    · rintro ⟨left', right', hpack', hrule⟩
      have hsame := (hg.unpack_of_pack hpack').1.symm.trans (hg.unpack_of_pack hpack).1
      cases hsame
      exact hrule
    · exact fun hrule => ⟨left, right, hpack, hrule⟩
  refine (ColumnMatrix.column_sorted hmade'.binaryByPair (Made.narrow_inColumn _ _ _ _)
    key').eq_of_mem_iff (ColumnMatrix.column_sorted hmade.binaryByPair
      (Made.narrow_inColumn _ _ _ _) key) ?_
  rintro ⟨parent, score⟩
  rw [hmem hg hpack, hmem hh hpack', hmade.hasBinary_congr hmade']

/-- A packing other than by shifting accepts the pairs of rules only. -/
theorem Made.accepts (hmade : Made labels lexicon bounds productions kind g binary)
    (hmade' : Made labels lexicon bounds productions kind' h binary') (hkind : kind ≠ .shift)
    {left right : UInt16} {key : UInt32} (hpack : g.packing.pack left right = some key) :
    ∃ key', h.packing.pack left right = some key' := by
  obtain ⟨rule, hrule, heq⟩ := List.mem_map.1 (Packing.mem_of_pack hmade.packing hkind hpack)
  cases heq
  exact (keyed_eq_map hmade'.keyed).2 rule hrule

theorem Made.samePair (hmade : Made labels lexicon bounds productions kind g binary)
    (hmade' : Made labels lexicon bounds productions kind' h binary') (hg : g.Coherent)
    (hh : h.Coherent) : h.binaryByPair.populated.size = g.binaryByPair.populated.size ∧
      ∀ i < g.binaryByPair.populated.size, g.packing.SamePair h.packing
        (g.binaryByPair.populated.getD i 0) (h.binaryByPair.populated.getD i 0) := by
  have hused := hmade.usedPairs_eq hmade' hg hh
  have hsize : h.binaryByPair.populated.size = g.binaryByPair.populated.size := by
    simpa [usedPairs] using congrArg List.length hused
  refine ⟨hsize, fun i hi => ?_⟩
  have hi' : i < h.binaryByPair.populated.size := hsize ▸ hi
  have hpair := congrArg (·[i]?) hused
  simp only [usedPairs, List.getElem?_map, Array.getElem?_toList,
    Array.getElem?_eq_getElem hi, Array.getElem?_eq_getElem hi', Option.map_some,
    Option.some.injEq] at hpair
  have hpack := exists_pack hg (ColumnMatrix.getD_mem hi)
  have hpack' := exists_pack hh (ColumnMatrix.getD_mem hi')
  rw [ColumnMatrix.getD_of_lt hi] at hpack ⊢
  rw [ColumnMatrix.getD_of_lt hi', hpair] at hpack'
  rw [ColumnMatrix.getD_of_lt hi']
  exact ⟨_, _, hpack, hpack'⟩

end Made

/-- The grammar of a source under one packing is that under another one with keys of its own,
unless the other packing is the only one of the two that accepts every pair. -/
theorem repacked_of_compile {source : GrammarSource} {kind kind' : PackingKind}
    (hg : compile source kind = .ok g) (hh : compile source kind' = .ok h)
    (hkind : kind ≠ .shift ∨ kind' = .shift) : g.Repacked h := by
  obtain ⟨hstart, lexicon, bounds, productions, binary, binary', hmade, hmade'⟩ :=
    made_of_compile_twice hg hh
  have hcoherent := coherent_of_compile hg
  have hcoherent' := coherent_of_compile hh
  obtain ⟨hsize, hpairs⟩ := hmade.samePair hmade' hcoherent hcoherent'
  constructor
  case start => exact hstart
  case labels => exact hmade'.labels_eq
  case lexicon => exact hmade'.lexicon_eq.trans hmade.lexicon_eq.symm
  case unaryByChild => exact Option.some.inj (hmade'.unaryByChild.symm.trans hmade.unaryByChild)
  case lexical => exact Option.some.inj (hmade'.lexical.symm.trans hmade.lexical)
  case siblingRanges => exact hmade'.ranges.trans hmade.ranges.symm
  case accepts =>
    intro left right key hpack
    by_cases hshift : kind = .shift
    · obtain rfl := hkind.resolve_left (not_not_intro hshift)
      subst hshift
      obtain rfl := Except.ok.inj (hg.symm.trans hh)
      exact ⟨key, hpack⟩
    · exact hmade.accepts hmade' hshift hpack
  case size => exact hsize
  case populated => exact hpairs
  case columns =>
    intro i hi
    rw [hcoherent.populated i hi, hcoherent'.populated i (hsize ▸ hi)]
    exact hmade.column_congr hmade' hcoherent hcoherent' (hpairs i hi)

end Grammar
end ChartParsing

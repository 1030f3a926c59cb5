import ChartParsing.Proofs.Grammar.Making
import ChartParsing.Proofs.Grammar.Siblings

/-!
# Views of the rules

A grammar keeps its binary rules four times, its unary rules twice and its lexicon once. Each
view goes by other numbers, and each merges the productions of one rule on its own. Yet all of
them hold the same rules with the same scores, bit for bit: a score is the sum, as
probabilities, of the productions of the rule in the order in which they are listed, because
the sort behind every view is stable. No view holds anything else.
-/

namespace ChartParsing

/-- Scores added as probabilities from the left, if there are any. -/
def Score.logSums? : List Score → Option Score
  | [] => none
  | value :: values => some (values.foldl logSum value)

namespace Triple

theorem total?_eq_logSums? (ts : List Triple) (rank : Nat) :
    total? ts rank = Score.logSums? ((ts.filter fun t => t.rank = rank).map (·.value)) := by
  unfold total?
  cases (ts.filter fun t => t.rank = rank).map (·.value) <;> rfl

/-- The total of a position is the sum over what has given a triple for it. -/
theorem total?_filterMap {α : Type} {f : α → Option Triple} {chosen : α → Bool}
    {value : α → Score} {rank : Nat}
    (hchosen : ∀ x, chosen x = true ↔ ∃ t, f x = some t ∧ t.rank = rank)
    (hvalue : ∀ x t, f x = some t → t.value = value x) (xs : List α) :
    total? (xs.filterMap f) rank = Score.logSums? ((xs.filter chosen).map value) := by
  rw [total?_eq_logSums?]
  congr 1
  induction xs with
  | nil => rfl
  | cons x xs ih =>
    cases hf : f x with
    | none =>
      have hout : ¬chosen x = true := fun hx => by
        obtain ⟨t, ht, -⟩ := (hchosen x).1 hx
        simp [hf] at ht
      rw [List.filterMap_cons_none hf, List.filter_cons_of_neg hout, ih]
    | some t =>
      rw [List.filterMap_cons_some hf]
      by_cases hrank : t.rank = rank
      · rw [List.filter_cons_of_pos (by simpa using hrank),
          List.filter_cons_of_pos ((hchosen x).2 ⟨t, hf, hrank⟩), List.map_cons, List.map_cons, ih,
          hvalue x t hf]
      · have hout : ¬chosen x = true := fun hx => by
          obtain ⟨u, hu, hrank'⟩ := (hchosen x).1 hx
          rw [hf] at hu
          exact hrank (Option.some.inj hu ▸ hrank')
        rw [List.filter_cons_of_neg (by simpa using hrank), List.filter_cons_of_neg hout, ih]

end Triple

/-! ## What a matrix holds -/

namespace RowMatrix

/-- A matrix holds exactly the given scores, each once, row by row in increasing order. -/
structure Holds (m : RowMatrix) (given : UInt16 → UInt32 → Score → Prop) : Prop where
  sorted : ∀ row, (m.row row).Pairwise fun x y => x.1 < y.1
  mem : ∀ row column value, (column, value) ∈ m.row row ↔ given row column value
  all : ∀ cell ∈ m.cells, ∃ row, cell ∈ m.row row

variable {rows : Nat} {entries : List Triple} {m : RowMatrix}

theorem holds_of_mem (h : ofTriples? rows entries = some m) (hrows : rows ≤ 65536)
    {given : UInt16 → UInt32 → Score → Prop}
    (hmem : ∀ row column value, (column, value) ∈ m.row row ↔ given row column value) :
    m.Holds given := by
  refine ⟨fun row => ?_, hmem, fun cell hcell => ?_⟩
  · rw [row_eq h]
    exact Triple.bucket_sorted entries _
  · obtain ⟨hbucketed, hm⟩ := ofTriples?_eq h
    rw [hm] at hcell
    obtain ⟨t, ht, rfl⟩ := Array.mem_map.1 hcell
    have hlt := hbucketed.major_lt t (Array.mem_toList_iff.2 ht)
    refine ⟨t.major.toUInt16, ?_⟩
    have hmajor : t.major.toUInt16.toUInt32 = t.major := by
      apply UInt32.toNat_inj.1
      rw [UInt16.toNat_toUInt32, UInt32.toNat_toUInt16]
      omega
    rw [mem_row h, hmajor]
    exact ((Triple.accumulate_spec entries).mem t).1 (Array.mem_toList_iff.2 ht)

/-- The score at a position is the one that the row has for it. -/
theorem get_eq_getD (h : ofTriples? rows entries = some m) {row : UInt16} {column : UInt32}
    {given : Option Score} (hmem : ∀ value, (column, value) ∈ m.row row ↔ given = some value) :
    m.get row column = given.getD Score.absent := by
  rw [get_eq h]
  congr 1
  exact Option.ext fun value => (mem_row h).symm.trans (hmem value)

end RowMatrix

namespace ColumnMatrix

/-- A matrix holds exactly the given scores, each once, column by column in increasing order. -/
structure Holds (m : ColumnMatrix) (given : UInt32 → UInt16 → Score → Prop) : Prop where
  sorted : ∀ column, (m.column column).Pairwise fun x y => x.1 < y.1
  mem : ∀ column row value, (row, value) ∈ m.column column ↔ given column row value
  all : ∀ cell ∈ m.cells, ∃ column, cell ∈ m.column column

variable {columns : Nat} {entries : List Triple} {m : ColumnMatrix}

theorem holds_of_mem (h : ofTriples? columns entries = some m) (hnarrow : Narrow entries)
    {given : UInt32 → UInt16 → Score → Prop}
    (hmem : ∀ column row value, (row, value) ∈ m.column column ↔ given column row value) :
    m.Holds given := by
  refine ⟨column_sorted h hnarrow, hmem, fun cell hcell => ?_⟩
  obtain ⟨-, -, hm⟩ := ofTriples?_eq h
  rw [hm] at hcell
  obtain ⟨t, ht, rfl⟩ := Array.mem_map.1 hcell
  have htotal := ((Triple.accumulate_spec entries).mem t).1 (Array.mem_toList_iff.2 ht)
  refine ⟨t.major, ?_⟩
  rw [column_eq h]
  exact List.mem_map.2 ⟨(t.minor, t.value), Triple.mem_bucket.2 htotal, rfl⟩

/-- The score at a position is the one that the column has for it. -/
theorem get_eq_getD (h : ofTriples? columns entries = some m) (hnarrow : Narrow entries)
    {row : UInt16} {column : UInt32} {given : Option Score}
    (hmem : ∀ value, (row, value) ∈ m.column column ↔ given = some value) :
    m.get row column = given.getD Score.absent := by
  rw [get_eq h hnarrow]
  congr 1
  exact Option.ext fun value => (mem_column h hnarrow).symm.trans (hmem value)

theorem lt_columns_of_mem {column : UInt32} {cell : UInt16 × Score}
    (h : cell ∈ m.column column) : column.toNat < m.columns := by
  by_contra hge
  simp [ColumnMatrix.column, bounds, hge] at h

end ColumnMatrix

/-! ## Views by parent and sibling -/

namespace SiblingIndex

variable {labels : Nat} {entries : List Entry} {index : SiblingIndex}

theorem ofEntries?_eq (h : ofEntries? labels entries = some index) :
    index.hash = PairHash.build ⟨0, UInt16.ofNat labels⟩
        (entries.map fun e => (e.parent, e.sibling)) ∧
      ColumnMatrix.ofTriples? index.hash.size (entries.filterMap fun e =>
        (index.hash.pack e.parent e.sibling).map fun key => Triple.inColumn e.child key e.value) =
          some index.matrix := by
  unfold ofEntries? at h
  obtain ⟨matrix, hmatrix, hindex⟩ := Option.bind_eq_some_iff.1 h
  obtain rfl := Option.some.inj hindex
  exact ⟨rfl, hmatrix⟩

theorem pack_of_mem_children {parent sibling : UInt16} {cell : UInt16 × Score}
    (h : cell ∈ index.children parent sibling) :
    ∃ key, index.hash.pack parent sibling = some key ∧ cell ∈ index.matrix.column key := by
  unfold children at h
  cases hkey : index.hash.pack parent sibling with
  | none => simp [hkey] at h
  | some key => exact ⟨key, rfl, by simpa [hkey] using h⟩

/-- A column is that of one parent and sibling, and holds the children that they leave. -/
theorem mem_column (h : ofEntries? labels entries = some index) {key : UInt32}
    {cell : UInt16 × Score} : cell ∈ index.matrix.column key ↔
      ∃ parent sibling, index.hash.pack parent sibling = some key ∧
        cell ∈ index.children parent sibling := by
  obtain ⟨hhash, hmatrix⟩ := ofEntries?_eq h
  constructor
  · intro hcell
    have hlt := ColumnMatrix.lt_columns_of_mem hcell
    rw [ColumnMatrix.columns_eq hmatrix] at hlt
    obtain ⟨⟨parent, sibling⟩, hpair⟩ : ∃ pair, index.hash.unpack key = some pair :=
      ⟨_, Array.getElem?_eq_getElem hlt⟩
    have hpack : index.hash.pack parent sibling = some key := by
      rw [hhash] at hpair ⊢
      exact PairHash.pack_eq_some_iff.2 hpair
    refine ⟨parent, sibling, hpack, ?_⟩
    simpa [children, hpack] using hcell
  · rintro ⟨parent, sibling, hpack, hcell⟩
    simpa [children, hpack] using hcell

theorem holds_of_children (h : ofEntries? labels entries = some index)
    {given : UInt16 → UInt16 → UInt16 → Score → Prop}
    (hmem : ∀ parent sibling child value,
      (child, value) ∈ index.children parent sibling ↔ given parent sibling child value) :
    index.matrix.Holds fun key child value =>
      ∃ parent sibling, index.hash.pack parent sibling = some key ∧
        given parent sibling child value := by
  have hnarrow : ColumnMatrix.Narrow (entries.filterMap fun e =>
      (index.hash.pack e.parent e.sibling).map fun key => Triple.inColumn e.child key e.value) := by
    intro t ht
    obtain ⟨e, -, he⟩ := List.mem_filterMap.1 ht
    obtain ⟨key, -, rfl⟩ := Option.map_eq_some_iff.1 he
    simpa [Triple.inColumn] using e.child.toNat_lt
  refine ColumnMatrix.holds_of_mem (ofEntries?_eq h).2 hnarrow fun key child value => ?_
  rw [mem_column h]
  simp only [hmem]

end SiblingIndex

/-! ## The rules of a list of productions -/

namespace Production

/-- The score that a list of productions gives a rule: that of all its productions together. -/
def weight? (productions : List Production) (parent : UInt16) (expansion : Expansion) :
    Option Score :=
  Score.logSums?
    ((productions.filter fun p => p.parent = parent ∧ p.expansion = expansion).map (·.logProb))

/-- A rule that is given a score has a production. -/
theorem exists_of_weight? {productions : List Production} {parent : UInt16}
    {expansion : Expansion} {score : Score} (h : weight? productions parent expansion = some score) :
    ∃ p ∈ productions, p.parent = parent ∧ p.expansion = expansion := by
  unfold weight? at h
  cases hchosen : productions.filter fun p => p.parent = parent ∧ p.expansion = expansion with
  | nil =>
    rw [hchosen] at h
    cases h
  | cons p ps =>
    have hp : p ∈ productions.filter fun p => p.parent = parent ∧ p.expansion = expansion := by
      rw [hchosen]
      exact List.mem_cons_self
    obtain ⟨hmem, hrule⟩ := List.mem_filter.1 hp
    exact ⟨p, hmem, of_decide_eq_true hrule⟩

/-- The order of binary rules: by parent, then by left child, then by right child. -/
def Precedes (p q : Production) : Prop :=
  ∃ left right left' right', p.expansion = .binary left right ∧ q.expansion = .binary left' right' ∧
    (p.parent < q.parent ∨ (p.parent = q.parent ∧ (left < left' ∨ (left = left' ∧ right < right'))))

end Production

namespace Grammar

open Production

/-- Every view of the rules of a grammar holds what a list of productions says, and nothing
else. -/
structure Tabulates (g : Grammar) (productions : List Production) : Prop where
  packs : ∀ parent left right value,
    weight? productions parent (.binary left right) = some value →
      (∃ key, g.packing.pack left right = some key) ∧
      (∃ key, g.leftChildren.hash.pack parent right = some key) ∧
      ∃ key, g.rightChildren.hash.pack parent left = some key
  binaryByParent : g.binaryByParent.Holds fun parent key value =>
    ∃ left right, g.packing.pack left right = some key ∧
      weight? productions parent (.binary left right) = some value
  binaryByPair : g.binaryByPair.Holds fun key parent value =>
    ∃ left right, g.packing.pack left right = some key ∧
      weight? productions parent (.binary left right) = some value
  leftChildren : g.leftChildren.matrix.Holds fun key left value =>
    ∃ parent right, g.leftChildren.hash.pack parent right = some key ∧
      weight? productions parent (.binary left right) = some value
  rightChildren : g.rightChildren.matrix.Holds fun key right value =>
    ∃ parent left, g.rightChildren.hash.pack parent left = some key ∧
      weight? productions parent (.binary left right) = some value
  unaryByParent : g.unaryByParent.Holds fun parent column value =>
    ∃ child : UInt16, column = child.toUInt32 ∧
      weight? productions parent (.unary child) = some value
  unaryByChild : g.unaryByChild.Holds fun column parent value =>
    ∃ child : UInt16, column = child.toUInt32 ∧
      weight? productions parent (.unary child) = some value
  lexical : g.lexical.Holds fun word parent value =>
    weight? productions parent (.lexical word) = some value
  binaryLogProb : ∀ parent left right, g.binaryLogProb parent left right =
    (weight? productions parent (.binary left right)).getD Score.absent
  unaryLogProb : ∀ parent child, g.unaryLogProb parent child =
    (weight? productions parent (.unary child)).getD Score.absent
  lexicalLogProb : ∀ parent word, g.lexicalLogProb parent word =
    (weight? productions parent (.lexical word)).getD Score.absent
  mem_binaryProductions : ∀ p, p ∈ g.binaryProductions ↔
    ∃ left right, p.expansion = .binary left right ∧
      weight? productions p.parent (.binary left right) = some p.logProb
  binaryProductions_sorted : g.binaryProductions.Pairwise Precedes

variable {start : UInt16} {labels lexicon : LabelTable} {bounds : ClassBounds}
  {productions : List Production} {kind : PackingKind} {g : Grammar}
  {binary : List (UInt16 × UInt32 × Score)}

theorem ruleScore?_eq_weight? (parent left right : UInt16) :
    ruleScore? (binaryOf productions) parent left right =
      weight? productions parent (.binary left right) := by
  unfold ruleScore? binaryOf weight?
  rw [List.map_filterMap]
  refine Triple.total?_filterMap (fun p => ?_) (fun p t ht => ?_) productions
  · rw [decide_eq_true_iff]
    cases hexp : p.expansion with
    | binary left' right' =>
      simp only [Option.map_some, Option.some.injEq, exists_eq_left', Triple.rank,
        Triple.place_eq_iff, widePair_inj, Expansion.binary.injEq]
      exact and_congr_left fun _ => ⟨congrArg _, toUInt32_inj⟩
    | unary child => simp
    | lexical word => simp
  · split at ht <;> simp at ht
    rw [← ht]

/-- The unary rules are those of the productions. -/
theorem Made.hasUnary_iff (h : Made labels lexicon bounds productions kind g binary)
    {parent child : UInt16} {value : Score} : g.HasUnary parent child value ↔
      weight? productions parent (.unary child) = some value := by
  rw [HasUnary, RowMatrix.mem_row h.unaryByParent, unaryOf, List.map_filterMap]
  refine Eq.congr_left
    (Triple.total?_filterMap (fun p => ?_) (fun p t ht => ?_) productions)
  · rw [decide_eq_true_iff]
    cases hexp : p.expansion with
    | binary left right => simp
    | unary child' =>
      simp only [Option.map_some, Option.some.injEq, exists_eq_left', Triple.rank,
        Triple.place_eq_iff, Expansion.unary.injEq]
      exact and_congr ⟨congrArg _, toUInt32_inj⟩ ⟨congrArg _, toUInt32_inj⟩
    | lexical word => simp
  · split at ht <;> simp at ht
    rw [← ht]

/-- The lexicon is that of the productions. -/
theorem Made.hasTag_iff (h : Made labels lexicon bounds productions kind g binary)
    {tag : UInt16} {word : UInt32} {value : Score} : g.HasTag tag word value ↔
      weight? productions tag (.lexical word) = some value := by
  rw [HasTag, ColumnMatrix.mem_column h.lexical (Made.narrow_inColumn _ _ _ _), lexicalOf,
    List.map_filterMap]
  refine Eq.congr_left
    (Triple.total?_filterMap (fun p => ?_) (fun p t ht => ?_) productions)
  · rw [decide_eq_true_iff]
    cases hexp : p.expansion with
    | binary left right => simp
    | unary child => simp
    | lexical word' =>
      simp only [Option.map_some, Option.some.injEq, exists_eq_left', Triple.rank,
        Triple.inColumn, Triple.place_eq_iff, Expansion.lexical.injEq]
      rw [and_comm]
      exact and_congr_right fun _ => ⟨congrArg _, toUInt32_inj⟩
  · split at ht <;> simp at ht
    rw [← ht]
    rfl

theorem Made.hasBinary_iff_weight? (h : Made labels lexicon bounds productions kind g binary)
    {parent left right : UInt16} {value : Score} : g.HasBinary parent left right value ↔
      weight? productions parent (.binary left right) = some value := by
  rw [h.hasBinary_iff, ruleScore?_eq_weight?]

theorem Made.mem_binaryRow (h : Made labels lexicon bounds productions kind g binary)
    (parent : UInt16) (key : UInt32) (value : Score) :
    (key, value) ∈ g.binaryByParent.row parent ↔
      ∃ left right, g.packing.pack left right = some key ∧
        weight? productions parent (.binary left right) = some value := by
  simp only [← h.hasBinary_iff_weight?]
  constructor
  · intro hmem
    obtain ⟨left, right, -, -, hpack⟩ := h.exists_rule hmem
    exact ⟨left, right, hpack, key, hpack, hmem⟩
  · rintro ⟨left, right, hpack, key', hpack', hmem⟩
    rw [hpack] at hpack'
    rwa [Option.some.inj hpack']

theorem Made.mem_unaryRow (h : Made labels lexicon bounds productions kind g binary)
    (parent : UInt16) (column : UInt32) (value : Score) :
    (column, value) ∈ g.unaryByParent.row parent ↔
      ∃ child : UInt16, column = child.toUInt32 ∧
        weight? productions parent (.unary child) = some value := by
  simp only [← h.hasUnary_iff]
  constructor
  · intro hmem
    obtain ⟨t, ht, hrank⟩ := Triple.exists_of_total? ((RowMatrix.mem_row h.unaryByParent).1 hmem)
    obtain ⟨rule, -, rfl⟩ := List.mem_map.1 ht
    obtain ⟨-, rfl⟩ := Triple.place_eq_iff.1 hrank
    exact ⟨rule.2.1, rfl, hmem⟩
  · rintro ⟨child, rfl, hmem⟩
    exact hmem

theorem Made.mem_unaryColumn (h : Made labels lexicon bounds productions kind g binary)
    (column : UInt32) (parent : UInt16) (value : Score) :
    (parent, value) ∈ g.unaryByChild.column column ↔
      ∃ child : UInt16, column = child.toUInt32 ∧
        weight? productions parent (.unary child) = some value := by
  simp only [← h.hasUnary_iff, ← h.mem_unaryColumn_iff]
  constructor
  · intro hmem
    have htotal := (ColumnMatrix.mem_column h.unaryByChild (narrow_inColumn _ _ _ _)).1 hmem
    obtain ⟨t, ht, hrank⟩ := Triple.exists_of_total? htotal
    obtain ⟨rule, -, rfl⟩ := List.mem_map.1 ht
    obtain ⟨rfl, -⟩ := Triple.place_eq_iff.1 hrank
    exact ⟨rule.2.1, rfl, hmem⟩
  · rintro ⟨child, rfl, hmem⟩
    exact hmem

theorem Made.binaryLogProb_eq (h : Made labels lexicon bounds productions kind g binary)
    (parent left right : UInt16) : g.binaryLogProb parent left right =
      (weight? productions parent (.binary left right)).getD Score.absent := by
  unfold Grammar.binaryLogProb
  cases hpack : g.packing.pack left right with
  | some key =>
    refine RowMatrix.get_eq_getD h.binaryByParent fun value => ?_
    rw [← h.hasBinary_iff_weight?, HasBinary, hpack]
    simp
  | none =>
    cases hweight : weight? productions parent (.binary left right) with
    | none => rfl
    | some value =>
      obtain ⟨key, hkey, -⟩ := h.hasBinary_iff_weight?.2 hweight
      rw [hpack] at hkey
      cases hkey

theorem mem_nonTerminals {nt : UInt16} :
    nt ∈ g.nonTerminals ↔ nt.toNat < g.size := by
  unfold nonTerminals
  rw [List.mem_map]
  constructor
  · rintro ⟨n, hn, rfl⟩
    exact Nat.lt_of_le_of_lt (Nat.mod_le _ _) (List.mem_range.1 hn)
  · intro hnt
    exact ⟨nt.toNat, List.mem_range.2 hnt, UInt16.ofNat_toNat⟩

theorem sorted_nonTerminals (hsize : g.size ≤ 65535) :
    g.nonTerminals.Pairwise fun m n => m < n := by
  unfold nonTerminals
  rw [List.pairwise_map]
  refine List.pairwise_lt_range.imp_of_mem fun {m n} hm hn hlt => ?_
  have hm' : (UInt16.ofNat m).toNat = m := Nat.mod_eq_of_lt (by have := List.mem_range.1 hm; omega)
  have hn' : (UInt16.ofNat n).toNat = n := Nat.mod_eq_of_lt (by have := List.mem_range.1 hn; omega)
  rw [UInt16.lt_iff_toNat_lt, hm', hn']
  exact hlt

theorem Made.mem_binaryProductions (h : Made labels lexicon bounds productions kind g binary)
    (p : Production) : p ∈ g.binaryProductions ↔
      ∃ left right, p.expansion = .binary left right ∧
        weight? productions p.parent (.binary left right) = some p.logProb := by
  have hcount : g.size = labels.size := congrArg LabelTable.size h.labels_eq
  simp only [binaryProductions, List.mem_flatMap, List.mem_filterMap, Option.map_eq_some_iff,
    mem_nonTerminals]
  constructor
  · rintro ⟨parent, -, ⟨key, value⟩, hcell, ⟨left, right⟩, hunpack, rfl⟩
    have hpack := (Packing.pack_eq_some_iff h.packing).2 hunpack
    exact ⟨left, right, rfl, h.hasBinary_iff_weight?.1 ⟨key, hpack, hcell⟩⟩
  · obtain ⟨parent, expansion, value⟩ := p
    rintro ⟨left, right, hexp, hweight⟩
    obtain rfl : expansion = .binary left right := hexp
    obtain ⟨key, hpack, hcell⟩ := h.hasBinary_iff_weight?.2 hweight
    refine ⟨parent, ?_, (key, value), hcell, (left, right), ?_, rfl⟩
    · rw [hcount]
      exact row_lt h.binaryByParent hcell
    · exact (Packing.pack_eq_some_iff h.packing).1 hpack

theorem Made.sorted_binaryProductions (h : Made labels lexicon bounds productions kind g binary)
    (hsize : g.size ≤ 65535) : g.binaryProductions.Pairwise Precedes := by
  unfold binaryProductions
  rw [List.pairwise_flatMap]
  constructor
  · intro parent _
    rw [List.pairwise_filterMap, RowMatrix.row_eq h.binaryByParent]
    refine (Triple.bucket_sorted _ _).imp fun {x y} hlt p hp q hq => ?_
    obtain ⟨⟨left, right⟩, hx, rfl⟩ := Option.map_eq_some_iff.1 hp
    obtain ⟨⟨left', right'⟩, hy, rfl⟩ := Option.map_eq_some_iff.1 hq
    have hpack := (Packing.pack_eq_some_iff h.packing).2 hx
    have hpack' := (Packing.pack_eq_some_iff h.packing).2 hy
    have hrank := pairRank_lt.1 ((Packing.key_lt_iff h.packing hpack hpack').1 hlt)
    exact ⟨left, right, left', right', rfl, rfl, Or.inr ⟨rfl, hrank⟩⟩
  · refine (sorted_nonTerminals hsize).imp fun {m n} hlt p hp q hq => ?_
    obtain ⟨x, -, hx⟩ := List.mem_filterMap.1 hp
    obtain ⟨y, -, hy⟩ := List.mem_filterMap.1 hq
    obtain ⟨⟨left, right⟩, -, rfl⟩ := Option.map_eq_some_iff.1 hx
    obtain ⟨⟨left', right'⟩, -, rfl⟩ := Option.map_eq_some_iff.1 hy
    exact ⟨left, right, left', right', rfl, rfl, Or.inl hlt⟩

/-- Whatever productions a grammar is made of, and under every packing, each view of its rules
holds every rule once, with the score that the productions give it, and nothing else. No grammar
is made of productions with 2^32 different rules, as `Triple.accumulate?` says. -/
theorem ofProductions_tabulates
    (h : ofProductions start labels lexicon bounds productions kind = .ok g)
    (hsize : labels.size ≤ 65535) : g.Tabulates productions := by
  obtain ⟨-, binary, hmade⟩ := ofProductions_ok h
  have hcount : g.size = labels.size := congrArg LabelTable.size hmade.labels_eq
  have hleft : ∀ parent right left value, (left, value) ∈ g.leftChildren.children parent right ↔
      weight? productions parent (.binary left right) = some value :=
    fun _ _ _ _ => (hmade.mem_leftChildren hsize).trans hmade.hasBinary_iff_weight?
  have hright : ∀ parent left right value, (right, value) ∈ g.rightChildren.children parent left ↔
      weight? productions parent (.binary left right) = some value :=
    fun _ _ _ _ => (hmade.mem_rightChildren hsize).trans hmade.hasBinary_iff_weight?
  constructor
  case packs =>
    intro parent left right value hweight
    obtain ⟨key, hkey, -⟩ := hmade.hasBinary_iff_weight?.2 hweight
    obtain ⟨keyLeft, hkeyLeft, -⟩ := SiblingIndex.pack_of_mem_children ((hleft _ _ _ _).2 hweight)
    obtain ⟨keyRight, hkeyRight, -⟩ := SiblingIndex.pack_of_mem_children ((hright _ _ _ _).2 hweight)
    exact ⟨⟨key, hkey⟩, ⟨keyLeft, hkeyLeft⟩, ⟨keyRight, hkeyRight⟩⟩
  case binaryByParent =>
    exact RowMatrix.holds_of_mem hmade.binaryByParent (by omega) hmade.mem_binaryRow
  case binaryByPair =>
    refine ColumnMatrix.holds_of_mem hmade.binaryByPair (Made.narrow_inColumn _ _ _ _) ?_
    intro key parent value
    exact hmade.mem_column_iff.trans (hmade.mem_binaryRow parent key value)
  case leftChildren =>
    exact SiblingIndex.holds_of_children hmade.leftChildren hleft
  case rightChildren =>
    exact SiblingIndex.holds_of_children hmade.rightChildren hright
  case unaryByParent =>
    exact RowMatrix.holds_of_mem hmade.unaryByParent (by omega) hmade.mem_unaryRow
  case unaryByChild =>
    exact ColumnMatrix.holds_of_mem hmade.unaryByChild (Made.narrow_inColumn _ _ _ _)
      hmade.mem_unaryColumn
  case lexical =>
    exact ColumnMatrix.holds_of_mem hmade.lexical (Made.narrow_inColumn _ _ _ _)
      fun word parent value => hmade.hasTag_iff
  case binaryLogProb => exact hmade.binaryLogProb_eq
  case unaryLogProb =>
    intro parent child
    exact RowMatrix.get_eq_getD hmade.unaryByParent fun value => hmade.hasUnary_iff
  case lexicalLogProb =>
    intro parent word
    exact ColumnMatrix.get_eq_getD hmade.lexical (Made.narrow_inColumn _ _ _ _)
      fun value => hmade.hasTag_iff
  case mem_binaryProductions => exact hmade.mem_binaryProductions
  case binaryProductions_sorted => exact hmade.sorted_binaryProductions (by omega)

/-- A rule that is listed twice has the sum of its probabilities in every view. -/
theorem ofProductions_tabulates_repeated :
    let labels := LabelTable.ofList ["A", "S"]
    let productions : List Production :=
      [⟨1, .binary 0 0, -1⟩, ⟨0, .lexical 0, 0⟩, ⟨1, .unary 0, -3⟩, ⟨1, .binary 0 0, -2⟩]
    ∃ g, ofProductions 1 labels (.ofList ["a"]) ⟨0, 0, 1, 1, 1, 2⟩ productions .perfectHash = .ok g ∧
      labels.size ≤ 65535 ∧ g.Tabulates productions ∧
      g.binaryLogProb 1 0 0 = Score.logSum (-1) (-2) := by
  intro labels productions
  have hlabels : labels.size = 2 := size_labels_sample
  obtain ⟨packing, hpacking⟩ : ∃ packing,
      Packing.build .perfectHash ⟨0, 0, 1, 1, 1, 2⟩ [(0, 0), (0, 0)] = .ok packing := ⟨_, rfl⟩
  have hpairs : ∀ pair ∈ pairsOf productions, ∃ key, packing.pack pair.1 pair.2 = some key := by
    intro pair hpair
    have htwice : pairsOf productions = [(0, 0), (0, 0)] := rfl
    rw [htwice] at hpair
    obtain rfl : pair = (0, 0) := by simpa using hpair
    exact Packing.exists_key_of_mem hpacking hpair (by decide) (by decide)
  have hnames : ∀ p ∈ productions, Names labels.size p := by
    simp [hlabels, productions, Names]
  have hwords : ∀ p ∈ productions, ∀ word, p.expansion = .lexical word →
      word.toNat < (LabelTable.ofList ["a"]).size := by
    simp [size_lexicon_sample, productions]
  obtain ⟨g, hg, -⟩ := (ofProductions_of_pairs 1 (by omega) hnames hwords hpacking hpairs).1
    (not_crowded_of_length (by decide))
  have htabulates := ofProductions_tabulates hg (Nat.le_trans (Nat.le_of_eq hlabels) (by decide))
  refine ⟨g, hg, by omega, htabulates, ?_⟩
  rw [htabulates.binaryLogProb]
  rfl

/-- The sample has its tag for the word, and joins two of them. It raises nothing but the tag,
and to nothing but the start symbol. -/
theorem rules_sample {raised : Bool} (h : compile (.sample raised) kind = .ok g) :
    g.start = 1 ∧ g.HasTag 0 0 0 ∧ g.HasBinary 1 0 0 0 ∧
      ∀ parent child score, g.HasUnary parent child score → parent = 1 ∧ child = 0 := by
  rw [compile_sample] at h
  obtain ⟨hstart, binary, hmade⟩ := ofProductions_ok h
  refine ⟨hstart, hmade.hasTag_iff.2 ?_, hmade.hasBinary_iff_weight?.2 ?_,
    fun parent child score hrule => ?_⟩
  · cases raised <;> rfl
  · cases raised <;> rfl
  · obtain ⟨p, hp, rfl, hexpansion⟩ := exists_of_weight? (hmade.hasUnary_iff.1 hrule)
    unfold sampleProductions at hp
    cases raised with
    | false =>
      rw [if_neg Bool.false_ne_true, List.mem_cons, List.mem_singleton] at hp
      rcases hp with rfl | rfl <;> cases hexpansion
    | true =>
      rw [if_pos rfl, List.mem_cons, List.mem_cons, List.mem_singleton] at hp
      rcases hp with rfl | rfl | rfl <;> cases hexpansion
      exact ⟨rfl, rfl⟩

end Grammar
end ChartParsing

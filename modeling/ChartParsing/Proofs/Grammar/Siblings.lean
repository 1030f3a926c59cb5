import ChartParsing.Proofs.Grammar.Compile
import ChartParsing.Proofs.Packing.Order

/-!
# Siblings

Binary rules are also kept by parent and one child. A rule has the same score there as in
the copy by parent and pair, so the outside pass and the inside pass use the same rules.
What the score of a rule is does not depend on the packing either.
-/

namespace ChartParsing

/-- A pair of children as one number, without regard to any packing. -/
def widePair (left right : UInt16) : UInt32 := UInt32.ofNat (left.toNat * 65536 + right.toNat)

theorem toNat_widePair (left right : UInt16) :
    (widePair left right).toNat = pairRank left right := by
  have := left.toNat_lt
  have := right.toNat_lt
  exact UInt32.toNat_ofNat_of_lt (by rw [UInt32.size]; omega)

theorem widePair_inj {left right left' right' : UInt16} :
    widePair left right = widePair left' right' ↔ left = left' ∧ right = right' := by
  rw [← UInt32.toNat_inj, toNat_widePair, toNat_widePair, pairRank_inj]

namespace SiblingIndex

variable {labels : Nat} {entries : List Entry} {index : SiblingIndex}

/-- The children of a parent and a sibling, with the totals of their scores. -/
theorem mem_children (h : ofEntries? labels entries = some index) (hlabels : labels ≤ 65535)
    (hparents : ∀ e ∈ entries, e.parent.toNat < labels) {parent sibling child : UInt16}
    {score : Score} : (child, score) ∈ index.children parent sibling ↔
      Triple.total? (entries.map fun e => ⟨e.parent.toUInt32, widePair e.child e.sibling, e.value⟩)
        (Triple.place parent.toUInt32 (widePair child sibling)) = some score := by
  unfold ofEntries? at h
  dsimp only at h
  set pairs := entries.map fun e => (e.parent, e.sibling) with hpairs
  set hash := PairHash.build ⟨0, UInt16.ofNat labels⟩ pairs with hhash
  have hpack : ∀ e ∈ entries, ∃ key, hash.pack e.parent e.sibling = some key := by
    intro e he
    have hcount : (UInt16.ofNat labels).toNat = labels := Nat.mod_eq_of_lt (by omega)
    refine PairHash.exists_key_iff.2 ⟨?_, List.mem_map_of_mem he⟩
    simpa [Interval.contains, UInt16.le_iff_toNat_le, UInt16.lt_iff_toNat_lt, hcount]
      using hparents e he
  have hkeys : (entries.filterMap fun e => (hash.pack e.parent e.sibling).map fun key =>
      Triple.inColumn e.child key e.value) = entries.map fun e =>
        .inColumn e.child ((hash.pack e.parent e.sibling).getD 0) e.value := by
    rw [← List.filterMap_eq_map]
    refine List.filterMap_congr fun e he => ?_
    obtain ⟨key, hkey⟩ := hpack e he
    simp [hkey]
  rw [hkeys] at h
  obtain ⟨matrix, hmatrix, hindex⟩ := Option.bind_eq_some_iff.1 h
  obtain rfl := Option.some.inj hindex
  have hcongr {key : UInt32} (hkey : hash.pack parent sibling = some key) :
      Triple.total? (entries.map fun e =>
          .inColumn e.child ((hash.pack e.parent e.sibling).getD 0) e.value)
        (Triple.place key child.toUInt32) =
      Triple.total? (entries.map fun e =>
          ⟨e.parent.toUInt32, widePair e.child e.sibling, e.value⟩)
        (Triple.place parent.toUInt32 (widePair child sibling)) := by
    refine Triple.total?_map_congr (fun e he => ?_) fun e => Eq.refl e.value
    obtain ⟨key', hkey'⟩ := hpack e he
    rw [hkey', Triple.rank, Triple.rank, Triple.place_eq_iff, Triple.place_eq_iff]
    simp only [Triple.inColumn, Option.getD_some, widePair_inj]
    constructor
    · rintro ⟨rfl, hchild⟩
      have hpair := (PairHash.unpack_of_pack hkey).1
      rw [(PairHash.unpack_of_pack hkey').1] at hpair
      obtain ⟨hparent, hsibling⟩ := Prod.mk.inj (Option.some.inj hpair)
      exact ⟨congrArg _ hparent, toUInt32_inj hchild, hsibling⟩
    · rintro ⟨hparent, hchild, hsibling⟩
      rw [toUInt32_inj hparent, hsibling, hkey] at hkey'
      exact ⟨(Option.some.inj hkey').symm, congrArg _ hchild⟩
  unfold children
  dsimp only
  cases hkey : hash.pack parent sibling with
  | some key =>
    dsimp only
    rw [ColumnMatrix.mem_column hmatrix (Grammar.Made.narrow_inColumn entries _ _ _), hcongr hkey]
  | none =>
    constructor
    · exact fun hmem => (List.not_mem_nil hmem).elim
    · intro htotal
      obtain ⟨t, ht, hrank⟩ := Triple.exists_of_total? htotal
      obtain ⟨e, he, rfl⟩ := List.mem_map.1 ht
      obtain ⟨hparent, hpair⟩ := Triple.place_eq_iff.1 hrank
      obtain ⟨key, hkey'⟩ := hpack e he
      rw [toUInt32_inj hparent, (widePair_inj.1 hpair).2, hkey] at hkey'
      cases hkey'

end SiblingIndex

namespace Grammar

variable {labels lexicon : LabelTable} {bounds : ClassBounds} {productions : List Production}
  {kind : PackingKind} {g : Grammar} {binary : List (UInt16 × UInt32 × Score)}

/-- The score that binary productions give a rule. -/
def ruleScore? (rules : List (UInt16 × UInt16 × UInt16 × Score)) (parent left right : UInt16) :
    Option Score :=
  Triple.total? (rules.map fun (p, l, r, v) => ⟨p.toUInt32, widePair l r, v⟩)
    (Triple.place parent.toUInt32 (widePair left right))

theorem exists_of_ruleScore? {rules : List (UInt16 × UInt16 × UInt16 × Score)}
    {parent left right : UInt16} {score : Score}
    (h : ruleScore? rules parent left right = some score) :
    ∃ value, (parent, left, right, value) ∈ rules := by
  obtain ⟨t, ht, hrank⟩ := Triple.exists_of_total? h
  obtain ⟨⟨p, l, r, v⟩, hmem, rfl⟩ := List.mem_map.1 ht
  obtain ⟨hp, hpair⟩ := Triple.place_eq_iff.1 hrank
  obtain ⟨rfl, rfl⟩ := widePair_inj.1 hpair
  obtain rfl := toUInt32_inj hp
  exact ⟨v, hmem⟩

theorem ruleScore?_isSome {rules : List (UInt16 × UInt16 × UInt16 × Score)}
    {parent left right : UInt16} {value : Score} (h : (parent, left, right, value) ∈ rules) :
    (ruleScore? rules parent left right).isSome := by
  have hmem : (⟨parent.toUInt32, widePair left right, value⟩ : Triple) ∈
      rules.map fun (p, l, r, v) => ⟨p.toUInt32, widePair l r, v⟩ :=
    List.mem_map.2 ⟨_, h, rfl⟩
  have hsome := Triple.total?_isSome hmem
  rwa [Triple.rank] at hsome

/-- The binary rules are those of the productions, whatever the packing. -/
theorem Made.hasBinary_iff (h : Made labels lexicon bounds productions kind g binary)
    {parent left right : UInt16} {score : Score} : g.HasBinary parent left right score ↔
      ruleScore? (binaryOf productions) parent left right = some score := by
  obtain ⟨hbinary, hall⟩ := keyed_eq_map h.keyed
  have hcongr {key : UInt32} (hkey : g.packing.pack left right = some key) :
      Triple.total? (binary.map fun entry => ⟨entry.1.toUInt32, entry.2.1, entry.2.2⟩)
        (Triple.place parent.toUInt32 key) =
          ruleScore? (binaryOf productions) parent left right := by
    rw [hbinary, List.map_map]
    refine Triple.total?_map_congr ?_ fun rule => Eq.refl rule.2.2.2
    rintro ⟨p, l, r, v⟩ hrule
    obtain ⟨key', hkey'⟩ := hall _ hrule
    simp only [Function.comp_apply, Triple.rank, Triple.place_eq_iff, widePair_inj]
    simp only [hkey', Option.getD_some]
    refine and_congr_right fun _ => ⟨?_, ?_⟩
    · rintro rfl
      have hpair := (Packing.unpack_of_pack h.packing hkey).1
      rw [(Packing.unpack_of_pack h.packing hkey').1] at hpair
      exact Prod.mk.inj (Option.some.inj hpair)
    · rintro ⟨rfl, rfl⟩
      rw [hkey] at hkey'
      exact (Option.some.inj hkey').symm
  unfold HasBinary
  constructor
  · rintro ⟨key, hkey, hmem⟩
    exact (hcongr hkey).symm.trans ((RowMatrix.mem_row h.binaryByParent).1 hmem)
  · intro hscore
    obtain ⟨value, hrule⟩ := exists_of_ruleScore? hscore
    obtain ⟨key, hkey⟩ := hall _ hrule
    exact ⟨key, hkey, (RowMatrix.mem_row h.binaryByParent).2 ((hcongr hkey).trans hscore)⟩

/-- The parent of a binary rule is a non-terminal of the grammar. -/
theorem Made.parent_lt (h : Made labels lexicon bounds productions kind g binary)
    {rule : UInt16 × UInt16 × UInt16 × Score} (hrule : rule ∈ binaryOf productions) :
    rule.1.toNat < labels.size := by
  obtain ⟨key, hkey⟩ := (keyed_eq_map h.keyed).2 rule hrule
  have hentry := (mem_keyed h.keyed).2 ⟨rule.2.1, rule.2.2.1, hrule, hkey⟩
  simpa using RowMatrix.major_lt h.binaryByParent (List.mem_map_of_mem hentry)

theorem Made.mem_leftChildren (h : Made labels lexicon bounds productions kind g binary)
    (hsize : labels.size ≤ 65535)
    {parent left right : UInt16} {score : Score} :
    (left, score) ∈ g.leftChildren.children parent right ↔
      g.HasBinary parent left right score := by
  rw [h.hasBinary_iff, SiblingIndex.mem_children h.leftChildren hsize ?_, List.map_map]
  · rfl
  · intro e he
    obtain ⟨rule, hrule, rfl⟩ := List.mem_map.1 he
    exact h.parent_lt hrule

theorem Made.mem_rightChildren (h : Made labels lexicon bounds productions kind g binary)
    (hsize : labels.size ≤ 65535)
    {parent left right : UInt16} {score : Score} :
    (right, score) ∈ g.rightChildren.children parent left ↔
      g.HasBinary parent left right score := by
  rw [h.hasBinary_iff, SiblingIndex.mem_children h.rightChildren hsize ?_, List.map_map]
  · refine Eq.congr_left (Triple.total?_map_congr (fun rule _ => ?_) fun rule => Eq.refl rule.2.2.2)
    simp only [Function.comp_apply, Triple.rank, Triple.place_eq_iff, widePair_inj]
    exact and_congr_right fun _ => and_comm
  · intro e he
    obtain ⟨rule, hrule, rfl⟩ := List.mem_map.1 he
    exact h.parent_lt hrule

/-- The copies of the rules by parent, which scores are passed down along, hold the rules. -/
structure Mirrored (g : Grammar) : Prop where
  left : ∀ {parent left right score}, (left, score) ∈ g.leftChildren.children parent right ↔
    g.HasBinary parent left right score
  right : ∀ {parent left right score}, (right, score) ∈ g.rightChildren.children parent left ↔
    g.HasBinary parent left right score
  unary : ∀ {parent child score}, (child, score) ∈ g.unaryByParent.row parent →
    child.toUInt16.toUInt32 = child

theorem mirrored_of_compile {source : GrammarSource} (h : compile source kind = .ok g) :
    g.Mirrored := by
  obtain ⟨hsize, -, lexicon, bounds, productions, binary, hmade, -, -⟩ := compile_ok h
  refine ⟨hmade.mem_leftChildren hsize, hmade.mem_rightChildren hsize, ?_⟩
  intro parent child score hmem
  rw [RowMatrix.mem_row hmade.unaryByParent] at hmem
  obtain ⟨t, ht, hrank⟩ := Triple.exists_of_total? hmem
  obtain ⟨rule, -, rfl⟩ := List.mem_map.1 ht
  rw [← (Triple.place_eq_iff.1 hrank).2]
  simp

end Grammar
end ChartParsing

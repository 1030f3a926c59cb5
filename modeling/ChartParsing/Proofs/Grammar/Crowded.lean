import ChartParsing.Proofs.Grammar.Compile
import ChartParsing.Proofs.Matrix.Slices
import ChartParsing.Proofs.Packing.Bijection
import Mathlib.Data.List.ProdSigma

/-!
# Room for the rules

Every table of a grammar has a place of its own for each rule, and offsets in 32 bits that
tell how many places come before. Binary rules and tags of words can be too many for them;
unary rules cannot, since there are too few pairs of non-terminals.
-/

namespace ChartParsing

section Distinct

variable {α β : Type} [DecidableEq α] [DecidableEq β]

/-- What is mapped has no more different values than it had before. -/
theorem length_dedup_map_le (f : α → β) (xs : List α) :
    (xs.map f).dedup.length ≤ xs.dedup.length := by
  have hsubset : (xs.map f).dedup ⊆ xs.dedup.map f := by
    intro y hy
    obtain ⟨x, hx, rfl⟩ := List.mem_map.1 (List.mem_dedup.1 hy)
    exact List.mem_map_of_mem (List.mem_dedup.2 hx)
  simpa using ((List.nodup_dedup _).subperm hsubset).length_le

/-- Different values stay so under a map that tells them apart. -/
theorem length_dedup_map {f : α → β} {xs : List α}
    (hinj : ∀ x ∈ xs, ∀ y ∈ xs, f x = f y → x = y) :
    (xs.map f).dedup.length = xs.dedup.length := by
  apply Nat.le_antisymm (length_dedup_map_le f xs)
  have hnodup : (xs.dedup.map f).Nodup := (List.nodup_dedup xs).map_on fun x hx y hy =>
    hinj x (List.mem_dedup.1 hx) y (List.mem_dedup.1 hy)
  have hsubset : xs.dedup.map f ⊆ (xs.map f).dedup := by
    intro y hy
    obtain ⟨x, hx, rfl⟩ := List.mem_map.1 hy
    exact List.mem_dedup.2 (List.mem_map_of_mem (List.mem_dedup.1 hx))
  simpa using (hnodup.subperm hsubset).length_le

end Distinct

namespace Grammar

variable {labels lexicon : LabelTable} {bounds : ClassBounds} {productions : List Production}
  {kind : PackingKind}

/-- The binary rules that productions are given for, each once. -/
def rulesOf (productions : List Production) : List (UInt16 × UInt16 × UInt16) :=
  ((binaryOf productions).map fun rule => (rule.1, rule.2.1, rule.2.2.1)).dedup

/-- The tags and words that productions are given for, each pair once. -/
def tagsOf (productions : List Production) : List (UInt16 × UInt32) :=
  ((lexicalOf productions).map fun entry => (entry.1, entry.2.1)).dedup

/-- More rules, or more tags of words, than offsets in 32 bits can tell. -/
def Crowded (productions : List Production) : Prop :=
  2 ^ 32 ≤ (rulesOf productions).length ∨ 2 ^ 32 ≤ (tagsOf productions).length

theorem not_crowded_of_length (h : productions.length < 2 ^ 32) : ¬Crowded productions := by
  have hrules : (rulesOf productions).length ≤ productions.length :=
    (List.dedup_sublist _).length_le.trans <| by
      rw [List.length_map]
      exact List.length_filterMap_le _ _
  have htags : (tagsOf productions).length ≤ productions.length :=
    (List.dedup_sublist _).length_le.trans <| by
      rw [List.length_map]
      exact List.length_filterMap_le _ _
  rintro (hmany | hmany) <;> omega

theorem mem_rulesOf {p l r : UInt16} :
    (p, l, r) ∈ rulesOf productions ↔ ∃ value, (p, l, r, value) ∈ binaryOf productions := by
  simp [rulesOf]

theorem mem_tagsOf {tag : UInt16} {word : UInt32} :
    (tag, word) ∈ tagsOf productions ↔ ∃ value, (tag, word, value) ∈ lexicalOf productions := by
  simp [tagsOf]

section Binary

variable {packing : Packing} {binary : List (UInt16 × UInt32 × Score)}
  (hpacking : Packing.build kind bounds (pairsOf productions) = .ok packing)
  (hbinary : keyed kind packing (binaryOf productions) = .ok binary)

include hbinary

/-- A keyed rule is a rule with the key of its pair. -/
theorem exists_rule_of_keyed {p : UInt16} {key : UInt32} {value : Score}
    (h : (p, key, value) ∈ binary) :
    ∃ rule ∈ rulesOf productions, rule.1 = p ∧ packing.pack rule.2.1 rule.2.2 = some key := by
  obtain ⟨l, r, hmem, hpack⟩ := (mem_keyed hbinary).1 h
  exact ⟨(p, l, r), mem_rulesOf.2 ⟨value, hmem⟩, rfl, hpack⟩

theorem bucketed_byParent (hnames : ∀ p ∈ productions, Names labels.size p)
    (hfew : (rulesOf productions).length < 2 ^ 32) :
    Triple.Bucketed labels.size (binary.map fun e => ⟨e.1.toUInt32, e.2.1, e.2.2⟩) := by
  refine Triple.bucketed_iff.2 ⟨List.forall_mem_map.2 ?_, Nat.lt_of_le_of_lt ?_ hfew⟩
  · rintro ⟨p, key, value⟩ hentry
    obtain ⟨l, r, hmem, -⟩ := (mem_keyed hbinary).1 hentry
    simpa using (hnames _ (mem_binaryOf.1 hmem)).1
  · refine Triple.length_positions_le
      (fun (p, l, r) => (p.toUInt32, (packing.pack l r).getD 0)) (List.forall_mem_map.2 ?_)
    rintro ⟨p, key, value⟩ hentry
    obtain ⟨rule, hrule, rfl, hpack⟩ := exists_rule_of_keyed hbinary hentry
    exact ⟨rule, hrule, by simp [hpack]⟩

include hpacking

theorem bucketed_byPair (hfew : (rulesOf productions).length < 2 ^ 32) :
    Triple.Bucketed packing.size (binary.map fun e => .inColumn e.1 e.2.1 e.2.2) := by
  refine Triple.bucketed_iff.2 ⟨List.forall_mem_map.2 ?_, Nat.lt_of_le_of_lt ?_ hfew⟩
  · rintro ⟨p, key, value⟩ hentry
    obtain ⟨rule, -, -, hpack⟩ := exists_rule_of_keyed hbinary hentry
    exact (Packing.unpack_of_pack hpacking hpack).2
  · refine Triple.length_positions_le
      (fun (p, l, r) => ((packing.pack l r).getD 0, p.toUInt32)) (List.forall_mem_map.2 ?_)
    rintro ⟨p, key, value⟩ hentry
    obtain ⟨rule, hrule, rfl, hpack⟩ := exists_rule_of_keyed hbinary hentry
    exact ⟨rule, hrule, by simp [hpack, Triple.inColumn]⟩

/-- Different rules have different places, so too many of them cannot be bucketed. -/
theorem not_bucketed_byParent (count : Nat) (hmany : 2 ^ 32 ≤ (rulesOf productions).length) :
    ¬Triple.Bucketed count (binary.map fun e => ⟨e.1.toUInt32, e.2.1, e.2.2⟩) := by
  have hkey : ∀ rule ∈ rulesOf productions, ∃ key value,
      packing.pack rule.2.1 rule.2.2 = some key ∧ (rule.1, key, value) ∈ binary := by
    rintro ⟨p, l, r⟩ hrule
    obtain ⟨value, hmem⟩ := mem_rulesOf.1 hrule
    obtain ⟨key, hkey⟩ := (keyed_eq_map hbinary).2 _ hmem
    exact ⟨key, value, hkey, (mem_keyed hbinary).2 ⟨l, r, hmem, hkey⟩⟩
  have hle : (rulesOf productions).length ≤ (Triple.positions
      (binary.map fun e => ⟨e.1.toUInt32, e.2.1, e.2.2⟩)).length := by
    refine Triple.le_length_positions
      (fun rule => (rule.1.toUInt32, (packing.pack rule.2.1 rule.2.2).getD 0))
      (List.nodup_dedup _) ?_ ?_
    · rintro ⟨p, l, r⟩ hrule ⟨p', l', r'⟩ hrule' heq
      obtain ⟨key, -, hpack, -⟩ := hkey _ hrule
      obtain ⟨key', -, hpack', -⟩ := hkey _ hrule'
      simp only [hpack, hpack', Option.getD_some, Prod.mk.injEq] at heq
      obtain ⟨hparent, rfl⟩ := heq
      have hpair := (Packing.unpack_of_pack hpacking hpack).1.symm.trans
        (Packing.unpack_of_pack hpacking hpack').1
      rw [toUInt32_inj hparent, Option.some.inj hpair]
    · intro rule hrule
      obtain ⟨key, value, hpack, hmem⟩ := hkey rule hrule
      exact ⟨_, List.mem_map_of_mem hmem, rfl, by simp [hpack]⟩
  exact fun h => Nat.not_lt.2 (Nat.le_trans hmany hle) (Triple.bucketed_iff.1 h).2

end Binary

/-- There are too few pairs of non-terminals for too many unary rules. -/
theorem length_positions_unary (place : UInt16 → UInt16 → UInt32 × UInt32)
    {triple : UInt16 × UInt16 × Score → Triple}
    (hplace : ∀ rule, ((triple rule).major, (triple rule).minor) = place rule.1 rule.2.1)
    (hsize : labels.size ≤ 65535) (hnames : ∀ p ∈ productions, Names labels.size p) :
    (Triple.positions ((unaryOf productions).map triple)).length < 2 ^ 32 := by
  have hle : (Triple.positions ((unaryOf productions).map triple)).length ≤
      (List.range labels.size ×ˢ List.range labels.size).length := by
    refine Triple.length_positions_le
      (fun pair => place (UInt16.ofNat pair.1) (UInt16.ofNat pair.2)) (List.forall_mem_map.2 ?_)
    rintro ⟨p, c, v⟩ hrule
    obtain ⟨hp, hc⟩ := hnames _ (mem_unaryOf.1 hrule)
    refine ⟨(p.toNat, c.toNat), ?_, ?_⟩
    · exact List.pair_mem_product.2 ⟨List.mem_range.2 hp, List.mem_range.2 hc⟩
    · simp only [UInt16.ofNat_toNat]
      exact (hplace (p, c, v)).symm
  rw [List.length_product, List.length_range] at hle
  have hmul : labels.size * labels.size ≤ 65535 * 65535 := Nat.mul_le_mul hsize hsize
  omega

theorem bucketed_unaryByParent (hsize : labels.size ≤ 65535)
    (hnames : ∀ p ∈ productions, Names labels.size p) : Triple.Bucketed labels.size
      ((unaryOf productions).map fun e => ⟨e.1.toUInt32, e.2.1.toUInt32, e.2.2⟩) := by
  refine Triple.bucketed_iff.2 ⟨List.forall_mem_map.2 fun rule hrule => ?_, ?_⟩
  · simpa using (hnames _ (mem_unaryOf.1 hrule)).1
  · exact length_positions_unary (fun p c => (p.toUInt32, c.toUInt32)) (fun _ => rfl) hsize hnames

theorem bucketed_unaryByChild (hsize : labels.size ≤ 65535)
    (hnames : ∀ p ∈ productions, Names labels.size p) : Triple.Bucketed labels.size
      ((unaryOf productions).map fun e => .inColumn e.1 e.2.1.toUInt32 e.2.2) := by
  refine Triple.bucketed_iff.2 ⟨List.forall_mem_map.2 fun rule hrule => ?_, ?_⟩
  · have hchild : rule.2.1.toNat < labels.size := (hnames _ (mem_unaryOf.1 hrule)).2
    simpa [Triple.inColumn] using hchild
  · exact length_positions_unary (fun p c => (c.toUInt32, p.toUInt32)) (fun _ => rfl) hsize hnames

/-- Different tags of a word, or words, have different places. -/
theorem length_positions_lexical (productions : List Production) :
    (Triple.positions ((lexicalOf productions).map fun e => .inColumn e.1 e.2.1 e.2.2)).length =
      (tagsOf productions).length := by
  apply Nat.le_antisymm
  · refine Triple.length_positions_le (fun (tag, word) => (word, tag.toUInt32))
      (List.forall_mem_map.2 ?_)
    rintro ⟨tag, word, value⟩ hentry
    exact ⟨(tag, word), mem_tagsOf.2 ⟨value, hentry⟩, rfl⟩
  · refine Triple.le_length_positions (fun (tag, word) => (word, tag.toUInt32))
      (List.nodup_dedup _) ?_ ?_
    · rintro ⟨tag, word⟩ - ⟨tag', word'⟩ - heq
      obtain ⟨rfl, htag⟩ := Prod.mk.inj heq
      rw [toUInt32_inj htag]
    · rintro ⟨tag, word⟩ hentry
      obtain ⟨value, hmem⟩ := mem_tagsOf.1 hentry
      exact ⟨_, List.mem_map_of_mem hmem, rfl, rfl⟩

end Grammar
end ChartParsing

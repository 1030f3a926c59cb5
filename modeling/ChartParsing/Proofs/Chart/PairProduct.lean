import ChartParsing.Proofs.Chart.Kept
import ChartParsing.Proofs.Chart.Offers
import ChartParsing.Proofs.Grammar.Views
import ChartParsing.Proofs.Packing.Bijection
import ChartParsing.Proofs.Score.Exact

/-!
# Products of rules and pairs

The binary rules are kept by the key of their pair, and only the keys that rules use are gone
through. What comes of it for a parent is the greatest sum of a rule and its pair over all rules
of the parent, and of equal sums the one with the least pair. Pairs that no rule uses make no
difference.
-/

namespace ChartParsing

namespace Scratch

variable {g : Grammar} {pairs : PairTable} {count : Nat} {s : Scratch} {parent : UInt16}
  {key : UInt32} {sum : Score} {e : ChartEntry}

/-- The parents of the child pair of a key. -/
def entriesOfKey (g : Grammar) (pairs : PairTable) (key : UInt32) : List ChartEntry :=
  match pairs.pair? key with
  | none => []
  | some pair => (g.binaryByPair.column key).map fun (parent, rule) =>
    ⟨parent, rule + pair.score, .binary key, pair.midpoint⟩

/-- Going through the places of the keys that rules use is going through these keys. -/
theorem pairEntries_eq (hg : g.Coherent) (pairs : PairTable) : pairEntries g pairs =
    g.binaryByPair.populated.toList.flatMap (entriesOfKey g pairs) := by
  have hkeys : g.binaryByPair.populated.toList =
      (List.range g.binaryByPair.populated.size).map (g.binaryByPair.populated.getD · 0) := by
    refine List.ext_getElem (by simp) fun i hi hi' => ?_
    rw [List.getElem_map, List.getElem_range, ColumnMatrix.getD_of_lt (by simpa using hi)]
    simp
  unfold pairEntries
  rw [hkeys, List.flatMap_map]
  refine List.flatMap_congr fun i hi => ?_
  unfold entriesOfPair entriesOfKey PairTable.pair?
  dsimp only
  rw [hg.populated i (List.mem_range.1 hi)]
  split_ifs <;> rfl

theorem pairEntries_lt (hg : g.Coherent) (pairs : PairTable) :
    ∀ e ∈ pairEntries g pairs, e.nt.toNat < g.size := by
  intro e he
  obtain ⟨left, right, key, rule, -, hrule, -⟩ := (mem_pairEntries hg).1 he
  exact hg.binary_lt hrule

/-- A binary rule and a listed pair of its children have a sum that is present. -/
def Combines (g : Grammar) (pairs : PairTable) (parent : UInt16) (key : UInt32) (sum : Score) :
    Prop :=
  key ∈ pairs.populated.toList ∧ ∃ left right rule, g.packing.pack left right = some key ∧
    g.HasBinary parent left right rule ∧ sum = rule + pairs.score key ∧ Score.absent < sum

/-- The key with the greatest sum for a parent, the least one if several have it. -/
def BestPair (g : Grammar) (pairs : PairTable) (parent : UInt16) : UInt32 → Score → Prop :=
  IsBest (Combines g pairs parent) UInt32.toNat

theorem Combines.isNaN (h : Combines g pairs parent key sum) : sum.isNaN = false := by
  obtain ⟨-, left, right, rule, -, -, -, hpresent⟩ := h
  exact Score.isNaN_of_present hpresent

/-- A binary rule has one score, so a pair has one sum for a parent. -/
theorem Combines.sum_eq (hg : g.Coherent) {sum' : Score} (h : Combines g pairs parent key sum)
    (h' : Combines g pairs parent key sum') : sum = sum' := by
  obtain ⟨-, left, right, rule, hpack, hrule, rfl, -⟩ := h
  obtain ⟨-, left', right', rule', hpack', hrule', rfl, -⟩ := h'
  have hsame := (hg.unpack_of_pack hpack).1.symm.trans (hg.unpack_of_pack hpack').1
  cases hsame
  rw [← hg.binaryLogProb hrule, ← hg.binaryLogProb hrule']

theorem BestPair.unique (hg : g.Coherent) {key' : UInt32} {sum' : Score}
    (h : BestPair g pairs parent key sum) (h' : BestPair g pairs parent key' sum') :
    key = key' ∧ sum = sum' := by
  obtain rfl := UInt32.toNat_inj.1 (h.rank_eq h')
  exact ⟨rfl, h.attained.sum_eq hg h'.attained⟩

theorem mem_entriesOfKey (hg : g.Coherent) (hpairs : pairs.Valid count) :
    e ∈ offeredFor parent (entriesOfKey g pairs key) ↔ Combines g pairs parent key e.inside ∧
      e = ⟨parent, e.inside, .binary key, pairs.midpoint key⟩ := by
  rw [mem_offeredFor]
  unfold entriesOfKey Combines PairTable.pair?
  rw [hpairs.mem]
  split_ifs with hzero
  · simp [hzero]
  · simp only [List.mem_map, ne_eq, hzero, not_false_eq_true, true_and]
    constructor
    · rintro ⟨⟨⟨nt, rule⟩, hentry, rfl⟩, rfl, hpresent⟩
      obtain ⟨left, right, hpack, hrule⟩ := hg.binary.1 hentry
      exact ⟨⟨left, right, rule, hpack, hrule, rfl, hpresent⟩, rfl⟩
    · rintro ⟨⟨left, right, rule, hpack, hrule, hsum, hpresent⟩, he⟩
      rw [he]
      refine ⟨⟨(parent, rule), hg.binary.2 ⟨left, right, hpack, hrule⟩, ?_⟩, rfl, hpresent⟩
      rw [hsum]

/-- A rule combines with a pair just if it is met on the way through the keys that rules use. -/
theorem combines_iff (hg : g.Coherent) (hpairs : pairs.Valid count) (key : UInt32) (sum : Score) :
    Combines g pairs parent key sum ↔ key ∈ g.binaryByPair.populated.toList ∧
      ∃ e ∈ offeredFor parent (entriesOfKey g pairs key), e.inside = sum := by
  constructor
  · intro h
    obtain ⟨-, left, right, rule, hpack, hrule, -⟩ := id h
    have hentry := hg.binary.2 ⟨left, right, hpack, hrule⟩
    exact ⟨(hg.mem_populated key).2 (List.ne_nil_of_mem hentry),
      ⟨parent, sum, .binary key, pairs.midpoint key⟩, (mem_entriesOfKey hg hpairs).2 ⟨h, rfl⟩, rfl⟩
  · rintro ⟨-, e, he, rfl⟩
    exact ((mem_entriesOfKey hg hpairs).1 he).1

/-- What an empty table gets for a parent is kept of what is met key by key. -/
theorem entryOf?_addPairs_eq (hg : g.Coherent) (hpairs : pairs.Valid count) (hs : s.Valid g.size)
    (hempty : s.populated = #[]) (parent : UInt16) : (s.addPairs g pairs).entryOf? parent =
      (g.binaryByPair.populated.toList.flatMap fun key =>
        offeredFor parent (entriesOfKey g pairs key)).foldl (keepGreater (·.inside)) none := by
  rw [addPairs_eq g hpairs, hs.entryOf?_updateAll (pairEntries_lt hg pairs),
    hs.entryOf?_of_empty hempty, pairEntries_eq hg]
  exact congrArg (List.foldl _ none) List.filter_flatMap

theorem isSome_addPairs (hg : g.Coherent) (hpairs : pairs.Valid count) (hs : s.Valid g.size)
    (hempty : s.populated = #[]) (h : Combines g pairs parent key sum) :
    ∃ d, (s.addPairs g pairs).entryOf? parent = some d := by
  rw [← Option.ne_none_iff_exists', entryOf?_addPairs_eq hg hpairs hs hempty, ne_eq,
    foldl_keepGreater_eq_none, List.flatMap_eq_nil_iff]
  intro hnil
  obtain ⟨hkey, e, he, -⟩ := (combines_iff hg hpairs key sum).1 h
  exact List.ne_nil_of_mem he (hnil key hkey)

theorem bestPair_of_addPairs (hg : g.Coherent)
    (hsorted : g.binaryByPair.populated.toList.Pairwise fun k k' => k.toNat < k'.toNat)
    (hpairs : pairs.Valid count) (hs : s.Valid g.size) (hempty : s.populated = #[])
    (h : (s.addPairs g pairs).entryOf? parent = some e) : ∃ key sum,
      BestPair g pairs parent key sum ∧ e = ⟨parent, sum, .binary key, pairs.midpoint key⟩ := by
  rw [entryOf?_addPairs_eq hg hpairs hs hempty] at h
  have hrank : ∀ before key after, g.binaryByPair.populated.toList = before ++ key :: after →
      ∀ key' ∈ g.binaryByPair.populated.toList, key' ∉ before → key.toNat ≤ key'.toNat := by
    intro before key after hkeys key' hkey' hnot
    rw [hkeys] at hsorted hkey'
    rcases List.mem_cons.1 ((List.mem_append.1 hkey').resolve_left hnot) with rfl | hlater
    · exact Nat.le_refl _
    · exact Nat.le_of_lt (List.rel_of_pairwise_cons (List.pairwise_append.1 hsorted).2.1 hlater)
  obtain ⟨key, -, hmem, hbest⟩ := (firstGreatest_of_foldl h).isBest (combines_iff hg hpairs)
    (fun _ _ => Combines.isNaN) hrank
  exact ⟨key, e.inside, hbest, ((mem_entriesOfKey hg hpairs).1 hmem).2⟩

/-- Tables with the same pairs for the keys that rules use give the same entries. -/
theorem addPairs_congr (hg : g.Coherent) {pairs' : PairTable} {count' : Nat}
    (hpairs : pairs.Valid count) (hpairs' : pairs'.Valid count')
    (h : ∀ key ∈ g.binaryByPair.populated.toList, pairs.pair? key = pairs'.pair? key)
    (s : Scratch) : s.addPairs g pairs = s.addPairs g pairs' := by
  rw [addPairs_eq g hpairs, addPairs_eq g hpairs', pairEntries_eq hg, pairEntries_eq hg]
  congr 1
  refine List.flatMap_congr fun key hkey => ?_
  unfold entriesOfKey
  rw [h key hkey]

/-- The table holds the products of the binary rules and the listed pairs. -/
structure Product (g : Grammar) (pairs : PairTable) (after : Scratch) : Prop where
  valid : after.Valid g.size
  listed : ∀ parent, parent ∈ after.populated.toList ↔ ∃ key sum, Combines g pairs parent key sum
  /-- What combines for a parent at all has one best pair. -/
  best : ∀ parent key sum, Combines g pairs parent key sum →
    ∃! b : UInt32 × Score, BestPair g pairs parent b.1 b.2
  entry : ∀ parent e, after.entryOf? parent = some e ↔ ∃ key sum,
    BestPair g pairs parent key sum ∧ e = ⟨parent, sum, .binary key, pairs.midpoint key⟩
  /-- Of the pairs that reach the greatest sum the best one comes first, by the left child and
  then by the right one. -/
  least : ∀ parent key sum left right, BestPair g pairs parent key sum →
    g.packing.pack left right = some key →
    ∀ key' sum' left' right', Combines g pairs parent key' sum' →
      g.packing.pack left' right' = some key' → sum ≤ sum' →
      left < left' ∨ (left = left' ∧ right ≤ right')

/-- The keys of best pairs are the least in the order of pairs. -/
theorem BestPair.least {labels lexicon : LabelTable} {bounds : ClassBounds}
    {productions : List Production} {kind : PackingKind}
    {binary : List (UInt16 × UInt32 × Score)}
    (hmade : Grammar.Made labels lexicon bounds productions kind g binary)
    (h : BestPair g pairs parent key sum) {left right left' right' : UInt16} {key' : UInt32}
    {sum' : Score} (hpack : g.packing.pack left right = some key)
    (h' : Combines g pairs parent key' sum') (hpack' : g.packing.pack left' right' = some key')
    (hle : sum ≤ sum') : left < left' ∨ (left = left' ∧ right ≤ right') := by
  have hkey := h.first key' sum' h' hle
  have hnot : ¬key' < key := by
    rw [UInt32.lt_iff_toNat_lt]
    omega
  rw [Packing.key_lt_iff hmade.packing hpack' hpack, pairRank_lt, not_or, not_and,
    UInt16.not_lt] at hnot
  rcases UInt16.lt_or_eq_of_le hnot.1 with hlt | rfl
  · exact Or.inl hlt
  · exact Or.inr ⟨rfl, UInt16.not_lt.1 (hnot.2 rfl)⟩

/-- The binary rules applied to a valid table of pairs. -/
theorem product_of_valid {labels lexicon : LabelTable} {bounds : ClassBounds}
    {productions : List Production} {kind : PackingKind}
    {binary : List (UInt16 × UInt32 × Score)} (hg : g.Coherent)
    (hmade : Grammar.Made labels lexicon bounds productions kind g binary)
    (hpairs : pairs.Valid count) (hs : s.Valid g.size) (hempty : s.populated = #[]) :
    Product g pairs (s.addPairs g pairs) := by
  have hsorted := ColumnMatrix.populated_sorted hmade.binaryByPair
  have hvalid : (s.addPairs g pairs).Valid g.size := by
    rw [addPairs_eq g hpairs]
    exact hs.updateAll (pairEntries_lt hg pairs)
  have hbest {parent : UInt16} {d : ChartEntry}
      (hd : (s.addPairs g pairs).entryOf? parent = some d) :=
    bestPair_of_addPairs hg hsorted hpairs hs hempty hd
  refine ⟨hvalid, fun parent => ?_, fun parent key sum h => ?_, fun parent e => ⟨hbest, ?_⟩,
    fun parent key sum left right h hpack key' sum' left' right' h' hpack' hle =>
      h.least hmade hpack h' hpack' hle⟩
  · rw [hvalid.mem_iff]
    constructor
    · rintro ⟨d, hd⟩
      obtain ⟨key, sum, h, -⟩ := hbest hd
      exact ⟨key, sum, h.attained⟩
    · rintro ⟨key, sum, h⟩
      exact isSome_addPairs hg hpairs hs hempty h
  · obtain ⟨d, hd⟩ := isSome_addPairs hg hpairs hs hempty h
    obtain ⟨key', sum', h', -⟩ := hbest hd
    refine ⟨(key', sum'), h', fun b hb => ?_⟩
    obtain ⟨hkey, hsum⟩ := BestPair.unique hg hb h'
    exact Prod.ext hkey hsum
  · rintro ⟨key, sum, h, rfl⟩
    obtain ⟨d, hd⟩ := isSome_addPairs hg hpairs hs hempty h.attained
    obtain ⟨key', sum', h', rfl⟩ := hbest hd
    obtain ⟨rfl, rfl⟩ := h.unique hg h'
    exact hd

/-- The binary rules applied to the pairs of a table that was cleared and then updated; offers
for keys that no rule uses make no difference. -/
theorem product_addPairs {source : GrammarSource} {kind : PackingKind}
    (h : Grammar.compile source kind = .ok g) {t : PairTable} (ht : t.Valid g.packing.size)
    {offers : List PairOffer} (hfit : PairTable.Fit g.packing.size offers)
    (hs : s.Valid g.size) (hempty : s.populated = #[]) :
    Product g (PairTable.offerAll offers t.clear)
        (s.addPairs g (PairTable.offerAll offers t.clear)) ∧
      ∀ offers', PairTable.Fit g.packing.size offers' →
        (∀ parent left right rule key, g.HasBinary parent left right rule →
          g.packing.pack left right = some key →
          PairTable.offeredFor key offers' = PairTable.offeredFor key offers) →
        s.addPairs g (PairTable.offerAll offers' t.clear) =
          s.addPairs g (PairTable.offerAll offers t.clear) := by
  have hg := Grammar.coherent_of_compile h
  obtain ⟨-, -, lexicon, bounds, productions, binary, hmade, -⟩ := Grammar.compile_ok h
  have hclear : t.clear.Valid g.packing.size := by
    rw [ht.clear_eq]
    exact PairTable.valid_new _
  have hpairs := hclear.offerAll hfit
  constructor
  · exact product_of_valid hg hmade hpairs hs hempty
  · intro offers' hfit' hsame
    refine addPairs_congr hg (hclear.offerAll hfit') hpairs (fun key hkey => ?_) s
    obtain ⟨entry, hentry⟩ := List.exists_mem_of_ne_nil _ ((hg.mem_populated key).1 hkey)
    obtain ⟨left, right, hpack, hrule⟩ := hg.binary.1 hentry
    rw [hclear.pair?_offerAll hfit', hclear.pair?_offerAll hfit, hsame _ _ _ _ key hrule hpack]

/-- From a pair of two tags the sample's binary rule makes the start symbol. -/
theorem product_addPairs_sample : ∃ g key, Grammar.compile (.sample true) .shift = .ok g ∧
    g.packing.pack 0 0 = some key ∧ ((new g.size).addPairs g (PairTable.offerAll [⟨key, 0, 1⟩]
      (PairTable.new g.packing.size).clear)).entryOf? 1 = some ⟨1, 0, .binary key, 1⟩ := by
  obtain ⟨g, hg, -⟩ := Grammar.exists_sample true
  obtain ⟨-, -, hbinary, -⟩ := Grammar.rules_sample hg
  have hcoherent := Grammar.coherent_of_compile hg
  obtain ⟨key, hpack, -⟩ := id hbinary
  have hnew := PairTable.valid_new g.packing.size
  have hfit : PairTable.Fit g.packing.size [⟨key, 0, 1⟩] := by
    intro o ho
    obtain rfl := List.mem_singleton.1 ho
    exact ⟨(hcoherent.unpack_of_pack hpack).2, (by decide : (1 : UInt16) ≠ 0)⟩
  obtain ⟨hproduct, -⟩ := product_addPairs hg hnew hfit (valid_new g.size) rfl
  refine ⟨g, key, hg, hpack, ?_⟩
  rw [hnew.clear_eq] at hproduct ⊢
  have hpairs := hnew.offerAll hfit
  have hpair (key' : UInt32) := hnew.pair?_offerAll hfit key'
  simp only [PairTable.pair?_new] at hpair
  generalize PairTable.offerAll [⟨key, 0, 1⟩] (PairTable.new g.packing.size) = pairs
    at hproduct hpairs hpair ⊢
  have hself : pairs.pair? key = some ⟨key, 0, 1⟩ := by
    rw [hpair]
    simp [PairTable.offeredFor, keepGreater]
  obtain ⟨hne, hkept⟩ := PairTable.pair?_eq_some.1 hself
  obtain ⟨-, hscore, hmid⟩ := PairOffer.mk.inj hkept
  have honly {key' : UInt32} {sum : Score} (h : Combines g pairs 1 key' sum) : key' = key := by
    by_contra hkey
    refine (hpairs.mem key').1 h.1 (PairTable.pair?_eq_none.1 ?_)
    rw [hpair]
    simp [PairTable.offeredFor, Ne.symm hkey]
  have hcombines : Combines g pairs 1 key 0 := by
    refine ⟨(hpairs.mem key).2 hne, 0, 0, 0, hpack, hbinary, ?_, by decide⟩
    rw [hscore]
    exact Score.add_zero_zero.symm
  refine (hproduct.entry 1 _).2 ⟨key, 0, ⟨hcombines, ?_, ?_⟩, by rw [hmid]⟩
  · intro key' sum h
    obtain rfl := honly h
    rw [h.sum_eq hcoherent hcombines]
    decide
  · intro key' sum h _
    rw [honly h]

end Scratch
end ChartParsing

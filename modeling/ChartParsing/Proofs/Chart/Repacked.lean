import ChartParsing.Proofs.Chart.Alike

/-!
# Rules applied under two packings

The pairs of entries that a span is split into are the same whatever the packing; a packing
only decides which of them get a key, and which key that is. What one table of pairs keeps
for a key, a table of a packing that accepts more pairs keeps for the key of the same pair:
the other pairs have keys of their own. So binary rules find the same pairs and add the same
entries in the same order, and the lexicon and the unary rules do not look at keys at all.
-/

namespace ChartParsing

/-- A pair of entries of two neighbouring cells, of which the right one is in the range of
the siblings of the left one. -/
structure Combination where
  left : UInt16
  right : UInt16
  score : Score
  midpoint : UInt16

/-- The offer that a combination makes, if the packing accepts it. -/
def Combination.offer? (p : Packing) (c : Combination) : Option PairOffer :=
  (p.pack c.left c.right).map fun key => ⟨key, c.score, c.midpoint⟩

namespace PairTable

/-- The combinations of one left entry. -/
def combinationsOf (g : Grammar) (rights : Cell) (midpoint : UInt16) (left : ChartEntry) :
    List Combination :=
  match g.siblingRange? left.nt with
  | some range => (siblingsIn range rights).map fun right =>
      ⟨left.nt, right.nt, left.inside + right.inside, midpoint⟩
  | none => []

/-- The combinations of a span, in the order in which they are found. -/
def combinations (g : Grammar) (chart : Chart) (span : Span) : List Combination :=
  span.midpoints.flatMap fun midpoint =>
    (chart.cell ⟨span.start, midpoint⟩).toList.flatMap
      (combinationsOf g (chart.cell ⟨midpoint, span.stop⟩) midpoint)

theorem offersOf_eq (g : Grammar) (rights : Cell) (midpoint : UInt16) (left : ChartEntry) :
    offersOf g rights midpoint left =
      (combinationsOf g rights midpoint left).filterMap (·.offer? g.packing) := by
  unfold offersOf combinationsOf
  cases g.siblingRange? left.nt with
  | none => rfl
  | some range =>
    dsimp only
    rw [List.filterMap_map]
    cases hblock : g.packing.leftBlock? left.nt with
    | none =>
      symm
      rw [List.filterMap_eq_nil_iff]
      intro right _
      simp [Combination.offer?, Packing.pack, hblock]
    | some block =>
      refine List.filterMap_congr fun right _ => ?_
      simp [Combination.offer?, Packing.pack, hblock]

/-- What a span offers are its combinations that the packing accepts. -/
theorem offersFor_eq (g : Grammar) (chart : Chart) (span : Span) :
    offersFor g chart span = (combinations g chart span).filterMap (·.offer? g.packing) := by
  unfold offersFor combinations
  simp only [List.filterMap_flatMap]
  refine List.flatMap_congr fun midpoint _ => List.flatMap_congr fun left _ => ?_
  exact offersOf_eq g _ midpoint left

theorem midpoint_of_mem_combinations {g : Grammar} {chart : Chart} {span : Span} {size : Nat}
    (hspan : span.within size = true) {c : Combination} (hc : c ∈ combinations g chart span) :
    c.midpoint ≠ 0 := by
  obtain ⟨midpoint, hmid, hc⟩ := List.mem_flatMap.1 hc
  obtain ⟨left, -, hc⟩ := List.mem_flatMap.1 hc
  have hc : c.midpoint = midpoint := by
    unfold combinationsOf at hc
    split at hc
    · obtain ⟨right, -, rfl⟩ := List.mem_map.1 hc
      rfl
    · cases hc
  rw [Span.mem_midpoints hspan] at hmid
  intro hzero
  rw [← hc, hzero] at hmid
  exact absurd hmid.1 (Nat.not_lt_zero _)

/-- The combinations do not depend on the packing. -/
theorem combinations_congr {g h : Grammar} (hgh : g.Repacked h) {c d : Chart}
    (hcd : c.Alike g.packing h.packing d) (span : Span) :
    combinations h d span = combinations g c span := by
  unfold combinations
  refine List.flatMap_congr fun midpoint _ => flatMap_eq_of_forall₂ ?_ (hcd.cell _)
  intro left left' hleft
  have hrange : h.siblingRange? left'.nt = g.siblingRange? left.nt := by
    unfold Grammar.siblingRange?
    rw [hgh.siblingRanges, hleft.nt]
  unfold combinationsOf
  rw [hrange]
  cases g.siblingRange? left.nt with
  | none => rfl
  | some range =>
    refine map_eq_of_forall₂ (fun right right' hright => ?_) ((hcd.cell _).siblingsIn range)
    rw [hleft.nt, hleft.inside, hright.nt, hright.inside]

/-- Two tables hold the same for every pair that both packings accept, and the second one is
no smaller. -/
structure Alike (p q : Packing) (t u : PairTable) : Prop where
  midpoint : ∀ {key key'}, p.SamePair q key key' → u.midpoint key' = t.midpoint key
  score : ∀ {key key'}, p.SamePair q key key' → u.score key' = t.score key
  size_le : t.size ≤ u.size

theorem size_offer (t : PairTable) (o : PairOffer) :
    (t.offer o).size = if t.midpoint o.key = 0 then t.size + 1 else t.size := by
  unfold offer update size
  dsimp only
  split_ifs <;> simp

section Alike

variable {g h : Grammar} {t u : PairTable}

/-- Different pairs have different keys. -/
theorem key_eq_iff (hg : g.Coherent) (hh : h.Coherent) {key key' other other' : UInt32}
    (hsame : g.packing.SamePair h.packing key key')
    (hother : g.packing.SamePair h.packing other other') : key' = other' ↔ key = other := by
  obtain ⟨left, right, hpack, hpack'⟩ := hsame
  obtain ⟨left', right', hpack₂, hpack₂'⟩ := hother
  constructor
  · rintro rfl
    have := (hh.unpack_of_pack hpack').1.symm.trans (hh.unpack_of_pack hpack₂').1
    cases this
    exact Option.some.inj (hpack.symm.trans hpack₂)
  · rintro rfl
    have := (hg.unpack_of_pack hpack).1.symm.trans (hg.unpack_of_pack hpack₂).1
    cases this
    exact Option.some.inj (hpack'.symm.trans hpack₂')

/-- An offer that both tables get, each under its own key. -/
theorem Alike.offer (htu : Alike g.packing h.packing t u) (hg : g.Coherent) (hh : h.Coherent)
    (ht : t.Valid g.packing.size) (hu : u.Valid h.packing.size) {o o' : PairOffer}
    (hkey : g.packing.SamePair h.packing o.key o'.key) (hlt : o.key.toNat < g.packing.size)
    (hlt' : o'.key.toNat < h.packing.size) (hscore : o'.score = o.score)
    (hmid : o'.midpoint = o.midpoint) : Alike g.packing h.packing (t.offer o) (u.offer o') := by
  have htakes : u.takes o' ↔ t.takes o := by
    unfold takes
    rw [htu.midpoint hkey, htu.score hkey, hscore]
  refine ⟨fun {key key'} hsame => ?_, fun {key key'} hsame => ?_, ?_⟩
  · simp only [(ht.get_offer hlt key).1, (hu.get_offer hlt' key').1, key_eq_iff hg hh hsame hkey,
      htakes, htu.midpoint hsame, hmid]
  · simp only [(ht.get_offer hlt key).2, (hu.get_offer hlt' key').2, key_eq_iff hg hh hsame hkey,
      htakes, htu.score hsame, hscore]
  · rw [size_offer, size_offer, htu.midpoint hkey]
    have := htu.size_le
    split_ifs <;> omega

/-- An offer that only the second table gets changes nothing for the pairs of the first. -/
theorem Alike.offer_right (htu : Alike g.packing h.packing t u) (hh : h.Coherent)
    (hu : u.Valid h.packing.size) {o : PairOffer} {left right : UInt16}
    (hpack : h.packing.pack left right = some o.key) (hnone : g.packing.pack left right = none) :
    Alike g.packing h.packing t (u.offer o) := by
  have hlt := (hh.unpack_of_pack hpack).2
  have hne {key key' : UInt32} (hsame : g.packing.SamePair h.packing key key') : key' ≠ o.key := by
    rintro rfl
    obtain ⟨left', right', hpack₂, hpack₂'⟩ := hsame
    have hpair := (hh.unpack_of_pack hpack).1.symm.trans (hh.unpack_of_pack hpack₂').1
    cases hpair
    rw [hnone] at hpack₂
    cases hpack₂
  refine ⟨fun {key key'} hsame => ?_, fun {key key'} hsame => ?_, ?_⟩
  · rw [(hu.get_offer hlt key').1, if_neg fun htaken => hne hsame htaken.1, htu.midpoint hsame]
  · rw [(hu.get_offer hlt key').2, if_neg fun htaken => hne hsame htaken.1, htu.score hsame]
  · rw [size_offer]
    have := htu.size_le
    split_ifs <;> omega

/-- Both tables take what their packings accept of the same combinations. -/
theorem Alike.offerAll (htu : Alike g.packing h.packing t u) (hgh : g.Repacked h)
    (hg : g.Coherent) (hh : h.Coherent) (ht : t.Valid g.packing.size)
    (hu : u.Valid h.packing.size) {combinations : List Combination}
    (hmid : ∀ c ∈ combinations, c.midpoint ≠ 0) :
    Alike g.packing h.packing (offerAll (combinations.filterMap (·.offer? g.packing)) t)
      (offerAll (combinations.filterMap (·.offer? h.packing)) u) := by
  induction combinations generalizing t u with
  | nil => exact htu
  | cons c combinations ih =>
    have hzero := hmid c List.mem_cons_self
    have ih {t u} := @ih t u
    have hrest : ∀ c ∈ combinations, c.midpoint ≠ 0 :=
      fun other hother => hmid other (List.mem_cons_of_mem _ hother)
    rw [List.filterMap_cons, List.filterMap_cons]
    cases hpack : g.packing.pack c.left c.right with
    | some key =>
      obtain ⟨key', hpack'⟩ := hgh.accepts hpack
      have hlt := (hg.unpack_of_pack hpack).2
      have hlt' := (hh.unpack_of_pack hpack').2
      simp only [Combination.offer?, hpack, hpack', Option.map_some, offerAll_cons]
      exact ih (htu.offer hg hh ht hu ⟨_, _, hpack, hpack'⟩ hlt hlt' rfl rfl)
        (ht.offer hlt hzero) (hu.offer hlt' hzero) hrest
    | none =>
      cases hpack' : h.packing.pack c.left c.right with
      | none =>
        simp only [Combination.offer?, hpack, hpack', Option.map_none]
        exact ih htu ht hu hrest
      | some key' =>
        simp only [Combination.offer?, hpack, hpack', Option.map_none, Option.map_some,
          offerAll_cons]
        exact ih (htu.offer_right hh hu hpack' hpack) ht
          (hu.offer (hh.unpack_of_pack hpack').2 hzero) hrest

theorem alike_new (p q : Packing) (count count' : Nat) : Alike p q (new count) (new count') := by
  have hscore (count : Nat) (key : UInt32) : (new count).score key = Score.absent := by
    simp [score, new, Array.getD_eq_getD_getElem?, Array.getElem?_replicate]
    split_ifs <;> rfl
  exact ⟨fun _ => by rw [midpoint_new, midpoint_new], fun _ => by rw [hscore, hscore],
    Nat.le_refl _⟩

/-- The best pairs of a span are the same, where both packings have them. -/
theorem alike_ofSpan (hgh : g.Repacked h) (hg : g.Coherent) (hh : h.Coherent) {c d : Chart}
    (hcd : c.Alike g.packing h.packing d) {span : Span} {size : Nat}
    (hspan : span.within size = true) :
    Alike g.packing h.packing (ofSpan g c span) (ofSpan h d span) := by
  unfold ofSpan
  rw [addSpan_eq, addSpan_eq, offersFor_eq, offersFor_eq, combinations_congr hgh hcd]
  exact (alike_new _ _ _ _).offerAll hgh hg hh (valid_new _) (valid_new _)
    fun _ hc => midpoint_of_mem_combinations hspan hc

end Alike

end PairTable

namespace Scratch

variable {g h : Grammar}

theorem alike_entriesOfPair (hgh : g.Repacked h) (hg : g.Coherent) (hh : h.Coherent)
    {t u : PairTable} (htu : t.Alike g.packing h.packing u) {i : Nat}
    (hi : i < g.binaryByPair.populated.size) :
    List.Forall₂ (ChartEntry.Alike g.packing h.packing) (entriesOfPair g.binaryByPair t i)
      (entriesOfPair h.binaryByPair u i) := by
  have hsame := hgh.populated i hi
  unfold entriesOfPair
  dsimp only
  rw [htu.midpoint hsame, htu.score hsame, hgh.columns i hi]
  generalize g.binaryByPair.populated.getD i 0 = key at hsame ⊢
  split_ifs
  · exact .nil
  · obtain ⟨left, right, hpack, hpack'⟩ := hsame
    rw [List.forall₂_map_left_iff, List.forall₂_map_right_iff, List.forall₂_same]
    intro edge _
    exact ⟨rfl, rfl, .binary (hg.unpack_of_pack hpack).1 (hh.unpack_of_pack hpack').1, rfl⟩

/-- Binary rules make the same entries of tables that hold the same pairs. -/
theorem alike_pairEntries (hgh : g.Repacked h) (hg : g.Coherent) (hh : h.Coherent)
    {t u : PairTable} (htu : t.Alike g.packing h.packing u) :
    List.Forall₂ (ChartEntry.Alike g.packing h.packing) (pairEntries g t) (pairEntries h u) := by
  unfold pairEntries
  rw [hgh.size, List.flatMap_def, List.flatMap_def]
  refine List.rel_flatten ?_
  rw [List.forall₂_map_left_iff, List.forall₂_map_right_iff, List.forall₂_same]
  intro i hi
  exact alike_entriesOfPair hgh hg hh htu (List.mem_range.1 hi)

theorem alike_tagEntries (hgh : g.Repacked h) (word : UInt32) :
    List.Forall₂ (ChartEntry.Alike g.packing h.packing) (tagEntries g word)
      (tagEntries h word) := by
  unfold tagEntries
  rw [hgh.lexical, List.forall₂_map_left_iff, List.forall₂_map_right_iff, List.forall₂_same]
  exact fun _ _ => ⟨rfl, rfl, .lexical word, rfl⟩

end Scratch

/-! ## The unary step -/

namespace UnaryStep

variable {g h : Grammar} {s t : Scratch} {stop : UInt16}

theorem improving_congr {p q : Packing} (hgh : g.Repacked h) (hst : s.Alike p q t)
    (stop : UInt16) : improving h t stop = improving g s stop := by
  unfold improving edges edgesOf
  simp only [hgh.unaryByChild, hst.populated, hst.insideOf]

theorem alike_candidates {p q : Packing} (hgh : g.Repacked h) (hst : s.Alike p q t)
    (stop : UInt16) {old new : Scratch} (hold : old.Alike p q new) :
    (candidates g s stop old).Alike p q (candidates h t stop new) := by
  unfold candidates
  rw [improving_congr hgh hst]
  refine hold.reset.updateAll ?_
  rw [List.forall₂_same]
  intro e he
  obtain ⟨child, -, he⟩ := List.mem_flatMap.1 (List.mem_filter.1 he).1
  obtain ⟨edge, -, rfl⟩ := List.mem_map.1 he
  exact ⟨rfl, rfl, .unary child, rfl⟩

theorem childOf_congr {p q : Packing} (hst : s.Alike p q t) :
    childOf t = childOf s := by
  funext parent
  have hentry := hst.entryOf? parent
  unfold childOf
  generalize s.entryOf? parent = x at hentry ⊢
  generalize t.entryOf? parent = y at hentry ⊢
  cases hentry with
  | none => rfl
  | @some d e hentry =>
    obtain ⟨-, -, hchildren, -⟩ := hentry
    dsimp only
    generalize d.children = c at hchildren ⊢
    generalize e.children = c' at hchildren ⊢
    cases hchildren <;> rfl

theorem alike_commit {p q : Packing} {candidates candidates' : Scratch}
    (hcandidates : candidates.Alike p q candidates') (blocked : Std.HashSet UInt16)
    (hst : s.Alike p q t) (parent : UInt16) :
    (commit candidates blocked s parent).Alike p q (commit candidates' blocked t parent) := by
  have hentry := hcandidates.entryOf? parent
  unfold commit
  split_ifs
  · exact hst
  · generalize candidates.entryOf? parent = x at hentry ⊢
    generalize candidates'.entryOf? parent = y at hentry ⊢
    cases hentry with
    | none => exact hst
    | some hentry => exact hst.set hentry

end UnaryStep

/-- A unary step does not look at keys. -/
theorem Scratch.Alike.addUnaries {p q : Packing} {g h : Grammar} {s t old new : Scratch}
    (hst : s.Alike p q t) (hgh : g.Repacked h) (stop : UInt16) (hold : old.Alike p q new) :
    (s.addUnaries g stop old).1.Alike p q (t.addUnaries h stop new).1 ∧
      (s.addUnaries g stop old).2.Alike p q (t.addUnaries h stop new).2 := by
  have hcandidates := UnaryStep.alike_candidates hgh hst stop hold
  refine ⟨?_, by rw [addUnaries_snd, addUnaries_snd]; exact hcandidates⟩
  unfold Scratch.addUnaries
  rw [UnaryStep.foldl_addChild, UnaryStep.foldl_addChild]
  dsimp only
  generalize UnaryStep.candidates g s stop old = candidates at hcandidates ⊢
  generalize UnaryStep.candidates h t stop new = candidates' at hcandidates ⊢
  rw [UnaryStep.childOf_congr hcandidates, hcandidates.populated]
  generalize Std.HashSet.ofList
    (candidates.populated.toList.filterMap (UnaryStep.childOf candidates)) = blocked
  generalize candidates.populated.toList = parents
  induction parents generalizing s t with
  | nil => exact hst
  | cons parent parents ih => exact ih (UnaryStep.alike_commit hcandidates blocked hst parent)

end ChartParsing

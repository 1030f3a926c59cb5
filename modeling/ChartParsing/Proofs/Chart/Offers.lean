import ChartParsing.Chart.RuleSteps
import ChartParsing.Proofs.Chart.PairTable
import ChartParsing.Proofs.Chart.Places
import ChartParsing.Proofs.Grammar.Coherent

/-!
# What the rules offer a cell

Each step that fills a cell is a run of updates. The pairs, the entries and the unary
edges that are offered in it are listed here, and said in terms of the rules of the
grammar.
-/

namespace ChartParsing

namespace PairTable

/-- The pairs of one left child with the right children of a cell. -/
def offersOf (g : Grammar) (rights : Cell) (midpoint : UInt16) (left : ChartEntry) :
    List PairOffer :=
  match g.siblingRange? left.nt, g.packing.leftBlock? left.nt with
  | some range, some block =>
    (siblingsIn range rights).filterMap fun right =>
      (g.packing.packInto block right.nt).map fun key =>
        ⟨key, left.inside + right.inside, midpoint⟩
  | _, _ => []

/-- The pairs of children of a span, in the order in which they are found. -/
def offersFor (g : Grammar) (chart : Chart) (span : Span) : List PairOffer :=
  span.midpoints.flatMap fun midpoint =>
    (chart.cell ⟨span.start, midpoint⟩).toList.flatMap
      (offersOf g (chart.cell ⟨midpoint, span.stop⟩) midpoint)

theorem addRights_eq (g : Grammar) (block : LeftBlock) (range : UInt16 × UInt16) (rights : Cell)
    (midpoint : UInt16) (inside : Score) (t : PairTable) :
    addRights g.packing block range rights midpoint inside t =
      offerAll ((siblingsIn range rights).filterMap fun right =>
        (g.packing.packInto block right.nt).map fun key =>
          ⟨key, inside + right.inside, midpoint⟩) t := by
  unfold addRights
  dsimp only
  change (siblingsIn range rights).foldl _ t = _
  generalize siblingsIn range rights = entries
  induction entries generalizing t with
  | nil => rfl
  | cons right entries ih =>
    rw [List.foldl_cons, ih, List.filterMap_cons]
    cases g.packing.packInto block right.nt with
    | none => rfl
    | some key => rfl

theorem addLeft_eq (g : Grammar) (rights : Cell) (midpoint : UInt16) (t : PairTable)
    (left : ChartEntry) :
    addLeft g rights midpoint t left = offerAll (offersOf g rights midpoint left) t := by
  unfold addLeft offersOf
  cases g.siblingRange? left.nt with
  | none => rfl
  | some range =>
    cases g.packing.leftBlock? left.nt with
    | none => rfl
    | some block => exact addRights_eq g block range rights midpoint left.inside t

theorem offerAll_append (offers offers' : List PairOffer) (t : PairTable) :
    offerAll (offers ++ offers') t = offerAll offers' (offerAll offers t) :=
  List.foldl_append

theorem foldl_eq_offerAll {α : Type} {step : PairTable → α → PairTable}
    {offers : α → List PairOffer} (h : ∀ t x, step t x = offerAll (offers x) t) (xs : List α)
    (t : PairTable) : xs.foldl step t = offerAll (xs.flatMap offers) t := by
  induction xs generalizing t with
  | nil => rfl
  | cons x xs ih => rw [List.foldl_cons, h, ih, List.flatMap_cons, offerAll_append]

theorem offersOf_of_isEmpty (g : Grammar) {rights : Cell} (h : rights.isEmpty = true)
    (midpoint : UInt16) (left : ChartEntry) : offersOf g rights midpoint left = [] := by
  have hnone : ∀ range, siblingsIn range rights = [] := by
    intro range
    have hsize : rights.entries = #[] := Array.isEmpty_iff.1 h
    unfold siblingsIn
    simp [hsize]
  unfold offersOf
  split
  · rw [hnone]
    rfl
  · rfl

/-- Adding the pairs of a span is taking what is offered. -/
theorem addSpan_eq (g : Grammar) (chart : Chart) (span : Span) (t : PairTable) :
    addSpan g chart span t = offerAll (offersFor g chart span) t := by
  refine foldl_eq_offerAll (fun t midpoint => ?_) span.midpoints t
  unfold addMidpoint
  dsimp only
  split_ifs with hempty
  · rw [Bool.or_eq_true] at hempty
    rcases hempty with hempty | hempty
    · rw [Cell.isEmpty_iff.1 hempty]
      rfl
    · have hnil : (chart.cell ⟨span.start, midpoint⟩).toList.flatMap
          (offersOf g (chart.cell ⟨midpoint, span.stop⟩) midpoint) = [] := by
        rw [List.flatMap_eq_nil_iff]
        intro left _
        exact offersOf_of_isEmpty g hempty midpoint left
      rw [hnil]
      rfl
  · exact foldl_eq_offerAll (addLeft_eq g _ midpoint) _ t

/-- An offered pair consists of entries of the two cells at its midpoint. -/
theorem exists_of_mem_offersFor {g : Grammar} {chart : Chart} {span : Span} {o : PairOffer}
    (h : o ∈ offersFor g chart span) :
    o.midpoint ∈ span.midpoints ∧
      ∃ left ∈ (chart.cell ⟨span.start, o.midpoint⟩).toList,
      ∃ right ∈ (chart.cell ⟨o.midpoint, span.stop⟩).toList,
        g.packing.pack left.nt right.nt = some o.key ∧ o.score = left.inside + right.inside := by
  obtain ⟨midpoint, hmid, h⟩ := List.mem_flatMap.1 h
  obtain ⟨left, hleft, h⟩ := List.mem_flatMap.1 h
  unfold offersOf at h
  split at h
  · rename_i range block hrange hblock
    obtain ⟨right, hright, h⟩ := List.mem_filterMap.1 h
    obtain ⟨key, hkey, rfl⟩ := Option.map_eq_some_iff.1 h
    exact ⟨hmid, left, hleft, right, siblingsIn_subset hright,
      Option.bind_eq_some_iff.2 ⟨block, hblock, hkey⟩, rfl⟩
  · cases h

/-- Every pair of entries that a binary rule combines is offered. -/
theorem mem_offersFor {g : Grammar} (hg : g.Coherent) {chart : Chart} {span : Span}
    {midpoint : UInt16} (hmid : midpoint ∈ span.midpoints)
    (hrights : (chart.cell ⟨midpoint, span.stop⟩).Ordered) {left right : ChartEntry}
    (hleft : left ∈ (chart.cell ⟨span.start, midpoint⟩).toList)
    (hright : right ∈ (chart.cell ⟨midpoint, span.stop⟩).toList) {parent : UInt16}
    {rule : Score} (hrule : g.HasBinary parent left.nt right.nt rule) :
    ∃ key, g.packing.pack left.nt right.nt = some key ∧
      ⟨key, left.inside + right.inside, midpoint⟩ ∈ offersFor g chart span := by
  obtain ⟨lo, hi, hrange, hlo, hhi⟩ := hg.range hrule
  obtain ⟨key, hpack, -⟩ := hrule
  obtain ⟨block, hblock, hkey⟩ := Option.bind_eq_some_iff.1 hpack
  refine ⟨key, hpack, ?_⟩
  refine List.mem_flatMap.2 ⟨midpoint, hmid, List.mem_flatMap.2 ⟨left, hleft, ?_⟩⟩
  unfold offersOf
  rw [hrange, hblock]
  refine List.mem_filterMap.2 ⟨right, (mem_siblingsIn hrights).2 ⟨hright, hlo, hhi⟩, ?_⟩
  rw [hkey]
  rfl

/-- The offered keys have their places in the table of the packing. -/
theorem fit_offersFor {g : Grammar} (hg : g.Coherent) (chart : Chart) {span : Span} {size : Nat}
    (hspan : span.within size = true) : Fit g.packing.size (offersFor g chart span) := by
  intro o ho
  obtain ⟨hmid, left, -, right, -, hpack, -⟩ := exists_of_mem_offersFor ho
  refine ⟨(hg.unpack_of_pack hpack).2, ?_⟩
  rw [Span.mem_midpoints hspan] at hmid
  intro hzero
  rw [hzero] at hmid
  exact absurd hmid.1 (Nat.not_lt_zero _)

/-- The best child pairs of a span. -/
def ofSpan (g : Grammar) (chart : Chart) (span : Span) : PairTable :=
  (new g.packing.size).addSpan g chart span

theorem valid_ofSpan {g : Grammar} (hg : g.Coherent) (chart : Chart) {span : Span} {size : Nat}
    (hspan : span.within size = true) : (ofSpan g chart span).Valid g.packing.size := by
  unfold ofSpan
  rw [addSpan_eq]
  exact (valid_new _).offerAll (fit_offersFor hg chart hspan)

/-- The pair kept for a key is one of those offered. -/
theorem mem_of_ofSpan {g : Grammar} (hg : g.Coherent) {chart : Chart} {span : Span} {size : Nat}
    (hspan : span.within size = true) {key : UInt32}
    (h : (ofSpan g chart span).midpoint key ≠ 0) :
    ⟨key, (ofSpan g chart span).score key, (ofSpan g chart span).midpoint key⟩
      ∈ offersFor g chart span := by
  unfold ofSpan at h ⊢
  rw [addSpan_eq] at h ⊢
  rcases (valid_new _).pair_of_offerAll (fit_offersFor hg chart hspan) h with ⟨hmid, -⟩ | hmem
  · rw [midpoint_new] at hmid
    exact absurd hmid.symm h
  · exact hmem

/-- Each key that is offered is kept with a score that is no lower, if all scores offered
are numbers. -/
theorem le_ofSpan {g : Grammar} (hg : g.Coherent) {chart : Chart} {span : Span} {size : Nat}
    (hspan : span.within size = true)
    (hnumbers : ∀ o ∈ offersFor g chart span, o.score.isNaN = false) {o : PairOffer}
    (ho : o ∈ offersFor g chart span) :
    (ofSpan g chart span).midpoint o.key ≠ 0 ∧ o.score ≤ (ofSpan g chart span).score o.key := by
  unfold ofSpan
  rw [addSpan_eq]
  exact ((valid_new _).best_offerAll (numbers_new _) (fit_offersFor hg chart hspan) hnumbers).2 o ho

end PairTable

namespace Scratch

/-- The tags of a word. -/
def tagEntries (g : Grammar) (word : UInt32) : List ChartEntry :=
  (g.lexical.column word).map fun (tag, score) => ⟨tag, score, .lexical word, 0⟩

/-- The parents of the child pair of the `i`-th key that rules use. -/
def entriesOfPair (rules : ColumnMatrix) (pairs : PairTable) (i : Nat) : List ChartEntry :=
  let key := rules.populated.getD i 0
  if pairs.midpoint key = 0 then []
  else (rules.populatedColumn i).map fun (parent, rule) =>
    ⟨parent, rule + pairs.score key, .binary key, pairs.midpoint key⟩

/-- The parents of the child pairs of a span. -/
def pairEntries (g : Grammar) (pairs : PairTable) : List ChartEntry :=
  (List.range g.binaryByPair.populated.size).flatMap (entriesOfPair g.binaryByPair pairs)

theorem addWord_eq (g : Grammar) (word : UInt32) (s : Scratch) :
    s.addWord g word = updateAll (tagEntries g word) s := by
  unfold addWord updateAll tagEntries
  rw [List.foldl_map]

theorem addPair_eq (rules : ColumnMatrix) (pairs : PairTable) (i : Nat) (s : Scratch) :
    addPair rules pairs i s = updateAll (entriesOfPair rules pairs i) s := by
  unfold addPair entriesOfPair
  dsimp only
  split_ifs
  · rfl
  · unfold updateAll
    rw [List.foldl_map]

theorem updateAll_append (entries entries' : List ChartEntry) (s : Scratch) :
    updateAll (entries ++ entries') s = updateAll entries' (updateAll entries s) :=
  List.foldl_append

theorem fold_eq_updateAll {step : Nat → Scratch → Scratch} {entries : Nat → List ChartEntry}
    (h : ∀ i s, step i s = updateAll (entries i) s) (n : Nat) (s : Scratch) :
    n.fold (fun i _ s => step i s) s = updateAll ((List.range n).flatMap entries) s := by
  induction n with
  | zero => rfl
  | succ n ih =>
    rw [Nat.fold_succ, ih, h, List.range_succ, List.flatMap_append, updateAll_append]
    simp

/-- Entering the parents of the child pairs is a run of updates. -/
theorem addPairs_eq (g : Grammar) {pairs : PairTable} {count : Nat} (h : pairs.Valid count)
    (s : Scratch) : s.addPairs g pairs = updateAll (pairEntries g pairs) s := by
  unfold addPairs
  split_ifs with hempty
  · have hnil : pairEntries g pairs = [] := by
      unfold pairEntries
      rw [List.flatMap_eq_nil_iff]
      intro i _
      unfold entriesOfPair
      dsimp only
      rw [if_pos (h.isEmpty_iff.1 hempty _)]
    rw [hnil]
    rfl
  · exact fold_eq_updateAll (addPair_eq g.binaryByPair pairs) _ s

theorem mem_tagEntries {g : Grammar} {word : UInt32} {e : ChartEntry} :
    e ∈ tagEntries g word ↔
      g.HasTag e.nt word e.inside ∧ e.children = .lexical word ∧ e.midpoint = 0 := by
  unfold tagEntries Grammar.HasTag
  rw [List.mem_map]
  constructor
  · rintro ⟨⟨tag, score⟩, hmem, rfl⟩
    exact ⟨hmem, rfl, rfl⟩
  · rintro ⟨hmem, hchildren, hmid⟩
    obtain ⟨nt, inside, children, midpoint⟩ := e
    cases hchildren
    cases hmid
    exact ⟨(nt, inside), hmem, rfl⟩

/-- An entry is made of each binary rule whose children have a pair. -/
theorem mem_pairEntries {g : Grammar} (hg : g.Coherent) {pairs : PairTable} {e : ChartEntry} :
    e ∈ pairEntries g pairs ↔ ∃ left right key rule, g.packing.pack left right = some key ∧
      g.HasBinary e.nt left right rule ∧ pairs.midpoint key ≠ 0 ∧
      e.inside = rule + pairs.score key ∧ e.children = .binary key ∧
      e.midpoint = pairs.midpoint key := by
  unfold pairEntries
  rw [List.mem_flatMap]
  constructor
  · rintro ⟨i, hi, hmem⟩
    rw [List.mem_range] at hi
    unfold entriesOfPair at hmem
    dsimp only at hmem
    by_cases hzero : pairs.midpoint (g.binaryByPair.populated.getD i 0) = 0
    · rw [if_pos hzero] at hmem
      cases hmem
    · rw [if_neg hzero, hg.populated i hi, List.mem_map] at hmem
      obtain ⟨⟨parent, rule⟩, hentry, rfl⟩ := hmem
      obtain ⟨left, right, hpack, hrule⟩ := hg.binary.1 hentry
      exact ⟨left, right, _, rule, hpack, hrule, hzero, rfl, rfl, rfl⟩
  · rintro ⟨left, right, key, rule, hpack, hrule, hne, hinside, hchildren, hmid⟩
    have hentry := hg.binary.2 ⟨left, right, hpack, hrule⟩
    have hlisted := (hg.mem_populated key).2 (List.ne_nil_of_mem hentry)
    obtain ⟨i, hi, hget⟩ := List.mem_iff_getElem.1 hlisted
    rw [Array.length_toList] at hi
    have hkey : g.binaryByPair.populated.getD i 0 = key := by
      rw [Array.getD_eq_getD_getElem?, Array.getElem?_eq_getElem hi]
      simpa using hget
    refine ⟨i, List.mem_range.2 hi, ?_⟩
    unfold entriesOfPair
    dsimp only
    rw [hg.populated i hi, hkey, if_neg hne, List.mem_map]
    refine ⟨(e.nt, rule), hentry, ?_⟩
    obtain ⟨nt, inside, children, midpoint⟩ := e
    cases hinside
    cases hchildren
    cases hmid
    rfl

/-- What lexicon entries or binary rules derive over a span. -/
def derivedEntries (g : Grammar) (chart : Chart) (words : Array UInt32) (span : Span) :
    List ChartEntry :=
  if span.width = 1 then tagEntries g (words.getD span.start.toNat 0)
  else pairEntries g (PairTable.ofSpan g chart span)

theorem derivedEntries_lt {g : Grammar} (hg : g.Coherent) (chart : Chart) (words : Array UInt32)
    (span : Span) : ∀ e ∈ derivedEntries g chart words span, e.nt.toNat < g.size := by
  intro e he
  unfold derivedEntries at he
  split_ifs at he
  · exact hg.tag_lt (mem_tagEntries.1 he).1
  · obtain ⟨left, right, key, rule, -, hrule, -⟩ := (mem_pairEntries hg).1 he
    exact hg.binary_lt hrule

/-- The best of what lexicon entries or binary rules derive over a span. -/
def derived (g : Grammar) (chart : Chart) (words : Array UInt32) (span : Span) : Scratch :=
  updateAll (derivedEntries g chart words span) (new g.size)

theorem valid_derived {g : Grammar} (hg : g.Coherent) (chart : Chart) (words : Array UInt32)
    (span : Span) : (derived g chart words span).Valid g.size :=
  (valid_new _).updateAll (derivedEntries_lt hg chart words span)

/-- A derived entry is one of those that are offered, and present. -/
theorem mem_of_derived {g : Grammar} (hg : g.Coherent) {chart : Chart} {words : Array UInt32}
    {span : Span} {nt : UInt16} {e : ChartEntry}
    (h : (derived g chart words span).entryOf? nt = some e) :
    e ∈ derivedEntries g chart words span ∧ Score.absent < e.inside := by
  rcases (valid_new _).entry_of_updateAll (derivedEntries_lt hg chart words span) h with
    hnone | ⟨hmem, habove⟩
  · rw [entryOf?_eq_none.2 (insideOf_new g.size nt)] at hnone
    cases hnone
  · rw [insideOf_new] at habove
    exact ⟨hmem, habove⟩

/-- What is offered and present is not above what is derived. -/
theorem le_derived {g : Grammar} (hg : g.Coherent) {chart : Chart} {words : Array UInt32}
    {span : Span} {e : ChartEntry} (he : e ∈ derivedEntries g chart words span)
    (hpresent : Score.absent < e.inside) :
    e.inside ≤ (derived g chart words span).insideOf e.nt :=
  ((valid_new _).best_updateAll (present_of_absent (insideOf_new _))
    (derivedEntries_lt hg chart words span)).2.2 e he hpresent

theorem isNaN_derived {g : Grammar} (hg : g.Coherent) (chart : Chart) (words : Array UInt32)
    (span : Span) (nt : UInt16) : ((derived g chart words span).insideOf nt).isNaN = false := by
  by_cases habsent : (derived g chart words span).insideOf nt = Score.absent
  · rw [habsent]
    exact Score.isNaN_absent
  · exact Score.isNaN_of_present (((valid_new _).best_updateAll
      (present_of_absent (insideOf_new _)) (derivedEntries_lt hg chart words span)).1 nt habsent)

end Scratch

end ChartParsing

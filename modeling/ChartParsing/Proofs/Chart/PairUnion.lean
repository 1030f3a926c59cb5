import ChartParsing.Proofs.Chart.Kept
import ChartParsing.Proofs.Chart.Offers
import ChartParsing.Proofs.Grammar.Repacked
import ChartParsing.Proofs.Grammar.Views
import ChartParsing.Proofs.Outside.Recursion

/-!
# The union of child pairs

The pairs of a span are found midpoint by midpoint, and of the right children only a stretch is
looked at, from the least sibling of the left child to the greatest. What is found is the union
over all midpoints that a plain search of all children would find: each key once, with its
greatest sum and the smallest midpoint that has it.
-/

namespace ChartParsing

namespace Span

/-- The midpoints of a span are gone through in increasing order. -/
theorem sorted_midpoints (s : Span) : s.midpoints.Pairwise fun m n => m.toNat < n.toNat := by
  have hstop := s.stop.toNat_lt
  unfold midpoints
  rw [List.pairwise_map]
  refine List.Pairwise.imp_of_mem (fun {m n} hm hn hlt => ?_) List.pairwise_lt_range'
  rw [List.mem_range'_1] at hm hn
  have hm' : (UInt16.ofNat m).toNat = m := Nat.mod_eq_of_lt (by omega)
  have hn' : (UInt16.ofNat n).toNat = n := Nat.mod_eq_of_lt (by omega)
  rwa [hm', hn']

end Span

/-- A pair that has a key under a packing other than by shifting is that of a rule. -/
theorem Grammar.exists_hasBinary {source : GrammarSource} {kind : PackingKind} {g : Grammar}
    (h : compile source kind = .ok g) (hkind : kind ≠ .shift) {left right : UInt16} {key : UInt32}
    (hpack : g.packing.pack left right = some key) :
    ∃ parent rule, g.HasBinary parent left right rule := by
  obtain ⟨-, -, lexicon, bounds, productions, binary, hmade, -⟩ := compile_ok h
  obtain ⟨⟨parent, left', right', value⟩, hrule, heq⟩ :=
    List.mem_map.1 (Packing.mem_of_pack hmade.packing hkind hpack)
  cases heq
  obtain ⟨rule, hscore⟩ := Option.isSome_iff_exists.1 (ruleScore?_isSome hrule)
  exact ⟨parent, rule, hmade.hasBinary_iff.2 hscore⟩

namespace PairTable

variable {g : Grammar} {chart : Chart} {span : Span} {key : UInt32} {m : UInt16}
  {l r : ChartEntry} {o : PairOffer}

/-- Two entries make up a span at a midpoint, and their pair has the key. -/
structure Adjoins (g : Grammar) (chart : Chart) (span : Span) (key : UInt32) (m : UInt16)
    (l r : ChartEntry) : Prop where
  inside : span.start < m ∧ m < span.stop
  left : l ∈ (chart.cell ⟨span.start, m⟩).toList
  right : r ∈ (chart.cell ⟨m, span.stop⟩).toList
  pack : g.packing.pack l.nt r.nt = some key

/-- Two entries adjoin, and the right one is in the range of siblings of the left one. -/
structure Meets (g : Grammar) (chart : Chart) (span : Span) (key : UInt32) (m : UInt16)
    (l r : ChartEntry) : Prop extends Adjoins g chart span key m l r where
  inRange : ∃ lo hi, g.siblingRange? l.nt = some (lo, hi) ∧ lo ≤ r.nt ∧ r.nt ≤ hi

/-- What a left child offers: the search skips none of the right children in range. -/
theorem mem_offersOf {rights : Cell} (h : rights.Ordered) :
    o ∈ offersOf g rights m l ↔ ∃ r ∈ rights.toList, g.packing.pack l.nt r.nt = some o.key ∧
      (∃ lo hi, g.siblingRange? l.nt = some (lo, hi) ∧ lo ≤ r.nt ∧ r.nt ≤ hi) ∧
      o = ⟨o.key, l.inside + r.inside, m⟩ := by
  unfold offersOf Packing.pack
  cases hrange : g.siblingRange? l.nt with
  | none => simp
  | some range =>
    cases hblock : g.packing.leftBlock? l.nt with
    | none => simp
    | some block =>
      simp only [List.mem_filterMap, mem_siblingsIn h, Option.map_eq_some_iff, Option.bind_some]
      constructor
      · rintro ⟨r, ⟨hr, hlo, hhi⟩, key, hkey, rfl⟩
        exact ⟨r, hr, hkey, ⟨range.1, range.2, rfl, hlo, hhi⟩, rfl⟩
      · rintro ⟨r, hr, hkey, ⟨lo, hi, hsome, hlo, hhi⟩, ho⟩
        obtain rfl := Option.some.inj hsome
        exact ⟨r, ⟨hr, hlo, hhi⟩, o.key, hkey, ho.symm⟩

theorem ordered_right (hchart : chart.Ordered) (hspan : span.within chart.size = true)
    (hm : span.start < m ∧ m < span.stop) : (chart.cell ⟨m, span.stop⟩).Ordered := by
  rw [Span.within_iff] at hspan
  rw [UInt16.lt_iff_toNat_lt, UInt16.lt_iff_toNat_lt] at hm
  exact hchart _ (Span.within_iff.2 ⟨hm.2, hspan.2⟩)

theorem mem_midpoints_iff (hspan : span.within chart.size = true) :
    m ∈ span.midpoints ↔ span.start < m ∧ m < span.stop := by
  rw [Span.mem_midpoints hspan, UInt16.lt_iff_toNat_lt, UInt16.lt_iff_toNat_lt]

/-- What is offered over a span is what meets there. -/
theorem mem_offersFor_iff (hchart : chart.Ordered) (hspan : span.within chart.size = true) :
    o ∈ offersFor g chart span ↔
      ∃ l r, Meets g chart span o.key o.midpoint l r ∧ o.score = l.inside + r.inside := by
  unfold offersFor
  simp only [List.mem_flatMap]
  constructor
  · rintro ⟨m, hmem, l, hl, ho⟩
    have hm := (mem_midpoints_iff hspan).1 hmem
    obtain ⟨r, hr, hpack, hrange, heq⟩ := (mem_offersOf (ordered_right hchart hspan hm)).1 ho
    rw [heq]
    exact ⟨l, r, ⟨⟨hm, hl, hr, hpack⟩, hrange⟩, rfl⟩
  · rintro ⟨l, r, hmeets, hscore⟩
    refine ⟨o.midpoint, (mem_midpoints_iff hspan).2 hmeets.inside, l, hmeets.left, ?_⟩
    refine (mem_offersOf (ordered_right hchart hspan hmeets.inside)).2
      ⟨r, hmeets.right, hmeets.pack, hmeets.inRange, ?_⟩
    rw [← hscore]

/-- The table is the union over all midpoints of the pairs that meet. -/
structure Union (g : Grammar) (chart : Chart) (span : Span) (t : PairTable) : Prop where
  valid : t.Valid g.packing.size
  nodup : t.populated.toList.Nodup
  listed : ∀ key, key ∈ t.populated.toList ↔ ∃ m l r, Meets g chart span key m l r
  /-- The sum that is kept is one at the midpoint that is kept. -/
  attained : ∀ key ∈ t.populated.toList, ∃ l r, Meets g chart span key (t.midpoint key) l r ∧
    t.score key = l.inside + r.inside
  /-- No sum is above the one that is kept, and none at a smaller midpoint reaches it. -/
  not_above : ∀ key m l r, Meets g chart span key m l r →
    ¬t.score key < l.inside + r.inside ∧
      (m < t.midpoint key → ¬t.score key ≤ l.inside + r.inside)
  /-- Among numbers the sum that is kept is the greatest, at the smallest midpoint. -/
  greatest : ∀ key, (∀ m l r, Meets g chart span key m l r →
      (l.inside + r.inside).isNaN = false) →
    ∀ m l r, Meets g chart span key m l r → l.inside + r.inside ≤ t.score key ∧
      (m < t.midpoint key → l.inside + r.inside < t.score key)

/-- The pair of a key is the first of the greatest that are offered for it. -/
theorem firstGreatest_ofSpan (hg : g.Coherent) (hspan : span.within chart.size = true)
    (h : (ofSpan g chart span).pair? key = some o) :
    FirstGreatest (·.score) (offeredFor key (offersFor g chart span)) o := by
  unfold ofSpan at h
  rw [addSpan_eq, (valid_new _).pair?_offerAll (fit_offersFor hg chart hspan), pair?_new] at h
  exact firstGreatest_of_foldl h

theorem midpoint_ofSpan_eq_zero (hg : g.Coherent) (hspan : span.within chart.size = true) :
    (ofSpan g chart span).midpoint key = 0 ↔ ∀ o ∈ offersFor g chart span, o.key ≠ key := by
  rw [← pair?_eq_none]
  unfold ofSpan
  rw [addSpan_eq, (valid_new _).pair?_offerAll (fit_offersFor hg chart hspan), pair?_new,
    foldl_keepGreater_eq_none, offeredFor, List.filter_eq_nil_iff]
  simp only [decide_eq_true_iff]

theorem midpoint_of_mem_offersOf {rights : Cell} (h : o ∈ offersOf g rights m l) :
    o.midpoint = m := by
  unfold offersOf at h
  split at h
  · obtain ⟨r, -, h⟩ := List.mem_filterMap.1 h
    obtain ⟨key, -, rfl⟩ := Option.map_eq_some_iff.1 h
    rfl
  · cases h

/-- At smaller midpoints than the one that is kept no sum is as high. -/
theorem not_le_of_midpoint_lt
    (h : FirstGreatest (·.score) (offeredFor key (offersFor g chart span)) o) {p : PairOffer}
    (hp : p ∈ offersFor g chart span) (hkey : p.key = key) (hlt : p.midpoint < o.midpoint) :
    ¬o.score ≤ p.score := by
  unfold offeredFor offersFor at h
  rw [List.filter_flatMap] at h
  obtain ⟨before, m, after, hlist, hpart, hbefore, -⟩ := h.of_flatMap
  -- an offer is found at its own midpoint
  have hat {q : PairOffer} {n : UInt16} (hq : q ∈ (chart.cell ⟨span.start, n⟩).toList.flatMap
      (offersOf g (chart.cell ⟨n, span.stop⟩) n)) : q.midpoint = n := by
    obtain ⟨l, -, hq⟩ := List.mem_flatMap.1 hq
    exact midpoint_of_mem_offersOf hq
  obtain ⟨n, hn, hp⟩ := List.mem_flatMap.1 hp
  rw [hat hp, hat (List.mem_of_mem_filter hpart.mem), UInt16.lt_iff_toNat_lt] at hlt
  refine hbefore n ?_ p (List.mem_filter.2 ⟨hp, decide_eq_true hkey⟩)
  have hsorted := span.sorted_midpoints
  rw [hlist] at hn hsorted
  rcases List.mem_append.1 hn with hn | hn
  · exact hn
  · rcases List.mem_cons.1 hn with rfl | hn
    · exact absurd hlt (Nat.lt_irrefl _)
    · have hlater := List.rel_of_pairwise_cons (List.pairwise_append.1 hsorted).2.1 hn
      omega

/-- The pairs of a span are the union of those that meet at its midpoints. -/
theorem union_ofSpan (hg : g.Coherent) (hchart : chart.Ordered)
    (hspan : span.within chart.size = true) : Union g chart span (ofSpan g chart span) := by
  have hvalid := valid_ofSpan hg chart hspan
  have hnodup : (ofSpan g chart span).populated.toList.Nodup := by
    unfold ofSpan
    rw [addSpan_eq]
    exact (valid_new _).nodup_offerAll List.nodup_nil (fit_offersFor hg chart hspan)
  have hzero (key : UInt32) : (ofSpan g chart span).midpoint key = 0 ↔
      ∀ o ∈ offersFor g chart span, o.key ≠ key := midpoint_ofSpan_eq_zero hg hspan
  have hfirst {key : UInt32} (hne : (ofSpan g chart span).midpoint key ≠ 0) :=
    firstGreatest_ofSpan hg hspan (pair?_eq_some.2 ⟨hne, rfl⟩)
  have hoffer {key : UInt32} {m : UInt16} {l r : ChartEntry}
      (hmeets : Meets g chart span key m l r) :
      ⟨key, l.inside + r.inside, m⟩ ∈ offersFor g chart span :=
    (mem_offersFor_iff hchart hspan).2 ⟨l, r, hmeets, rfl⟩
  generalize ofSpan g chart span = t at hvalid hnodup hzero hfirst ⊢
  have hmem (key : UInt32) : key ∈ t.populated.toList ↔ ∃ m l r, Meets g chart span key m l r := by
    rw [hvalid.mem, ne_eq, hzero]
    push Not
    constructor
    · rintro ⟨o, ho, rfl⟩
      obtain ⟨l, r, hmeets, -⟩ := (mem_offersFor_iff hchart hspan).1 ho
      exact ⟨o.midpoint, l, r, hmeets⟩
    · rintro ⟨m, l, r, hmeets⟩
      exact ⟨_, hoffer hmeets, rfl⟩
  have hattained (key : UInt32) (hkey : key ∈ t.populated.toList) :
      ∃ l r, Meets g chart span key (t.midpoint key) l r ∧ t.score key = l.inside + r.inside :=
    (mem_offersFor_iff hchart hspan).1
      (mem_offeredFor.1 (hfirst ((hvalid.mem key).1 hkey)).mem).1
  have hnot (key : UInt32) (m : UInt16) (l r : ChartEntry)
      (hmeets : Meets g chart span key m l r) : ¬t.score key < l.inside + r.inside ∧
        (m < t.midpoint key → ¬t.score key ≤ l.inside + r.inside) := by
    have hkept := hfirst ((hvalid.mem key).1 ((hmem key).2 ⟨m, l, r, hmeets⟩))
    have habove := hkept.not_lt (mem_offeredFor.2 ⟨hoffer hmeets, rfl⟩)
    have hbefore := not_le_of_midpoint_lt hkept (hoffer hmeets) rfl
    exact ⟨habove, hbefore⟩
  refine ⟨hvalid, hnodup, hmem, hattained, hnot, fun key hnumbers m l r hmeets => ?_⟩
  obtain ⟨l', r', hmeets', hsum⟩ := hattained key ((hmem key).2 ⟨m, l, r, hmeets⟩)
  obtain ⟨habove, hbefore⟩ := hnot key m l r hmeets
  have hnumber : (t.score key).isNaN = false := by
    rw [hsum]
    exact hnumbers _ _ _ hmeets'
  refine ⟨Score.le_of_not_lt hnumber (hnumbers m l r hmeets) habove, fun hlt => ?_⟩
  by_contra hnlt
  exact hbefore hlt (Score.le_of_not_lt (hnumbers m l r hmeets) hnumber hnlt)

/-- Entries that are numbers and not absent have sums that are numbers. -/
theorem Meets.isNaN_add (h : Meets g chart span key m l r) (hspan : span.within chart.size = true)
    (hscores : ∀ s, s.within chart.size = true → ∀ e ∈ (chart.cell s).toList,
      e.inside.isNaN = false ∧ e.inside ≠ Score.absent) : (l.inside + r.inside).isNaN = false := by
  obtain ⟨hlo, hhi⟩ := h.inside
  rw [UInt16.lt_iff_toNat_lt] at hlo hhi
  rw [Span.within_iff] at hspan
  have hleft : (⟨span.start, m⟩ : Span).within chart.size = true :=
    Span.within_iff.2 ⟨hlo, by dsimp only; omega⟩
  have hright : (⟨m, span.stop⟩ : Span).within chart.size = true :=
    Span.within_iff.2 ⟨hhi, hspan.2⟩
  exact Score.isNaN_add (Score.absent_lt_iff.2 (hscores _ hleft l h.left))
    (Score.absent_lt_iff.2 (hscores _ hright r h.right))

/-- Added to a cleared table, the pairs of a span are the union of those that meet; their sums
are numbers if the entries of the chart are, none of them absent. The children of a rule meet
wherever they adjoin; and unless the packing is one by shifting, whatever adjoins meets and is
the pair of a rule. -/
theorem union_addSpan {source : GrammarSource} {kind : PackingKind}
    (h : Grammar.compile source kind = .ok g) {t : PairTable} (ht : t.Valid g.packing.size)
    (hchart : chart.Ordered) (hspan : span.within chart.size = true) :
    Union g chart span (t.clear.addSpan g chart span) ∧
      ((∀ s, s.within chart.size = true → ∀ e ∈ (chart.cell s).toList,
          e.inside.isNaN = false ∧ e.inside ≠ Score.absent) →
        ∀ key m l r, Meets g chart span key m l r → (l.inside + r.inside).isNaN = false) ∧
      (∀ m l r parent rule, span.start < m ∧ m < span.stop →
        l ∈ (chart.cell ⟨span.start, m⟩).toList → r ∈ (chart.cell ⟨m, span.stop⟩).toList →
        g.HasBinary parent l.nt r.nt rule →
        ∃ key ∈ (t.clear.addSpan g chart span).populated.toList,
          g.packing.pack l.nt r.nt = some key) ∧
      (kind ≠ .shift →
        (∀ key m l r, Adjoins g chart span key m l r → Meets g chart span key m l r) ∧
        ∀ key, key ∈ (t.clear.addSpan g chart span).populated.toList ↔
          ∃ m l r parent rule, Adjoins g chart span key m l r ∧
            g.HasBinary parent l.nt r.nt rule) := by
  have hg := Grammar.coherent_of_compile h
  have hunion : Union g chart span (t.clear.addSpan g chart span) := by
    rw [ht.clear_eq]
    exact union_ofSpan hg hchart hspan
  have hrule {key : UInt32} {m : UInt16} {l r : ChartEntry} {parent : UInt16} {rule : Score}
      (hadjoins : Adjoins g chart span key m l r) (hrule : g.HasBinary parent l.nt r.nt rule) :
      Meets g chart span key m l r := ⟨hadjoins, hg.range hrule⟩
  refine ⟨hunion, fun hscores key m l r hmeets => hmeets.isNaN_add hspan hscores,
    fun m l r parent rule hm hl hr hbinary => ?_, fun hkind => ?_⟩
  · obtain ⟨key, hpack, -⟩ := id hbinary
    exact ⟨key, (hunion.listed key).2 ⟨m, l, r, hrule ⟨hm, hl, hr, hpack⟩ hbinary⟩, hpack⟩
  · have hmeets {key : UInt32} {m : UInt16} {l r : ChartEntry}
        (hadjoins : Adjoins g chart span key m l r) :
        Meets g chart span key m l r ∧ ∃ parent rule, g.HasBinary parent l.nt r.nt rule := by
      obtain ⟨parent, rule, hbinary⟩ := Grammar.exists_hasBinary h hkind hadjoins.pack
      exact ⟨hrule hadjoins hbinary, parent, rule, hbinary⟩
    refine ⟨fun key m l r hadjoins => (hmeets hadjoins).1, fun key => ?_⟩
    rw [hunion.listed]
    constructor
    · rintro ⟨m, l, r, h⟩
      obtain ⟨-, parent, rule, hbinary⟩ := hmeets h.toAdjoins
      exact ⟨m, l, r, parent, rule, h.toAdjoins, hbinary⟩
    · rintro ⟨m, l, r, parent, rule, hadjoins, -⟩
      exact ⟨m, l, r, (hmeets hadjoins).1⟩

/-- Two tags of the sample make up a pair at the midpoint of two words. -/
theorem union_addSpan_pairChart : ∃ g, Grammar.compile (.sample true) .shift = .ok g ∧
    ∃ key ∈ ((new g.packing.size).clear.addSpan g OutsideChart.pairChart ⟨0, 2⟩).populated.toList,
      g.packing.pack 0 0 = some key := by
  obtain ⟨g, hg, -⟩ := Grammar.exists_sample true
  obtain ⟨-, -, hbinary, -⟩ := Grammar.rules_sample hg
  have hspan : (⟨0, 2⟩ : Span).within OutsideChart.pairChart.size = true := by decide
  obtain ⟨-, -, hlisted, -⟩ := union_addSpan hg (valid_new g.packing.size)
    OutsideChart.ordered_pairChart hspan
  exact ⟨g, hg, hlisted 1 ⟨0, 0, .lexical 0, 0⟩ ⟨0, 0, .lexical 0, 0⟩ 1 0 (by decide)
    List.mem_cons_self List.mem_cons_self hbinary⟩

end PairTable
end ChartParsing

import ChartParsing.Proofs.Grammar.Making
import ChartParsing.Proofs.Grammar.Siblings
import ChartParsing.Proofs.Outside.Raising
import ChartParsing.Proofs.Schedule

/-!
# The recursion of outside scores

Outside scores are passed down from every span before those strictly inside it. When it is
the turn of a span, all that can arrive there has arrived: its scores are the greatest that
its parents over longer spans give, and after one step of unary rules they are not raised
any more.
-/

namespace ChartParsing

namespace Span

theorem mem_spansDown {size : Nat} (hsize : size ≤ 65535) {s : Span} :
    s ∈ OutsideChart.spansDown size ↔ s.within size = true := by
  unfold OutsideChart.spansDown
  simp only [List.mem_flatMap, List.mem_map, List.mem_range]
  constructor
  · rintro ⟨shorter, hshorter, start, hstart, rfl⟩
    obtain ⟨hfirst, hstop⟩ := toNat_ofLength start (size - shorter) (by omega)
    unfold ofLength at hfirst hstop
    rw [within_iff, hfirst, hstop]
    omega
  · intro h
    have hspan := ofLength_length h
    rw [within_iff] at h
    refine ⟨size - s.length, ?_, s.start.toNat, ?_, ?_⟩
    · unfold length
      omega
    · unfold length
      omega
    · have hlength : size - (size - s.length) = s.length := by
        unfold length
        omega
      rw [hlength]
      exact hspan

/-- The longer spans come first, and none comes twice. -/
theorem pairwise_spansDown {size : Nat} (hsize : size ≤ 65535) :
    (OutsideChart.spansDown size).Pairwise fun s t => t.length ≤ s.length ∧ s ≠ t := by
  unfold OutsideChart.spansDown
  rw [List.pairwise_flatMap]
  have hlength {shorter start : Nat} (hshorter : shorter < size) (hstart : start < shorter + 1) :
      (ofLength start (size - shorter)).length = size - shorter :=
    length_ofLength (by omega)
  constructor
  · intro shorter hshorter
    rw [List.mem_range] at hshorter
    rw [List.pairwise_map]
    refine List.pairwise_lt_range.imp_of_mem fun {i j} hi hj hij => ?_
    rw [List.mem_range] at hi hj
    refine ⟨Nat.le_of_eq ((hlength hshorter hj).trans (hlength hshorter hi).symm), fun heq => ?_⟩
    have hstart := congrArg (fun s => s.start.toNat) heq
    have hi' := (toNat_ofLength i (size - shorter) (by omega)).1
    have hj' := (toNat_ofLength j (size - shorter) (by omega)).1
    unfold ofLength at hi' hj'
    dsimp only at hstart hi' hj'
    omega
  · refine List.pairwise_lt_range.imp_of_mem fun {i j} hi hj hij => ?_
    rw [List.mem_range] at hi hj
    intro s hs t ht
    obtain ⟨start, hstart, rfl⟩ := List.mem_map.1 hs
    obtain ⟨start', hstart', rfl⟩ := List.mem_map.1 ht
    rw [List.mem_range] at hstart hstart'
    have hs' := hlength hi hstart
    have ht' := hlength hj hstart'
    unfold ofLength at hs' ht'
    refine ⟨by omega, fun heq => ?_⟩
    rw [heq, ht'] at hs'
    omega

end Span

namespace OutsideChart

variable {g : Grammar} {chart : Chart} {o : OutsideChart}

/-- A score that an entry of a cell passes down to a non-terminal over a part of its span: to
a left child beside the rest of the span, or to a right child. -/
def Passes (g : Grammar) (chart : Chart) (o : OutsideChart) (s t : Span) (nt : UInt16)
    (x : Score) : Prop :=
  (t.start = s.start ∧ t.stop < s.stop ∧
    ∃ parent ∈ (chart.cell s).nonTerminals, ∃ right ∈ (chart.cell ⟨t.stop, s.stop⟩).toList,
      ∃ rule, g.HasBinary parent nt right.nt rule ∧
        x = o.get s parent + rule + right.inside) ∨
  (s.start < t.start ∧ t.stop = s.stop ∧
    ∃ parent ∈ (chart.cell s).nonTerminals, ∃ left ∈ (chart.cell ⟨s.start, t.start⟩).toList,
      ∃ rule, g.HasBinary parent left.nt nt rule ∧
        x = o.get s parent + rule + left.inside)

/-- A score that arrives at a non-terminal over a span, from nothing outside the sentence or
from an entry over a longer span. -/
def Arrives (g : Grammar) (chart : Chart) (o : OutsideChart) (t : Span) (nt : UInt16)
    (x : Score) : Prop :=
  (t = chart.whole ∧ nt = g.start ∧ x = 0) ∨
    ∃ s, s.within chart.size = true ∧ Passes g chart o s t nt x

/-- A score that a non-terminal has by itself, or that one unary rule passes to it from an
entry of the same cell. -/
def Raised (g : Grammar) (chart : Chart) (arrived : Span → UInt16 → Score) (s : Span)
    (nt : UInt16) (x : Score) : Prop :=
  x = arrived s nt ∨ ∃ parent ∈ (chart.cell s).nonTerminals, ∃ rule,
    g.HasUnary parent nt rule ∧ x = arrived s parent + rule

/-! ## Offers -/

/-- The scores that a cell offers along its unary rules. -/
def unaryOffers (g : Grammar) (s : Span) (parents : List (UInt16 × Score)) :
    List OutsideOffer :=
  parents.flatMap fun (parent, score) => (g.unaryByParent.row parent).map fun (child, rule) =>
    ⟨s, child.toUInt16, score + rule⟩

/-- The scores that a parent offers to the children beside the given ones. -/
def besideOffers (siblings : SiblingIndex) (parent : UInt16) (score : Score) (target : Span)
    (beside : Cell) : List OutsideOffer :=
  beside.toList.flatMap fun sibling =>
    (siblings.children parent sibling.nt).map fun (child, rule) =>
      ⟨target, child, score + rule + sibling.inside⟩

/-- The scores that parents offer to their children at a midpoint. -/
def midpointOffers (g : Grammar) (chart : Chart) (s : Span) (parents : List (UInt16 × Score))
    (midpoint : UInt16) : List OutsideOffer :=
  let left : Span := ⟨s.start, midpoint⟩
  let right : Span := ⟨midpoint, s.stop⟩
  if (chart.cell left).isEmpty || (chart.cell right).isEmpty then []
  else parents.flatMap fun (parent, score) =>
    besideOffers g.leftChildren parent score left (chart.cell right) ++
      besideOffers g.rightChildren parent score right (chart.cell left)

/-- The scores that a cell offers to shorter spans. -/
def offersDown (g : Grammar) (chart : Chart) (s : Span) (parents : List (UInt16 × Score)) :
    List OutsideOffer :=
  s.midpoints.flatMap (midpointOffers g chart s parents)

theorem passUnaries_eq (g : Grammar) (s : Span) (o : OutsideChart) :
    passUnaries g s o = o.raiseAll (unaryOffers g s (o.cell s).reached) := by
  unfold passUnaries raiseAll unaryOffers
  rw [List.foldl_flatMap]
  simp only [List.foldl_map]

theorem passMidpoint_eq (s : Span) (parents : List (UInt16 × Score)) (o : OutsideChart)
    (midpoint : UInt16) : passMidpoint g chart s parents o midpoint =
      o.raiseAll (midpointOffers g chart s parents midpoint) := by
  unfold passMidpoint midpointOffers
  dsimp only
  split_ifs
  · rfl
  · unfold raiseAll
    simp only [List.foldl_flatMap, List.foldl_append, besideOffers, List.foldl_map, passBeside]

theorem passDown_eq (s : Span) (o : OutsideChart) : passDown g chart o s =
    (passUnaries g s o).raiseAll
      (offersDown g chart s ((passUnaries g s o).cell s).reached) := by
  unfold passDown offersDown raiseAll
  dsimp only
  rw [List.foldl_flatMap]
  exact List.foldl_ext _ _ _ fun o midpoint _ => passMidpoint_eq s _ o midpoint

/-- Offers along unary rules stay in their cell. -/
theorem span_of_mem_unaryOffers {s : Span} {parents : List (UInt16 × Score)} {f : OutsideOffer}
    (hf : f ∈ unaryOffers g s parents) : f.span = s := by
  obtain ⟨parent, -, hf⟩ := List.mem_flatMap.1 hf
  obtain ⟨rule, -, rfl⟩ := List.mem_map.1 hf
  rfl

theorem mem_unaryOffers (hg : g.Mirrored) {s t : Span} {parents : List (UInt16 × Score)}
    {nt : UInt16} {x : Score} : ⟨t, nt, x⟩ ∈ unaryOffers g s parents ↔
      t = s ∧ ∃ parent score, (parent, score) ∈ parents ∧
        ∃ rule, g.HasUnary parent nt rule ∧ x = score + rule := by
  unfold unaryOffers Grammar.HasUnary
  simp only [List.mem_flatMap, List.mem_map, OutsideOffer.mk.injEq, Prod.exists]
  constructor
  · rintro ⟨parent, score, hparent, child, rule, hrule, rfl, rfl, rfl⟩
    exact ⟨rfl, parent, score, hparent, rule, by rwa [hg.unary hrule], rfl⟩
  · rintro ⟨rfl, parent, score, hparent, rule, hrule, rfl⟩
    exact ⟨parent, score, hparent, _, rule, hrule, rfl, by simp, rfl⟩

theorem mem_besideOffers {siblings : SiblingIndex} {parent nt : UInt16} {score x : Score}
    {s t : Span} {beside : Cell} :
    ⟨t, nt, x⟩ ∈ besideOffers siblings parent score s beside ↔
      t = s ∧ ∃ sibling ∈ beside.toList, ∃ rule,
        (nt, rule) ∈ siblings.children parent sibling.nt ∧
          x = score + rule + sibling.inside := by
  unfold besideOffers
  simp only [List.mem_flatMap, List.mem_map, OutsideOffer.mk.injEq, Prod.exists]
  constructor
  · rintro ⟨sibling, hsibling, child, rule, hrule, rfl, rfl, rfl⟩
    exact ⟨rfl, sibling, hsibling, rule, hrule, rfl⟩
  · rintro ⟨rfl, sibling, hsibling, rule, hrule, rfl⟩
    exact ⟨sibling, hsibling, nt, rule, hrule, rfl, rfl, rfl⟩

/-- Both parts of a split are passed on to only if they have entries, which takes nothing
from an entry that has a sibling. -/
theorem mem_midpointOffers {s t : Span} {parents : List (UInt16 × Score)} {midpoint nt : UInt16}
    {x : Score} (hnt : nt ∈ (chart.cell t).nonTerminals) :
    ⟨t, nt, x⟩ ∈ midpointOffers g chart s parents midpoint ↔
      ∃ parent score, (parent, score) ∈ parents ∧
        (⟨t, nt, x⟩ ∈ besideOffers g.leftChildren parent score ⟨s.start, midpoint⟩
            (chart.cell ⟨midpoint, s.stop⟩) ∨
          ⟨t, nt, x⟩ ∈ besideOffers g.rightChildren parent score ⟨midpoint, s.stop⟩
            (chart.cell ⟨s.start, midpoint⟩)) := by
  have hne {cell : Cell} {e : ChartEntry} (he : e ∈ cell.toList) : cell.isEmpty = false := by
    rw [Bool.eq_false_iff, ne_eq, Cell.isEmpty_iff]
    exact List.ne_nil_of_mem he
  obtain ⟨e, he, -⟩ := List.mem_map.1 hnt
  unfold midpointOffers
  dsimp only
  split_ifs with hempty
  · simp only [List.not_mem_nil, false_iff, not_exists, not_and]
    rintro parent score - (hmem | hmem)
    · obtain ⟨rfl, sibling, hsibling, -⟩ := mem_besideOffers.1 hmem
      rw [hne he, hne hsibling] at hempty
      cases hempty
    · obtain ⟨rfl, sibling, hsibling, -⟩ := mem_besideOffers.1 hmem
      rw [hne he, hne hsibling] at hempty
      cases hempty
  · simp only [List.mem_flatMap, List.mem_append, Prod.exists]

/-- All offers of a cell are over spans strictly inside its own. -/
theorem span_of_mem_offersDown {s : Span} (hs : s.within chart.size = true)
    {parents : List (UInt16 × Score)} {f : OutsideOffer} (hf : f ∈ offersDown g chart s parents) :
    f.span.within chart.size = true ∧ f.span.length < s.length := by
  obtain ⟨m, hm, hf⟩ := List.mem_flatMap.1 hf
  rw [Span.mem_midpoints hs] at hm
  rw [Span.within_iff] at hs
  unfold midpointOffers at hf
  dsimp only at hf
  split_ifs at hf
  · cases hf
  · obtain ⟨parent, -, hf⟩ := List.mem_flatMap.1 hf
    obtain ⟨span, nt, x⟩ := f
    rw [Span.within_iff]
    unfold Span.length
    rcases List.mem_append.1 hf with hf | hf
    · obtain ⟨rfl, -⟩ := mem_besideOffers.1 hf
      dsimp only
      omega
    · obtain ⟨rfl, -⟩ := mem_besideOffers.1 hf
      dsimp only
      omega

/-- The parents of a cell that have been reached, with their scores. -/
theorem Fits.mem_reached (ho : o.Fits chart) (hchart : chart.Ordered) {s : Span}
    (hs : s.within chart.size = true) {parent : UInt16} {score : Score} :
    (parent, score) ∈ (o.cell s).reached ↔
      parent ∈ (chart.cell s).nonTerminals ∧ score = o.get s parent ∧ score ≠ Score.absent := by
  rw [ho.get_eq hs]
  exact (ho.cell s hs).mem_reached (hchart s hs)

/-- What a cell offers down is what it passes down, as far as it has been reached. -/
theorem mem_offersDown (hg : g.Mirrored) (ho : o.Fits chart) (hchart : chart.Ordered)
    {s t : Span} (hs : s.within chart.size = true) (ht : t.within chart.size = true)
    {nt : UInt16} (hnt : nt ∈ (chart.cell t).nonTerminals) :
    (∀ x, ⟨t, nt, x⟩ ∈ offersDown g chart s (o.cell s).reached → Passes g chart o s t nt x) ∧
      ∀ x, Passes g chart o s t nt x → Score.absent < x →
        ⟨t, nt, x⟩ ∈ offersDown g chart s (o.cell s).reached := by
  obtain ⟨start, stop⟩ := t
  constructor
  · intro x hx
    obtain ⟨m, hm, hx⟩ := List.mem_flatMap.1 hx
    rw [Span.mem_midpoints hs] at hm
    obtain ⟨parent, score, hmem, hx⟩ := (mem_midpointOffers hnt).1 hx
    obtain ⟨hparent, rfl, -⟩ := (ho.mem_reached hchart hs).1 hmem
    rcases hx with hx | hx
    · obtain ⟨heq, right, hright, rule, hrule, rfl⟩ := mem_besideOffers.1 hx
      cases heq
      exact Or.inl ⟨rfl, UInt16.lt_iff_toNat_lt.2 hm.2, parent, hparent, right, hright, rule,
        hg.left.1 hrule, rfl⟩
    · obtain ⟨heq, left, hleft, rule, hrule, rfl⟩ := mem_besideOffers.1 hx
      cases heq
      exact Or.inr ⟨UInt16.lt_iff_toNat_lt.2 hm.1, rfl, parent, hparent, left, hleft, rule,
        hg.right.1 hrule, rfl⟩
  · rintro x hx hpresent
    rw [Span.within_iff] at ht
    rcases hx with ⟨rfl, hlt, parent, hparent, right, hright, rule, hrule, rfl⟩ |
      ⟨hlt, rfl, parent, hparent, left, hleft, rule, hrule, rfl⟩
    · have hscore := (Score.present_of_add (Score.present_of_add hpresent).1).1
      refine List.mem_flatMap.2 ⟨stop, ?_, (mem_midpointOffers hnt).2 ⟨parent, _,
        (ho.mem_reached hchart hs).2 ⟨hparent, rfl, (Score.absent_lt_iff.1 hscore).2⟩, Or.inl ?_⟩⟩
      · exact (Span.mem_midpoints hs).2 ⟨ht.1, UInt16.lt_iff_toNat_lt.1 hlt⟩
      · exact mem_besideOffers.2 ⟨rfl, right, hright, rule, hg.left.2 hrule, rfl⟩
    · have hscore := (Score.present_of_add (Score.present_of_add hpresent).1).1
      refine List.mem_flatMap.2 ⟨start, ?_, (mem_midpointOffers hnt).2 ⟨parent, _,
        (ho.mem_reached hchart hs).2 ⟨hparent, rfl, (Score.absent_lt_iff.1 hscore).2⟩, Or.inr ?_⟩⟩
      · exact (Span.mem_midpoints hs).2 ⟨UInt16.lt_iff_toNat_lt.1 hlt, ht.1⟩
      · exact mem_besideOffers.2 ⟨rfl, left, hleft, rule, hg.right.2 hrule, rfl⟩

/-! ## Passing down -/

/-- A score that arrives from the entries over some of the longer spans. -/
def ArrivesFrom (g : Grammar) (chart : Chart) (done : List Span) (o : OutsideChart) (t : Span)
    (nt : UInt16) (x : Score) : Prop :=
  (t = chart.whole ∧ nt = g.start ∧ x = 0) ∨ ∃ s ∈ done, Passes g chart o s t nt x

/-- What holds when some spans have passed their scores down: nothing else can arrive at
these, and what has arrived at the others has come from these. -/
structure PassedDown (g : Grammar) (chart : Chart) (done : List Span)
    (arrived : Span → UInt16 → Score) (o : OutsideChart) : Prop where
  fits : o.Fits chart
  final : ∀ s ∈ done, ∀ nt ∈ (chart.cell s).nonTerminals,
    Score.IsMaximum (ArrivesFrom g chart done o s nt) (arrived s nt) ∧
      Score.IsMaximum (Raised g chart arrived s nt) (o.get s nt)
  pending : ∀ s, s.within chart.size = true → s ∉ done → ∀ nt ∈ (chart.cell s).nonTerminals,
    Score.IsMaximum (ArrivesFrom g chart done o s nt) (o.get s nt)

/-- What arrives depends only on the scores of the spans it comes from. -/
theorem arrivesFrom_congr {o' : OutsideChart} {done : List Span}
    (h : ∀ s ∈ done, ∀ nt, o'.get s nt = o.get s nt) (t : Span) (nt : UInt16) (x : Score) :
    ArrivesFrom g chart done o' t nt x ↔ ArrivesFrom g chart done o t nt x := by
  unfold ArrivesFrom Passes
  refine or_congr_right (exists_congr fun s => and_congr_right fun hs => ?_)
  simp only [h s hs]

theorem Passes.length_lt {s t : Span} (ht : t.within chart.size = true) {nt : UInt16} {x : Score}
    (h : Passes g chart o s t nt x) : t.length < s.length := by
  rw [Span.within_iff] at ht
  unfold Span.length
  rcases h with ⟨hstart, hstop, -⟩ | ⟨hstart, hstop, -⟩
  · rw [UInt16.lt_iff_toNat_lt] at hstop
    rw [hstart] at ht ⊢
    omega
  · rw [UInt16.lt_iff_toNat_lt] at hstart
    rw [hstop] at ht ⊢
    omega

theorem passes_congr (g : Grammar) (chart : Chart) {o' : OutsideChart} {s : Span}
    (h : ∀ nt, o'.get s nt = o.get s nt) (t : Span) (nt : UInt16) (x : Score) :
    Passes g chart o' s t nt x ↔ Passes g chart o s t nt x := by
  unfold Passes
  simp only [h]

theorem arrivesFrom_concat {done : List Span} {s t : Span} {nt : UInt16} {x : Score} :
    ArrivesFrom g chart (done ++ [s]) o t nt x ↔
      ArrivesFrom g chart done o t nt x ∨ Passes g chart o s t nt x := by
  unfold ArrivesFrom
  simp only [List.mem_append, List.mem_singleton, or_and_right, exists_or, exists_eq_left,
    or_assoc]

/-- When a cell is raised along its unary rules it gets the greatest of what it has and of
what they pass on. -/
theorem isMaximum_passUnaries (hg : g.Mirrored) (ho : o.Fits chart) (hchart : chart.Ordered)
    {s : Span} (hs : s.within chart.size = true) {nt : UInt16}
    (hnt : nt ∈ (chart.cell s).nonTerminals) (hnumber : (o.get s nt).isNaN = false) :
    Score.IsMaximum (Raised g chart o.get s nt) ((passUnaries g s o).get s nt) := by
  have hself : Score.IsMaximum (fun x => x = o.get s nt) (o.get s nt) :=
    ⟨hnumber, Or.inr rfl, by rintro y rfl hy; exact Score.le_self hy⟩
  have hoffers : ∀ f ∈ unaryOffers g s (o.cell s).reached, f.span.within chart.size = true :=
    fun f hf => (span_of_mem_unaryOffers hf).symm ▸ hs
  rw [passUnaries_eq]
  refine (ho.isMaximum_raiseAll hchart hoffers hs hnt hself).of_present ?_ ?_
  · rintro y (hy | hy)
    · exact Or.inl hy
    · obtain ⟨-, parent, score, hmem, rule, hrule, rfl⟩ := (mem_unaryOffers hg).1 hy
      obtain ⟨hparent, rfl, -⟩ := (ho.mem_reached hchart hs).1 hmem
      exact Or.inr ⟨parent, hparent, rule, hrule, rfl⟩
  · rintro y (hy | ⟨parent, hparent, rule, hrule, rfl⟩) hpresent
    · exact Or.inl hy
    · have hscore := (Score.absent_lt_iff.1 (Score.present_of_add hpresent).1).2
      exact Or.inr ((mem_unaryOffers hg).2
        ⟨rfl, parent, _, (ho.mem_reached hchart hs).2 ⟨hparent, rfl, hscore⟩, rule, hrule, rfl⟩)

/-- Raising a cell along its unary rules leaves the other cells as they are. -/
theorem passUnaries_keeps (g : Grammar) (ho : o.Fits chart) {s : Span}
    (hs : s.within chart.size = true) :
    (passUnaries g s o).Fits chart ∧ ∀ t, t.within chart.size = true → t ≠ s →
      ∀ nt, (passUnaries g s o).get t nt = o.get t nt := by
  have hoffers : ∀ f ∈ unaryOffers g s (o.cell s).reached, f.span.within chart.size = true :=
    fun f hf => (span_of_mem_unaryOffers hf).symm ▸ hs
  rw [passUnaries_eq]
  exact ⟨ho.raiseAll hoffers, fun t ht hne => ho.get_raiseAll_of_ne hoffers ht
    fun f hf heq => hne (heq.symm.trans (span_of_mem_unaryOffers hf))⟩

/-- After that, passing down leaves all cells as they are but those of shorter spans. -/
theorem passDown_keeps (g : Grammar) (ho : o.Fits chart) {s : Span}
    (hs : s.within chart.size = true) :
    (passDown g chart o s).Fits chart ∧ ∀ t, t.within chart.size = true → s.length ≤ t.length →
      ∀ nt, (passDown g chart o s).get t nt = (passUnaries g s o).get t nt := by
  have hraised := (passUnaries_keeps g ho hs).1
  rw [passDown_eq]
  refine ⟨hraised.raiseAll fun f hf => (span_of_mem_offersDown hs hf).1, fun t ht hlength =>
    hraised.get_raiseAll_of_ne (fun f hf => (span_of_mem_offersDown hs hf).1) ht fun f hf heq => ?_⟩
  have := (span_of_mem_offersDown hs hf).2
  rw [heq] at this
  omega

/-- In another cell, what a span passes down is added to what there is. -/
theorem isMaximum_passDown (hg : g.Mirrored) (ho : o.Fits chart) (hchart : chart.Ordered)
    {s t : Span} (hs : s.within chart.size = true) (ht : t.within chart.size = true)
    (hne : t ≠ s) {nt : UInt16} (hnt : nt ∈ (chart.cell t).nonTerminals)
    {candidates : Score → Prop} (hmax : Score.IsMaximum candidates (o.get t nt)) :
    Score.IsMaximum (fun x => candidates x ∨ Passes g chart (passUnaries g s o) s t nt x)
      ((passDown g chart o s).get t nt) := by
  obtain ⟨hraised, hother⟩ := passUnaries_keeps g ho hs
  obtain ⟨hoffered, hpassed⟩ := mem_offersDown hg hraised hchart hs ht hnt
  have hoffers : ∀ f ∈ offersDown g chart s ((passUnaries g s o).cell s).reached,
      f.span.within chart.size = true := fun f hf => (span_of_mem_offersDown hs hf).1
  rw [← hother t ht hne] at hmax
  rw [passDown_eq]
  refine (hraised.isMaximum_raiseAll hchart hoffers ht hnt hmax).of_present
    (fun x hx => hx.imp_right (hoffered x)) fun x hx hpresent => ?_
  exact hx.imp_right fun hx => hpassed x hx hpresent

/-- A span passes its scores down when all longer ones have: what has arrived there is all
that arrives, and it adds what it passes to what has arrived at the spans after it. -/
theorem PassedDown.passDown (hg : g.Mirrored) (hchart : chart.Ordered) {done : List Span}
    {arrived : Span → UInt16 → Score} (h : PassedDown g chart done arrived o) {s : Span}
    (hs : s.within chart.size = true) (hnew : s ∉ done)
    (hdone : ∀ t ∈ done, t.within chart.size = true ∧ s.length ≤ t.length) :
    PassedDown g chart (done ++ [s]) (fun t nt => if t = s then o.get s nt else arrived t nt)
      (passDown g chart o s) := by
  obtain ⟨-, hother⟩ := passUnaries_keeps g h.fits hs
  obtain ⟨hpassed, hlong⟩ := passDown_keeps g h.fits hs
  have hkept (t : Span) (ht : t ∈ done) (nt : UInt16) :
      (OutsideChart.passDown g chart o s).get t nt = o.get t nt := by
    rw [hlong t (hdone t ht).1 (hdone t ht).2]
    exact hother t (hdone t ht).1 (fun heq => hnew (heq ▸ ht)) nt
  -- nothing passes from `s` to itself or to a span before it
  have hbefore {t : Span} (ht : t.within chart.size = true) (hlength : s.length ≤ t.length)
      (nt : UInt16) (x : Score) :
      ArrivesFrom g chart (done ++ [s]) (OutsideChart.passDown g chart o s) t nt x ↔
        ArrivesFrom g chart done o t nt x := by
    rw [arrivesFrom_concat, arrivesFrom_congr hkept, or_iff_left]
    intro hpasses
    have := hpasses.length_lt ht
    omega
  refine ⟨hpassed, fun t ht nt hnt => ?_, fun t ht hpending nt hnt => ?_⟩
  · rcases List.mem_append.1 ht with ht | ht
    · have hne : t ≠ s := fun heq => hnew (heq ▸ ht)
      obtain ⟨harrived, hscore⟩ := h.final t ht nt hnt
      rw [hkept t ht]
      refine ⟨?_, hscore.congr fun x => ?_⟩
      · rw [if_neg hne]
        exact harrived.congr fun x => (hbefore (hdone t ht).1 (hdone t ht).2 nt x).symm
      · unfold Raised
        simp only [if_neg hne]
    · obtain rfl := List.mem_singleton.1 ht
      have harrived := h.pending t hs hnew nt hnt
      rw [hlong t hs (Nat.le_refl _)]
      refine ⟨?_, (isMaximum_passUnaries hg h.fits hchart hs hnt harrived.isNaN).congr fun x => ?_⟩
      · rw [if_pos rfl]
        exact harrived.congr fun x => (hbefore hs (Nat.le_refl _) nt x).symm
      · unfold Raised
        simp only [if_pos]
  · rw [List.mem_append, List.mem_singleton, not_or] at hpending
    refine (isMaximum_passDown hg h.fits hchart hs ht hpending.2 hnt
      (h.pending t ht hpending.1 nt hnt)).congr fun x => ?_
    rw [arrivesFrom_concat, arrivesFrom_congr hkept,
      passes_congr g chart (hlong s hs (Nat.le_refl _))]

theorem PassedDown.foldl (hg : g.Mirrored) (hchart : chart.Ordered) {rest done : List Span}
    {arrived : Span → UInt16 → Score} (h : PassedDown g chart done arrived o)
    (hwithin : ∀ s ∈ done ++ rest, s.within chart.size = true)
    (horder : (done ++ rest).Pairwise fun s t => t.length ≤ s.length ∧ s ≠ t) :
    ∃ arrived, PassedDown g chart (done ++ rest) arrived
      (rest.foldl (OutsideChart.passDown g chart) o) := by
  induction rest generalizing done arrived o with
  | nil => exact ⟨arrived, by rwa [List.append_nil]⟩
  | cons s rest ih =>
    have hbefore := (List.pairwise_append.1 horder).2.2
    have hs : s.within chart.size = true := hwithin s (by simp)
    have hnext := h.passDown hg hchart hs
      (fun hmem => (hbefore s hmem s List.mem_cons_self).2 rfl)
      fun t ht => ⟨hwithin t (List.mem_append_left _ ht), (hbefore t ht s List.mem_cons_self).1⟩
    rw [List.append_cons] at hwithin horder ⊢
    exact ih hnext hwithin horder

/-- Before any span has passed its scores down, only the start symbol over the whole sentence
has one. -/
theorem passedDown_nil (g : Grammar) (hchart : chart.Ordered)
    (hwhole : chart.whole.within chart.size = true) :
    PassedDown g chart [] (fun _ _ => Score.absent)
      ((unreached chart).raise chart.whole g.start 0) := by
  have hoffers : ∀ f ∈ [(⟨chart.whole, g.start, 0⟩ : OutsideOffer)],
      f.span.within chart.size = true := by simpa using hwhole
  refine ⟨(fits_unreached chart).raise hwhole g.start 0, by simp, fun s hs _ nt hnt => ?_⟩
  have habsent : Score.IsMaximum (fun _ => False) ((unreached chart).get s nt) := by
    rw [get_unreached hchart hs]
    exact Score.IsMaximum.none
  refine ((fits_unreached chart).isMaximum_raiseAll hchart hoffers hs hnt habsent).congr
    fun x => ?_
  simp [ArrivesFrom]

/-- When all spans have passed their scores down, all that arrives has arrived. -/
theorem exists_passedDown (hg : g.Mirrored) (hchart : chart.Ordered) (hsize : chart.size ≤ 65535) :
    ∃ arrived, PassedDown g chart (spansDown chart.size) arrived (compute g chart) := by
  unfold compute
  dsimp only
  split_ifs with hempty
  · rw [hempty]
    refine ⟨fun _ _ => Score.absent, fits_unreached chart, fun s hs => ?_, fun s hs => ?_⟩
    · cases hs
    · rw [Span.within_iff] at hs
      omega
  · have hwhole : chart.whole.within chart.size = true := by
      rw [Span.within_iff, Chart.whole, UInt16.toNat_ofNat', Nat.mod_eq_of_lt (by omega)]
      exact ⟨Nat.pos_of_ne_zero hempty, Nat.le_refl _⟩
    have hfold := (passedDown_nil g hchart hwhole).foldl hg hchart
      (fun s hs => (Span.mem_spansDown hsize).1 hs) (Span.pairwise_spansDown hsize)
    rw [List.nil_append] at hfold
    exact hfold

/-- The outside scores of a chart, with what has arrived at each entry from longer spans. -/
structure Solves (g : Grammar) (chart : Chart) (arrived : Span → UInt16 → Score)
    (o : OutsideChart) : Prop where
  arrives : ∀ s, s.within chart.size = true → ∀ nt ∈ (chart.cell s).nonTerminals,
    Score.IsMaximum (Arrives g chart o s nt) (arrived s nt)
  raised : ∀ s, s.within chart.size = true → ∀ nt ∈ (chart.cell s).nonTerminals,
    Score.IsMaximum (Raised g chart arrived s nt) (o.get s nt)

theorem PassedDown.solves (hsize : chart.size ≤ 65535) {arrived : Span → UInt16 → Score}
    (h : PassedDown g chart (spansDown chart.size) arrived o) : Solves g chart arrived o := by
  constructor
  · intro s hs nt hnt
    refine (h.final s ((Span.mem_spansDown hsize).2 hs) nt hnt).1.congr fun x => ?_
    unfold ArrivesFrom Arrives
    simp only [Span.mem_spansDown hsize]
  · intro s hs nt hnt
    exact (h.final s ((Span.mem_spansDown hsize).2 hs) nt hnt).2

/-- Outside scores solve their recursion. What arrives at an entry is the greatest of the
scores that entries over longer spans pass to it, beside a right child or a left one, and of
zero for the start symbol over the whole sentence. Its outside score is the greatest of what
arrives and of what one unary rule adds to what arrives at an entry of the same cell. Where
there is no entry, or no such span, there is no score. No score of the chart or the grammar
has to be a number, but what is none is passed over. -/
theorem compute_isMaximum {source : GrammarSource} {kind : PackingKind}
    (hcompile : Grammar.compile source kind = .ok g) (hchart : chart.Ordered)
    (hsize : chart.size ≤ 65535) :
    (∃ arrived : Span → UInt16 → Score, ∀ s, s.within chart.size = true →
      ∀ nt ∈ (chart.cell s).nonTerminals,
        Score.IsMaximum (Arrives g chart (compute g chart) s nt) (arrived s nt) ∧
          Score.IsMaximum (Raised g chart arrived s nt) ((compute g chart).get s nt)) ∧
      ∀ s nt, ¬(s.within chart.size = true ∧ nt ∈ (chart.cell s).nonTerminals) →
        (compute g chart).get s nt = Score.absent := by
  have hg := Grammar.mirrored_of_compile hcompile
  obtain ⟨arrived, hpassed⟩ := exists_passedDown hg hchart hsize
  have hsolves := hpassed.solves hsize
  exact ⟨⟨arrived, fun s hs nt hnt => ⟨hsolves.arrives s hs nt hnt, hsolves.raised s hs nt hnt⟩⟩,
    fun s nt => hpassed.fits.get_eq_absent hchart⟩

/-- Two words of the sample grammar, a unary rule over each, and a binary rule over both. -/
def pairChart : Chart :=
  let word : Cell := ⟨#[⟨0, 0, .lexical 0, 0⟩, ⟨1, 0, .unary 0, 1⟩]⟩
  ⟨2, #[word, ⟨#[⟨1, 0, .binary 0, 1⟩]⟩, word]⟩

theorem ordered_pairChart : pairChart.Ordered :=
  Chart.ordered_of_mem (by simp [pairChart, Cell.Ordered, Cell.toList])

theorem compute_isMaximum_pairChart : ∃ g,
    Grammar.compile (.sample true) .shift = .ok g ∧ pairChart.Ordered ∧ pairChart.size ≤ 65535 ∧
      (∃ arrived : Span → UInt16 → Score, ∀ s, s.within pairChart.size = true →
        ∀ nt ∈ (pairChart.cell s).nonTerminals,
          Score.IsMaximum (Arrives g pairChart (compute g pairChart) s nt) (arrived s nt) ∧
            Score.IsMaximum (Raised g pairChart arrived s nt)
              ((compute g pairChart).get s nt)) ∧
        ∀ s nt, ¬(s.within pairChart.size = true ∧ nt ∈ (pairChart.cell s).nonTerminals) →
          (compute g pairChart).get s nt = Score.absent := by
  obtain ⟨g, hcompile, -⟩ := Grammar.exists_sample true
  have hsize : pairChart.size ≤ 65535 := by simp [pairChart]
  exact ⟨g, hcompile, ordered_pairChart, hsize,
    compute_isMaximum hcompile ordered_pairChart hsize⟩

end OutsideChart
end ChartParsing

import ChartParsing.Proofs.Derivation.Closed
import ChartParsing.Proofs.Derivation.ExactSums
import ChartParsing.Proofs.Grammar.Views
import ChartParsing.Proofs.Outside.Recursion

/-!
# Agreement of inside and outside scores

Inside and outside scores are found in two passes. Where neither loses anything to rounding,
the two scores of a constituent of the best tree come to no less than the score of that tree:
what is outside of it there has been passed down to it. They come to no more, for any entry, if
no unary rule between two entries of a cell gives its parent more than it has. This is a
condition because the outside pass follows such rules wherever they lead, also to a child that
is unary itself and from a parent that was held back, and the inside pass does not.
-/

namespace ChartParsing

open Relation

namespace Chart

variable {g : Grammar} {words : Array UInt32} {isOpen : Span → Prop} {chart : Chart} {s : Span}
  {nt : UInt16} {e : ChartEntry}

theorem Exhaustive.mem_nonTerminals (h : Exhaustive g words isOpen chart)
    (hs : s.within chart.size = true) :
    nt ∈ (chart.cell s).nonTerminals ↔ ∃ e, (chart.cell s).get? nt = some e := by
  unfold Cell.nonTerminals
  rw [List.mem_map]
  simp only [(h.ordered s hs).get?_eq_some]

end Chart

namespace OutsideChart

variable {g : Grammar} {words : Array UInt32} {isOpen : Span → Prop} {chart : Chart}
  {arrived : Span → UInt16 → Score} {o : OutsideChart} {s t : Span} {nt : UInt16}
  {e top : ChartEntry} {x : Score}

/-- The sums that are made to pass outside scores from entries to entries are exact: those of
what has arrived at a parent and a unary rule, and those of the outside score of a parent, a
binary rule and the inside score of the other child. -/
structure SumsExact (g : Grammar) (chart : Chart) (o : OutsideChart) : Prop where
  unary : ∀ s, s.within chart.size = true → ∀ parent ∈ (chart.cell s).nonTerminals,
    ∀ child ∈ (chart.cell s).nonTerminals, ∀ rule x, g.HasUnary parent child rule →
      Score.IsMaximum (Arrives g chart o s parent) x → Score.Exact x rule
  binary : ∀ s, s.within chart.size = true → ∀ parent ∈ (chart.cell s).nonTerminals,
    ∀ m ∈ s.midpoints, ∀ l ∈ (chart.cell ⟨s.start, m⟩).toList,
      ∀ r ∈ (chart.cell ⟨m, s.stop⟩).toList, ∀ rule, g.HasBinary parent l.nt r.nt rule →
        Score.Exact (o.get s parent) rule ∧ Score.Exact (o.get s parent + rule) r.inside ∧
          Score.Exact (o.get s parent + rule) l.inside

/-! ## What is passed on -/

/-- What is passed to an entry comes from a parent and goes past the other child. -/
theorem Passes.exists_entries (h : Chart.Exhaustive g words isOpen chart)
    (hs : s.within chart.size = true) (ht : t.within chart.size = true)
    (he : (chart.cell t).get? nt = some e) (hpasses : Passes g chart o s t nt x) :
    ∃ p m l r rule, (chart.cell s).get? p.nt = some p ∧ m ∈ s.midpoints ∧
      (chart.cell ⟨s.start, m⟩).get? l.nt = some l ∧ (chart.cell ⟨m, s.stop⟩).get? r.nt = some r ∧
      g.HasBinary p.nt l.nt r.nt rule ∧
      ((e = l ∧ x = o.get s p.nt + rule + r.inside) ∨
        (e = r ∧ x = o.get s p.nt + rule + l.inside)) := by
  obtain ⟨start, stop⟩ := t
  have hmem := (h.mem_toList ht).2 (by rwa [((h.ordered _ ht).get?_eq_some.1 he).2])
  obtain rfl := ((h.ordered _ ht).get?_eq_some.1 he).2
  rw [Span.within_iff] at ht
  dsimp only at ht
  rcases hpasses with ⟨hstart, hlt, parent, hparent, r, hr, rule, hrule, rfl⟩ |
    ⟨hlt, hstop, parent, hparent, l, hl, rule, hrule, rfl⟩
  · obtain ⟨p, hp⟩ := (h.mem_nonTerminals hs).1 hparent
    obtain rfl := ((h.ordered _ hs).get?_eq_some.1 hp).2
    dsimp only at hstart hlt hr
    subst hstart
    have hm : stop ∈ s.midpoints := (Span.mem_midpoints hs).2 ⟨ht.1, UInt16.lt_iff_toNat_lt.1 hlt⟩
    obtain ⟨-, hs₂, -⟩ := Span.inside_of_mem_midpoints hs hm
    exact ⟨p, stop, e, r, rule, hp, hm, he, (h.mem_toList hs₂).1 hr, hrule, Or.inl ⟨rfl, rfl⟩⟩
  · obtain ⟨p, hp⟩ := (h.mem_nonTerminals hs).1 hparent
    obtain rfl := ((h.ordered _ hs).get?_eq_some.1 hp).2
    dsimp only at hstop hlt hl
    subst hstop
    have hm : start ∈ s.midpoints := (Span.mem_midpoints hs).2 ⟨UInt16.lt_iff_toNat_lt.1 hlt, ht.1⟩
    obtain ⟨⟨hs₁, -⟩, -⟩ := Span.inside_of_mem_midpoints hs hm
    exact ⟨p, start, l, e, rule, hp, hm, (h.mem_toList hs₁).1 hl, he, hrule, Or.inr ⟨rfl, rfl⟩⟩

/-- An exhaustive chart of a sentence that has a parse, and its outside scores, where all sums
that were made are exact. -/
structure ExactParse (g : Grammar) (words : Array UInt32) (isOpen : Span → Prop) (chart : Chart)
    (top : ChartEntry) (arrived : Span → UInt16 → Score) (o : OutsideChart) : Prop where
  coherent : g.Coherent
  exhaustive : chart.Exhaustive g words isOpen
  inside : chart.InsideExact g words isOpen
  whole : chart.whole.within chart.size = true
  top : (chart.cell chart.whole).get? g.start = some top
  solves : Solves g chart arrived o
  outside : SumsExact g chart o

/-- What is passed to an entry is the sum of the outside score of a parent, a binary rule and
the inside score of the other child, and this rule and the children give the parent no more
than it has. -/
theorem ExactParse.units_of_passes (h : ExactParse g words isOpen chart top arrived o)
    (hs : s.within chart.size = true) (ht : t.within chart.size = true)
    (he : (chart.cell t).get? nt = some e) (hpasses : Passes g chart o s t nt x)
    (hpresent : Score.absent < x) : Score.IsFinite x ∧ ∃ p, (chart.cell s).get? p.nt = some p ∧
      Score.absent < o.get s p.nt ∧
      Score.units x + Score.units e.inside ≤ Score.units (o.get s p.nt) + Score.units p.inside := by
  obtain ⟨p, m, l, r, rule, hp, hm, hl, hr, hrule, hcase⟩ :=
    hpasses.exists_entries h.exhaustive hs ht he
  obtain ⟨⟨hs₁, -⟩, hs₂, -⟩ := Span.inside_of_mem_midpoints hs hm
  obtain ⟨hexact, hright, hleft⟩ := h.outside.binary s hs p.nt
    ((h.exhaustive.mem_nonTerminals hs).2 ⟨p, hp⟩) m hm l ((h.exhaustive.mem_toList hs₁).2 hl) r
    ((h.exhaustive.mem_toList hs₂).2 hr) rule hrule
  have hbound {y : Score} (hother : Score.Exact (o.get s p.nt + rule) y)
      (hx : x = o.get s p.nt + rule + y) : Score.IsFinite x ∧ Score.absent < o.get s p.nt ∧
        Score.absent < rule ∧
        Score.units x = Score.units (o.get s p.nt) + Score.units rule + Score.units y := by
    rw [hx] at hpresent ⊢
    obtain ⟨hfirst, hy⟩ := Score.present_of_add hpresent
    obtain ⟨hscore, hrule'⟩ := Score.present_of_add hfirst
    obtain ⟨hfinite, hsum⟩ := hexact.add_add hother hscore hrule' hy
    exact ⟨hfinite, hscore, hrule', hsum⟩
  rcases hcase with ⟨rfl, hx⟩ | ⟨rfl, hx⟩
  · obtain ⟨hfinite, hscore, hrule', hsum⟩ := hbound hright hx
    have hle := h.inside.le_binary h.coherent h.exhaustive hs hm hrule hrule' hl hr hp
    exact ⟨hfinite, p, hp, hscore, by omega⟩
  · obtain ⟨hfinite, hscore, hrule', hsum⟩ := hbound hleft hx
    have hle := h.inside.le_binary h.coherent h.exhaustive hs hm hrule hrule' hl hr hp
    exact ⟨hfinite, p, hp, hscore, by omega⟩

/-- What has arrived at an entry, if anything has, is nothing outside the sentence, or has been
passed to it. -/
theorem ExactParse.arrived_cases (h : ExactParse g words isOpen chart top arrived o)
    (ht : t.within chart.size = true) (he : (chart.cell t).get? nt = some e)
    (hpresent : Score.absent < arrived t nt) :
    (e = top ∧ arrived t nt = 0) ∨
      ∃ s, s.within chart.size = true ∧ t.length < s.length ∧
        Passes g chart o s t nt (arrived t nt) := by
  have hnt := (h.exhaustive.mem_nonTerminals ht).2 ⟨e, he⟩
  rcases (h.solves.arrives t ht nt hnt).attained with habsent | ⟨rfl, rfl, hzero⟩ | ⟨s, hs, hpasses⟩
  · exact absurd habsent (Score.absent_lt_iff.1 hpresent).2
  · have htop := h.top
    rw [he] at htop
    cases htop
    exact Or.inl ⟨rfl, hzero⟩
  · exact Or.inr ⟨s, hs, hpasses.length_lt ht, hpasses⟩

/-- The outside score of an entry, if it has one, is what has arrived at it, or what a unary
rule adds to what has arrived at another entry of its cell. -/
theorem ExactParse.get_cases (h : ExactParse g words isOpen chart top arrived o)
    (hs : s.within chart.size = true) (he : (chart.cell s).get? nt = some e)
    (hpresent : Score.absent < o.get s nt) :
    o.get s nt = arrived s nt ∨ ∃ p rule, (chart.cell s).get? p.nt = some p ∧
      g.HasUnary p.nt nt rule ∧ Score.absent < rule ∧ Score.absent < arrived s p.nt ∧
      Score.IsFinite (o.get s nt) ∧
      Score.units (o.get s nt) = Score.units (arrived s p.nt) + Score.units rule := by
  have hnt := (h.exhaustive.mem_nonTerminals hs).2 ⟨e, he⟩
  rcases (h.solves.raised s hs nt hnt).attained with
    habsent | hself | ⟨parent, hparent, rule, hrule, hx⟩
  · exact absurd habsent (Score.absent_lt_iff.1 hpresent).2
  · exact Or.inl hself
  · obtain ⟨p, hp⟩ := (h.exhaustive.mem_nonTerminals hs).1 hparent
    obtain rfl := ((h.exhaustive.ordered s hs).get?_eq_some.1 hp).2
    rw [hx] at hpresent ⊢
    obtain ⟨harrived, hrule'⟩ := Score.present_of_add hpresent
    obtain ⟨hfinite, hsum⟩ := h.outside.unary s hs p.nt hparent nt hnt rule _ hrule
      (h.solves.arrives s hs p.nt hparent) harrived hrule'
    exact Or.inr ⟨p, rule, hp, hrule, hrule', harrived, hfinite, hsum⟩

theorem ExactParse.finite_arrived (h : ExactParse g words isOpen chart top arrived o)
    (ht : t.within chart.size = true) (he : (chart.cell t).get? nt = some e)
    (hpresent : Score.absent < arrived t nt) : Score.IsFinite (arrived t nt) := by
  rcases h.arrived_cases ht he hpresent with ⟨-, hzero⟩ | ⟨s, hs, -, hpasses⟩
  · rw [hzero]
    exact Score.isFinite_zero
  · exact (h.units_of_passes hs ht he hpasses hpresent).1

theorem ExactParse.finite_get (h : ExactParse g words isOpen chart top arrived o)
    (hs : s.within chart.size = true) (he : (chart.cell s).get? nt = some e)
    (hpresent : Score.absent < o.get s nt) : Score.IsFinite (o.get s nt) := by
  rcases h.get_cases hs he hpresent with hself | ⟨p, rule, -, -, -, -, hfinite, -⟩
  · rw [hself] at hpresent ⊢
    exact h.finite_arrived hs he hpresent
  · exact hfinite

/-! ## No entry is better than the best tree -/

/-- Where unary rules give no parent more than it has, what has arrived at an entry and its
inside score come to no more than the best score, and so do its outside and inside scores. -/
theorem ExactParse.units_le (h : ExactParse g words isOpen chart top arrived o)
    (hsaturated : chart.Saturated g) (hs : s.within chart.size = true)
    (he : (chart.cell s).get? nt = some e) :
    (Score.absent < arrived s nt →
      Score.units (arrived s nt) + Score.units e.inside ≤ Score.units top.inside) ∧
    (Score.absent < o.get s nt →
      Score.units (o.get s nt) + Score.units e.inside ≤ Score.units top.inside) := by
  induction s, hs using Span.induction_longer generalizing nt e with
  | step s hs ih =>
    have harrived {nt : UInt16} {e : ChartEntry} (he : (chart.cell s).get? nt = some e)
        (hpresent : Score.absent < arrived s nt) :
        Score.units (arrived s nt) + Score.units e.inside ≤ Score.units top.inside := by
      rcases h.arrived_cases hs he hpresent with ⟨rfl, hzero⟩ | ⟨u, hu, hlonger, hpasses⟩
      · rw [hzero, Score.units_zero, Int.zero_add]
      · obtain ⟨-, p, hp, hget, hle⟩ := h.units_of_passes hu hs he hpasses hpresent
        have hparent := (ih u hu hlonger hp).2 hget
        omega
    refine ⟨harrived he, fun hpresent => ?_⟩
    rcases h.get_cases hs he hpresent with
      hself | ⟨p, rule, hp, hrule, hrule', hget, -, hsum⟩
    · rw [hself] at hpresent ⊢
      exact harrived he hpresent
    · have hparent := harrived hp hget
      obtain ⟨hmem, rfl⟩ := (h.exhaustive.ordered s hs).get?_eq_some.1 he
      have hle := hsaturated s hs p ((h.exhaustive.mem_toList hs).2 hp) e hmem rule hrule hrule'
      omega

/-! ## The constituents of the best tree -/

/-- The outside and the inside score of an entry come to no less than the best score. If it is
unary, so do what has arrived at it and its inside score. -/
structure OnBest (top : ChartEntry) (arrived : Span → UInt16 → Score) (o : OutsideChart)
    (s : Span) (e : ChartEntry) : Prop where
  finite : Score.IsFinite (o.get s e.nt)
  get : Score.units top.inside ≤ Score.units (o.get s e.nt) + Score.units e.inside
  present : e.children.IsUnary → Score.absent < arrived s e.nt
  arrived : e.children.IsUnary →
    Score.units top.inside ≤ Score.units (arrived s e.nt) + Score.units e.inside

/-- It is so if something arrives at the entry that comes to no less. -/
theorem ExactParse.onBest_of_arrives (h : ExactParse g words isOpen chart top arrived o)
    (hs : s.within chart.size = true) (he : (chart.cell s).get? e.nt = some e)
    (harrives : Arrives g chart o s e.nt x) (hfinite : Score.IsFinite x)
    (hle : Score.units top.inside ≤ Score.units x + Score.units e.inside) :
    OnBest top arrived o s e := by
  have hnt := (h.exhaustive.mem_nonTerminals hs).2 ⟨e, he⟩
  have hmax := h.solves.arrives s hs e.nt hnt
  have harrived := hmax.le x harrives (Score.isNaN_of_present hfinite.present)
  have hget := (h.solves.raised s hs e.nt hnt).le (arrived s e.nt) (Or.inl rfl) hmax.isNaN
  obtain ⟨-, -, hunits⟩ := Score.le_iff.1 harrived
  obtain ⟨-, -, hunits'⟩ := Score.le_iff.1 hget
  have hpresent := Score.lt_of_lt_of_le hfinite.present harrived
  exact ⟨h.finite_get hs he (Score.lt_of_lt_of_le hpresent hget), by omega, fun _ => hpresent,
    fun _ => by omega⟩

/-- The entry of the whole sentence is the best. -/
theorem ExactParse.onBest_top (h : ExactParse g words isOpen chart top arrived o) :
    OnBest top arrived o chart.whole top := by
  obtain ⟨-, hnt⟩ := (h.exhaustive.ordered _ h.whole).get?_eq_some.1 h.top
  refine h.onBest_of_arrives h.whole (hnt ▸ h.top) (Or.inl ⟨rfl, hnt, rfl⟩) Score.isFinite_zero ?_
  rw [Score.units_zero, Int.zero_add]

/-- The parts of a binary entry come to no less if the entry does. -/
theorem ExactParse.onBest_parts (h : ExactParse g words isOpen chart top arrived o)
    (hs : s.within chart.size = true) (he : (chart.cell s).get? e.nt = some e)
    (hbest : OnBest top arrived o s e) {key : UInt32} (hkey : e.children = .binary key) :
    ∃ l r, g.packing.unpack key = some (l.nt, r.nt) ∧
      ((⟨s.start, e.midpoint⟩ : Span).within chart.size = true ∧
        (chart.cell ⟨s.start, e.midpoint⟩).get? l.nt = some l ∧
        OnBest top arrived o ⟨s.start, e.midpoint⟩ l) ∧
      (⟨e.midpoint, s.stop⟩ : Span).within chart.size = true ∧
        (chart.cell ⟨e.midpoint, s.stop⟩).get? r.nt = some r ∧
        OnBest top arrived o ⟨e.midpoint, s.stop⟩ r := by
  obtain ⟨hm, l, hl, r, hr, rule, hunpack, hrule, hrule', hsum⟩ :=
    h.inside.binary_entry h.coherent h.exhaustive hs he hkey
  obtain ⟨⟨hs₁, -⟩, hs₂, -⟩ := Span.inside_of_mem_midpoints hs hm
  have hparent := (h.exhaustive.mem_nonTerminals hs).2 ⟨e, he⟩
  have hl' := (h.exhaustive.mem_toList hs₁).1 hl
  have hr' := (h.exhaustive.mem_toList hs₂).1 hr
  obtain ⟨hexact, hright, hleft⟩ :=
    h.outside.binary s hs e.nt hparent e.midpoint hm l hl r hr rule hrule
  obtain ⟨hfiniteRight, hsumRight⟩ := hexact.add_add hright hbest.finite.present hrule'
    (h.exhaustive.present h.coherent hs₂ hr')
  obtain ⟨hfiniteLeft, hsumLeft⟩ := hexact.add_add hleft hbest.finite.present hrule'
    (h.exhaustive.present h.coherent hs₁ hl')
  have hget := hbest.get
  rw [Span.mem_midpoints hs, ← UInt16.lt_iff_toNat_lt, ← UInt16.lt_iff_toNat_lt] at hm
  refine ⟨l, r, hunpack, ⟨hs₁, hl', h.onBest_of_arrives hs₁ hl' (Or.inr ⟨s, hs, Or.inl ⟨rfl, hm.2,
    e.nt, hparent, r, hr, rule, hrule, rfl⟩⟩) hfiniteRight ?_⟩, hs₂, hr', h.onBest_of_arrives hs₂
    hr' (Or.inr ⟨s, hs, Or.inr ⟨hm.1, rfl, e.nt, hparent, l, hl, rule, hrule, rfl⟩⟩) hfiniteLeft ?_⟩
  · omega
  · omega

/-- The child of a unary entry comes to no less if the entry does. -/
theorem ExactParse.onBest_child (h : ExactParse g words isOpen chart top arrived o)
    (hs : s.within chart.size = true) (he : (chart.cell s).get? e.nt = some e)
    (hbest : OnBest top arrived o s e) {child : UInt16} (hchild : e.children = .unary child) :
    ∃ c, (chart.cell s).get? child = some c ∧ OnBest top arrived o s c := by
  obtain ⟨c, rule, hc, hplain, hrule, hrule', hsum⟩ :=
    h.inside.unary_entry h.coherent h.exhaustive hs he hchild
  obtain rfl := ((h.exhaustive.ordered s hs).get?_eq_some.1 hc).2
  have hunary : e.children.IsUnary := by
    rw [hchild]
    trivial
  have hparent := (h.exhaustive.mem_nonTerminals hs).2 ⟨e, he⟩
  have hnt := (h.exhaustive.mem_nonTerminals hs).2 ⟨c, hc⟩
  obtain ⟨hfinite, hpassed⟩ := h.outside.unary s hs e.nt hparent c.nt hnt rule _ hrule
    (h.solves.arrives s hs e.nt hparent) (hbest.present hunary) hrule'
  have hget := (h.solves.raised s hs c.nt hnt).le _ (Or.inr ⟨e.nt, hparent, rule, hrule, rfl⟩)
    (Score.isNaN_of_present hfinite.present)
  have harrived := hbest.arrived hunary
  obtain ⟨-, -, hunits⟩ := Score.le_iff.1 hget
  have hpresent := Score.lt_of_lt_of_le hfinite.present hget
  exact ⟨c, hc, h.finite_get hs hc hpresent, by omega, fun h => absurd h hplain,
    fun h => absurd h hplain⟩

/-- All entries that pointers lead to from that of the whole sentence come to no less. -/
theorem ExactParse.onBest_of_leads (h : ExactParse g words isOpen chart top arrived o)
    {place : Span × UInt16}
    (hreach : ReflTransGen (Chart.Leads g chart) (chart.whole, g.start) place) :
    place.1.within chart.size = true ∧ ∃ e, (chart.cell place.1).get? place.2 = some e ∧
      OnBest top arrived o place.1 e := by
  induction hreach with
  | refl => exact ⟨h.whole, top, h.top, h.onBest_top⟩
  | tail _ hleads ih =>
    obtain ⟨hs, e, he, hbest⟩ := ih
    cases hleads with
    | @unary s nt e' child he' hchild =>
      obtain rfl : e' = e := Option.some.inj (he'.symm.trans he)
      obtain rfl := ((h.exhaustive.ordered s hs).get?_eq_some.1 he).2
      exact ⟨hs, h.onBest_child hs he hbest hchild⟩
    | @left s nt e' key l r he' hkey hunpack =>
      obtain rfl : e' = e := Option.some.inj (he'.symm.trans he)
      obtain rfl := ((h.exhaustive.ordered s hs).get?_eq_some.1 he).2
      obtain ⟨l', r', hunpack', ⟨hs₁, hl, hbest₁⟩, -⟩ := h.onBest_parts hs he hbest hkey
      rw [hunpack] at hunpack'
      cases hunpack'
      exact ⟨hs₁, l', hl, hbest₁⟩
    | @right s nt e' key l r he' hkey hunpack =>
      obtain rfl : e' = e := Option.some.inj (he'.symm.trans he)
      obtain rfl := ((h.exhaustive.ordered s hs).get?_eq_some.1 he).2
      obtain ⟨l', r', hunpack', -, hs₂, hr, hbest₂⟩ := h.onBest_parts hs he hbest hkey
      rw [hunpack] at hunpack'
      cases hunpack'
      exact ⟨hs₂, r', hr, hbest₂⟩

/-! ## Rules that have probability one -/

section Certain

variable (hg : g.Coherent) (hcertain : g.Certain) (h : chart.Exhaustive g words isOpen)

include hg hcertain h

/-- What arrives is zero, if anything does and outside scores over longer spans are. -/
theorem Arrives.absent_or_zero (ht : t.within chart.size = true)
    (he : (chart.cell t).get? nt = some e)
    (hlonger : ∀ s, s.within chart.size = true → t.length < s.length →
      ∀ parent ∈ (chart.cell s).nonTerminals,
        o.get s parent = Score.absent ∨ o.get s parent = 0)
    (harrives : Arrives g chart o t nt x) : x = Score.absent ∨ x = 0 := by
  rcases harrives with ⟨-, -, hzero⟩ | ⟨s, hs, hpasses⟩
  · exact Or.inr hzero
  · obtain ⟨p, m, l, r, rule, hp, hm, hl, hr, hrule, hcase⟩ := hpasses.exists_entries h hs ht he
    obtain ⟨⟨hs₁, -⟩, hs₂, -⟩ := Span.inside_of_mem_midpoints hs hm
    have hget := hlonger s hs (hpasses.length_lt ht) p.nt ((h.mem_nonTerminals hs).2 ⟨p, hp⟩)
    have hleft := h.inside_of_certain hg hcertain hs₁ l ((h.mem_toList hs₁).2 hl)
    have hright := h.inside_of_certain hg hcertain hs₂ r ((h.mem_toList hs₂).2 hr)
    have hx : x = o.get s p.nt + 0 + 0 := by
      rw [hcertain.binary hrule, hleft, hright] at hcase
      exact hcase.elim And.right And.right
    rw [hx, Score.add_zero_of_absent_or_zero hget, Score.add_zero_of_absent_or_zero hget]
    exact hget

/-- All outside scores are zero, where there are any. -/
theorem Solves.absent_or_zero (hsolves : Solves g chart arrived o)
    (hs : s.within chart.size = true) (hnt : nt ∈ (chart.cell s).nonTerminals) :
    o.get s nt = Score.absent ∨ o.get s nt = 0 := by
  induction s, hs using Span.induction_longer generalizing nt with
  | step s hs ih =>
    have harrived {nt : UInt16} (hnt : nt ∈ (chart.cell s).nonTerminals) :
        arrived s nt = Score.absent ∨ arrived s nt = 0 := by
      obtain ⟨e, he⟩ := (h.mem_nonTerminals hs).1 hnt
      exact (hsolves.arrives s hs nt hnt).attained.elim Or.inl fun harrives =>
        harrives.absent_or_zero hg hcertain h hs he fun u hu hlonger parent hparent =>
          ih u hu hlonger hparent
    rcases (hsolves.raised s hs nt hnt).attained with
      habsent | hself | ⟨parent, hparent, rule, hrule, hx⟩
    · exact Or.inl habsent
    · rw [hself]
      exact harrived hnt
    · rw [hx, hcertain.unary hrule, Score.add_zero_of_absent_or_zero (harrived hparent)]
      exact harrived hparent

/-- So all sums that pass them on are exact. -/
theorem Solves.sumsExact_of_certain (hsolves : Solves g chart arrived o) :
    SumsExact g chart o := by
  constructor
  · intro s hs parent hparent child _ rule x hrule hmax
    obtain ⟨e, he⟩ := (h.mem_nonTerminals hs).1 hparent
    rw [hcertain.unary hrule]
    exact Score.exact_zero (hmax.attained.elim Or.inl fun harrives =>
      harrives.absent_or_zero hg hcertain h hs he fun _ hu _ _ hparent =>
        hsolves.absent_or_zero hg hcertain h hu hparent)
  · intro s hs parent hparent m hm l hl r hr rule hrule
    obtain ⟨⟨hs₁, -⟩, hs₂, -⟩ := Span.inside_of_mem_midpoints hs hm
    have hget := hsolves.absent_or_zero hg hcertain h hs hparent
    rw [hcertain.binary hrule, h.inside_of_certain hg hcertain hs₁ l hl,
      h.inside_of_certain hg hcertain hs₂ r hr, Score.add_zero_of_absent_or_zero hget]
    exact ⟨Score.exact_zero hget, Score.exact_zero hget, Score.exact_zero hget⟩

end Certain

/-! ## As scores -/

/-- No inside and outside score add up to more than the best score, where unary rules give no
parent more than it has. -/
theorem ExactParse.add_le (h : ExactParse g words isOpen chart top arrived o)
    (hsaturated : chart.Saturated g) (hs : s.within chart.size = true)
    (he : (chart.cell s).get? nt = some e) : e.inside + o.get s nt ≤ top.inside := by
  have hinside := h.inside.finite s hs e (((h.exhaustive.ordered s hs).get?_eq_some.1 he).1)
  have htop := h.inside.finite _ h.whole top
    (((h.exhaustive.ordered _ h.whole).get?_eq_some.1 h.top).1)
  by_cases habsent : o.get s nt = Score.absent
  · rw [habsent, hinside.add_absent]
    exact Score.le_of_lt htop.present
  · have hnt := (h.exhaustive.mem_nonTerminals hs).2 ⟨e, he⟩
    have hpresent := Score.absent_lt_iff.2 ⟨(h.solves.raised s hs nt hnt).isNaN, habsent⟩
    have hle := (h.units_le hsaturated hs he).2 hpresent
    exact hinside.add_le (h.finite_get hs he hpresent) htop (by omega)

/-- The inside and the outside score of a constituent of the best tree add up to no less. -/
theorem ExactParse.le_add (h : ExactParse g words isOpen chart top arrived o)
    (hreach : ReflTransGen (Chart.Leads g chart) (chart.whole, g.start) (s, nt)) :
    ∃ e, (chart.cell s).get? nt = some e ∧ top.inside ≤ e.inside + o.get s nt := by
  obtain ⟨hs, e, he, hbest⟩ := h.onBest_of_leads hreach
  dsimp only at hs he hbest
  obtain ⟨hmem, rfl⟩ := (h.exhaustive.ordered s hs).get?_eq_some.1 he
  have htop := h.inside.finite _ h.whole top
    (((h.exhaustive.ordered _ h.whole).get?_eq_some.1 h.top).1)
  have hget := hbest.get
  exact ⟨e, he, (h.inside.finite s hs e hmem).le_add hbest.finite htop (by omega)⟩

end OutsideChart

namespace Parser

open Chart Schedule OutsideChart

variable {g : Grammar} {p : Parser} {tokens : List String} {words : Array UInt32} {chart : Chart}
  {result : ParseResult}

/-- A result is read off the entry of the start symbol for the whole sentence. -/
theorem exists_of_extract {stats : ParseStats} (h : p.extract tokens stats = .ok result) :
    ∃ e t, 0 < p.chart.size ∧ (p.chart.cell p.chart.whole).get? p.grammar.start = some e ∧
      p.chart.tree p.grammar p.chart.whole p.grammar.start = .ok t ∧
      result.tree = t.map (fun c => p.grammar.label c.value) (fun w => tokens.getD w.value "") ∧
      result.inside = e.inside := by
  unfold extract top? at h
  dsimp only at h
  split_ifs at h with hpos
  · cases he : (p.chart.cell p.chart.whole).get? p.grammar.start with
    | none =>
      rw [Option.bind_some, he] at h
      cases h
    | some e =>
      rw [Option.bind_some, he] at h
      dsimp only at h
      cases ht : p.chart.tree p.grammar p.chart.whole p.grammar.start with
      | error fault =>
        rw [ht] at h
        cases h
      | ok t =>
        rw [ht] at h
        cases h
        exact ⟨e, t, hpos, rfl, rfl, rfl, rfl⟩
  · cases h

/-- In a parse without limits on cells, and where no sum of the parse or of the outside scores
loses anything to rounding, the inside and the outside score of every constituent of the tree
add up to no less than its score. They add up to that score, and those of no entry to more, if
no unary rule between two entries of a cell gives its parent more than it has; so it is if no
child of a unary rule is the parent of another one. -/
theorem inside_add_outside {source : GrammarSource} {kind : PackingKind}
    (hcompile : Grammar.compile source kind = .ok g) (hp : Reached g (fun _ => True) p)
    (ho : p.options.Unbeamed) (h : p.Accepts tokens words) (walk : BottomUp)
    (skipped : List Span) (merit : Merit) (clock : Clock)
    (hresult : (p.parseWith tokens (skipping walk skipped) merit clock).1 = .ok result)
    (hchart : (p.parseWith tokens (skipping walk skipped) merit clock).2.2.chart = chart)
    (hinside : chart.InsideExact g words (· ∉ skipped))
    (houtside : SumsExact g chart (compute g chart)) :
    (g.Flat → chart.Saturated g) ∧
    (chart.Saturated g → ∀ s, s.within chart.size = true → ∀ e ∈ (chart.cell s).toList,
      e.inside + (compute g chart).get s e.nt ≤ result.inside) ∧
    ∃ tree, chart.tree g chart.whole g.start = .ok tree ∧
      result.tree = tree.map (fun c => g.label c.value) (fun w => tokens.getD w.value "") ∧
      ∀ c ∈ tree.constituents, ∃ s, ∃ e ∈ (chart.cell s).toList, s.within chart.size = true ∧
        c = ⟨e.nt, s.start.toNat, s.stop.toNat⟩ ∧
        result.inside ≤ e.inside + (compute g chart).get s e.nt ∧
        (chart.Saturated g →
          (e.inside + (compute g chart).get s e.nt == result.inside) = true) := by
  have hg := Grammar.coherent_of_compile hcompile
  have hmirrored := Grammar.mirrored_of_compile hcompile
  obtain ⟨rfl, hsound⟩ := hp.sound hg
  rw [parseWith_fst] at hresult
  rw [parseWith_snd] at hchart
  have hexhaustive := h.exhaustive_unskipped walk skipped merit clock hg hsound ho
  obtain ⟨hclosed, -⟩ := h.closed hg hsound merit walk [.skip skipped] clock
  obtain ⟨-, hgrammar, -⟩ := fillChart_keeps hg hsound tokens (skipping walk skipped) merit clock
  change Chart.Closed _ _ (p.fillChart tokens (skipping walk skipped) merit clock).2.2.chart
    at hclosed
  have hmax := h.length_le_maximum
  dsimp only at hexhaustive
  generalize p.fillChart tokens (skipping walk skipped) merit clock = filled at *
  obtain ⟨outcome, schedule, q⟩ := filled
  dsimp only at hresult hchart hexhaustive hclosed hgrammar
  subst hchart
  cases outcome with
  | error e => cases hresult
  | ok stats =>
    obtain ⟨hsize, hfull, -⟩ := hexhaustive (Or.inr fun elapsed h => nomatch h)
    obtain ⟨top, tree, hpos, htop, htree, heq, hscore⟩ := exists_of_extract hresult
    rw [hgrammar] at htop htree heq
    have hwhole : q.chart.whole.within q.chart.size = true := by
      rw [whole_eq]
      exact Span.within_ofLength (by omega) hpos (by omega)
    obtain ⟨arrived, hpassed⟩ :=
      exists_passedDown hmirrored hfull.ordered (by omega)
    have hparse : ExactParse p.grammar words (· ∉ skipped) q.chart top arrived
        (compute p.grammar q.chart) :=
      ⟨hg, hfull, hinside, hwhole, htop, hpassed.solves (by omega), houtside⟩
    rw [hscore]
    refine ⟨fun hflat => hinside.saturated hg hflat hfull, fun hsaturated s hs e he =>
      hparse.add_le hsaturated hs ((hfull.mem_toList hs).1 he), tree, htree, heq, fun c hc => ?_⟩
    obtain ⟨s, nt, hs, hreach, rfl⟩ := hclosed.leads_of_mem_constituents hwhole htree hc
    obtain ⟨e, he, hle⟩ := hparse.le_add hreach
    obtain ⟨hmem, rfl⟩ := (hfull.ordered s hs).get?_eq_some.1 he
    exact ⟨s, e, hmem, hs, rfl, hle,
      fun hsaturated => Score.beq_of_le (hparse.add_le hsaturated hs he) hle⟩

/-- A sentence of two words, in the sample with a unary rule. -/
theorem inside_add_outside_twice : ∃ g result, Grammar.compile (.sample true) .shift = .ok g ∧
    let r := (new g .default .default 1).parseWith ["a", "a"] (skipping .fresh []) .inside .stopped
    let chart := r.2.2.chart
    r.1 = .ok result ∧ chart.Saturated g ∧
      (∀ s, s.within chart.size = true → ∀ e ∈ (chart.cell s).toList,
        e.inside + (compute g chart).get s e.nt ≤ result.inside) ∧
      ∃ tree, chart.tree g chart.whole g.start = .ok tree ∧
        result.tree = tree.map (fun c => g.label c.value) (fun w => ["a", "a"].getD w.value "") ∧
        ∀ c ∈ tree.constituents, ∃ s, ∃ e ∈ (chart.cell s).toList, s.within chart.size = true ∧
          c = ⟨e.nt, s.start.toNat, s.stop.toNat⟩ ∧
          (e.inside + (compute g chart).get s e.nt == result.inside) = true := by
  obtain ⟨g, hcompile, hlexicon, hcertain⟩ := Grammar.exists_sample true
  have hg := Grammar.coherent_of_compile hcompile
  obtain ⟨hstart, htag, hbinary, hunary⟩ := Grammar.rules_sample hcompile
  have hflat : g.Flat := fun hrule hrule' =>
    absurd ((hunary _ _ _ hrule).2.symm.trans (hunary _ _ _ hrule').1) (by decide)
  have haccepts : (new g .default .default 1).Accepts ["a", "a"] #[0, 0] :=
    accepts_twice hlexicon (by change 2 ≤ min 200 65535; decide)
  have hreached : Reached g (fun _ => True) (new g .default .default 1) := .new _ _ _
  have hsound := (hreached.sound hg).2
  have hderives : (Derivation.binary 1 (.tag 0) (.tag 0)).Derives g #[0, 0] (· ∉ [])
      (Span.ofLength 0 2) g.start :=
    ⟨hstart.symm, rfl, ⟨⟨0, hbinary⟩, ⟨0, htag⟩, ⟨0, htag⟩⟩, ⟨trivial, trivial⟩,
      ⟨List.not_mem_nil, List.not_mem_nil, List.not_mem_nil⟩⟩
  obtain ⟨result, hresult⟩ := haccepts.exists_result_of_certain .fresh [] .inside .stopped hg
    hcertain hsound ParserOptions.unbeamed_default rfl hderives
  obtain ⟨hsize, hexhaustive, -⟩ := haccepts.exhaustive_unskipped .fresh [] .inside .stopped hg
    hsound ParserOptions.unbeamed_default (Or.inl rfl)
  have hmax := Nat.le_trans (Nat.le_of_eq hsize) haccepts.length_le_maximum
  obtain ⟨arrived, hpassed⟩ := exists_passedDown (Grammar.mirrored_of_compile hcompile)
    hexhaustive.ordered hmax
  obtain ⟨hsaturated, hle, tree, htree, heq, hall⟩ := inside_add_outside hcompile hreached
    ParserOptions.unbeamed_default haccepts .fresh [] .inside .stopped hresult rfl
    (hexhaustive.insideExact_of_certain hg hcertain)
    ((hpassed.solves hmax).sumsExact_of_certain hg hcertain hexhaustive)
  refine ⟨g, result, hcompile, hresult, hsaturated hflat, hle (hsaturated hflat), tree, htree, heq,
    fun c hc => ?_⟩
  obtain ⟨s, e, he, hs, hplace, -, hagree⟩ := hall c hc
  exact ⟨s, e, he, hs, hplace, hagree (hsaturated hflat)⟩

end Parser
end ChartParsing

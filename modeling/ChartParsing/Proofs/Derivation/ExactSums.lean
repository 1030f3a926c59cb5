import ChartParsing.Proofs.Derivation.Recognition

/-!
# Exact sums of a parse

Where no sum that a parse makes loses anything to rounding, the score of an entry stands for
the sum of what its rule and its children stand for, and no binary rule that could have derived
it gives more. A unary rule can give more than its parent has: the unary step is made once, so
the rule has seen what its child had before, and a parent that another entry was derived from
keeps its score. Neither happens if no child of a unary rule is the parent of another one.
-/

namespace ChartParsing

/-- No child of a unary rule is the parent of a unary rule. -/
def Grammar.Flat (g : Grammar) : Prop :=
  ∀ {parent child nt rule rule'}, g.HasUnary parent child rule → ¬g.HasUnary child nt rule'

namespace Chart

/-- The scores on a chart are finite, and the sums that were made to fill its open cells are
exact: those of two entries side by side that a key stands for, those of a binary rule and the
best pair of its children, and those of a unary rule and what its child had before. -/
structure InsideExact (g : Grammar) (words : Array UInt32) (isOpen : Span → Prop)
    (chart : Chart) : Prop where
  finite : ∀ s, s.within chart.size = true → ∀ e ∈ (chart.cell s).toList, Score.IsFinite e.inside
  pair : ∀ s, s.within chart.size = true → isOpen s → ∀ m ∈ s.midpoints,
    ∀ l ∈ (chart.cell ⟨s.start, m⟩).toList, ∀ r ∈ (chart.cell ⟨m, s.stop⟩).toList,
      (g.packing.pack l.nt r.nt).isSome → Score.Exact l.inside r.inside
  binary : ∀ s, s.within chart.size = true → isOpen s → s.length ≠ 1 →
    ∀ nt left right key rule, g.HasBinary nt left right rule →
      g.packing.pack left right = some key → (PairTable.ofSpan g chart s).midpoint key ≠ 0 →
        Score.Exact rule ((PairTable.ofSpan g chart s).score key)
  unary : ∀ s, s.within chart.size = true → isOpen s → ∀ parent child rule d,
    g.HasUnary parent child rule →
      (Scratch.derived g chart words s).entryOf? child = some d → Score.Exact rule d.inside

/-- No unary rule between two entries of a cell gives its parent more than it has. -/
def Saturated (g : Grammar) (chart : Chart) : Prop :=
  ∀ s, s.within chart.size = true → ∀ e ∈ (chart.cell s).toList, ∀ c ∈ (chart.cell s).toList,
    ∀ rule, g.HasUnary e.nt c.nt rule → Score.absent < rule →
      Score.units rule + Score.units c.inside ≤ Score.units e.inside

variable {g : Grammar} {words : Array UInt32} {isOpen : Span → Prop} {chart : Chart} {s : Span}
  {nt : UInt16} {e : ChartEntry}

theorem length_ne_one_of_mem_midpoints (hs : s.within chart.size = true) {m : UInt16}
    (hm : m ∈ s.midpoints) : s.length ≠ 1 := by
  rw [Span.mem_midpoints hs] at hm
  unfold Span.length
  omega

/-! ## Binary rules -/

/-- No binary rule gives more than its parent has. -/
theorem InsideExact.le_binary (hg : g.Coherent) (h : Exhaustive g words isOpen chart)
    (hexact : chart.InsideExact g words isOpen) (hs : s.within chart.size = true) {m : UInt16}
    (hm : m ∈ s.midpoints) {left right : UInt16} {rule : Score}
    (hrule : g.HasBinary nt left right rule) (hpresent : Score.absent < rule) {l r : ChartEntry}
    (hl : (chart.cell ⟨s.start, m⟩).get? left = some l)
    (hr : (chart.cell ⟨m, s.stop⟩).get? right = some r)
    (he : (chart.cell s).get? nt = some e) :
    Score.units rule + (Score.units l.inside + Score.units r.inside) ≤ Score.units e.inside := by
  have hopen := h.isOpen_of_get? hs he
  have hone := length_ne_one_of_mem_midpoints hs hm
  obtain ⟨⟨hs₁, -⟩, hs₂, -⟩ := Span.inside_of_mem_midpoints hs hm
  obtain ⟨key, hpack, -, hne, hle⟩ := h.le_pair hg hs hm hrule hl hr
  obtain ⟨hl', rfl⟩ := (h.ordered _ hs₁).get?_eq_some.1 hl
  obtain ⟨hr', rfl⟩ := (h.ordered _ hs₂).get?_eq_some.1 hr
  obtain ⟨hfinite, hpair⟩ := hexact.pair s hs hopen m hm l hl' r hr'
    (Option.isSome_iff_exists.2 ⟨key, hpack⟩) (h.present hg hs₁ hl) (h.present hg hs₂ hr)
  have hscore := Score.lt_of_lt_of_le hfinite.present hle
  obtain ⟨hfinite', hsum⟩ :=
    hexact.binary s hs hopen hone nt l.nt r.nt key rule hrule hpack hne hpresent hscore
  have hderived := Scratch.le_derived hg
    (mem_derivedEntries words hg hs hone hrule hpack hne) hfinite'.present
  have hplace : (Scratch.derived g chart words s).entryOf? nt =
      some ((Scratch.derived g chart words s).place nt) :=
    Scratch.entryOf?_eq_some.2
      ⟨Score.ne_absent_of_lt (Score.lt_of_lt_of_le hfinite'.present hderived), rfl⟩
  obtain ⟨e', he', hle'⟩ := h.le_of_derived hg hs hopen hplace
  rw [he] at he'
  cases he'
  obtain ⟨-, -, hle⟩ := Score.le_iff.1 hle
  obtain ⟨-, -, hderived⟩ := Score.le_iff.1 (Score.le_trans hderived hle')
  calc Score.units rule + (Score.units l.inside + Score.units r.inside)
      ≤ Score.units rule + Score.units ((PairTable.ofSpan g chart s).score key) := by omega
    _ = Score.units (rule + (PairTable.ofSpan g chart s).score key) := hsum.symm
    _ ≤ Score.units e.inside := hderived

/-- A binary entry stands for the sum of its rule and its children. -/
theorem InsideExact.binary_entry (hg : g.Coherent) (h : Exhaustive g words isOpen chart)
    (hexact : chart.InsideExact g words isOpen) (hs : s.within chart.size = true)
    (he : (chart.cell s).get? nt = some e) {key : UInt32} (hkey : e.children = .binary key) :
    e.midpoint ∈ s.midpoints ∧ ∃ l ∈ (chart.cell ⟨s.start, e.midpoint⟩).toList,
      ∃ r ∈ (chart.cell ⟨e.midpoint, s.stop⟩).toList, ∃ rule,
        g.packing.unpack key = some (l.nt, r.nt) ∧ g.HasBinary nt l.nt r.nt rule ∧
        Score.absent < rule ∧ Score.units e.inside =
          Score.units rule + (Score.units l.inside + Score.units r.inside) := by
  obtain ⟨hopen, hfull⟩ := (h.get?_iff hs).1 he
  have hpresent := h.present hg hs he
  rcases mem_of_full hg hfull with hderived | ⟨child, -, -, -, -, -, -, -, hchildren, -⟩
  · by_cases hone : s.length = 1
    · obtain ⟨hmem, -⟩ := Scratch.mem_of_derived hg hderived
      rw [derivedEntries_word hs hone] at hmem
      obtain ⟨-, hchildren, -⟩ := Scratch.mem_tagEntries.1 hmem
      rw [hkey] at hchildren
      cases hchildren
    · obtain ⟨key', rule, l, r, hchildren, hpack, hrule, hm, hl, hr, hne, hscore, hinside⟩ :=
        exists_of_derived hg hs hone hderived
      rw [hkey] at hchildren
      cases hchildren
      rw [hinside] at hpresent
      obtain ⟨hrule', hsum'⟩ := Score.present_of_add hpresent
      obtain ⟨hl', hr'⟩ := Score.present_of_add hsum'
      obtain ⟨-, hpair⟩ := hexact.pair s hs hopen e.midpoint hm l hl r hr
        (Option.isSome_iff_exists.2 ⟨key, hpack⟩) hl' hr'
      obtain ⟨-, hsum⟩ := hexact.binary s hs hopen hone nt l.nt r.nt key rule hrule hpack hne
        hrule' (by rwa [hscore])
      rw [hscore, ← hinside, hpair] at hsum
      exact ⟨hm, l, hl, r, hr, rule, (hg.unpack_of_pack hpack).1, hrule, hrule', hsum⟩
  · rw [hkey] at hchildren
    cases hchildren

/-! ## Unary rules -/

/-- A unary entry stands for the sum of its rule and its child, which is not unary. -/
theorem InsideExact.unary_entry (hg : g.Coherent) (h : Exhaustive g words isOpen chart)
    (hexact : chart.InsideExact g words isOpen) (hs : s.within chart.size = true)
    (he : (chart.cell s).get? nt = some e) {child : UInt16} (hchild : e.children = .unary child) :
    ∃ c rule, (chart.cell s).get? child = some c ∧ ¬c.children.IsUnary ∧
      g.HasUnary nt child rule ∧ Score.absent < rule ∧
      Score.units e.inside = Score.units rule + Score.units c.inside := by
  obtain ⟨hopen, hfull⟩ := (h.get?_iff hs).1 he
  have hpresent := h.present hg hs he
  rcases mem_of_full hg hfull with
    hderived | ⟨child', rule, c, hrule, hc, hc', -, hinside, hchildren, -⟩
  · have hplain := (h.justifies_derived hg hs hderived).2
    rw [hchild] at hplain
    exact absurd trivial hplain
  · rw [hchild] at hchildren
    cases hchildren
    rw [hinside] at hpresent
    obtain ⟨hrule', hcpresent⟩ := Score.present_of_add hpresent
    obtain ⟨-, hsum⟩ := hexact.unary s hs hopen nt child rule c hrule hc hrule' hcpresent
    rw [← hinside] at hsum
    exact ⟨c, rule, (h.get?_iff hs).2 ⟨hopen, hc'⟩, (h.justifies_derived hg hs hc).2, hrule,
      hrule', hsum⟩

/-- Where no child of a unary rule is the parent of another one, no unary rule between two
entries of a cell gives its parent more than it has. -/
theorem InsideExact.saturated (hg : g.Coherent) (hflat : g.Flat)
    (h : Exhaustive g words isOpen chart) (hexact : chart.InsideExact g words isOpen) :
    chart.Saturated g := by
  intro s hs e he c hc rule hrule hpresent
  obtain ⟨hopen, hfull⟩ := (h.get?_iff hs).1 ((h.mem_toList hs).1 he)
  obtain ⟨-, hcfull⟩ := (h.get?_iff hs).1 ((h.mem_toList hs).1 hc)
  -- the child has no unary rule of its own, so it has what it had before
  have hchild : (Scratch.derived g chart words s).entryOf? c.nt = some c := by
    rcases mem_of_full hg hcfull with hderived | ⟨_, _, _, hrule', -⟩
    · exact hderived
    · exact absurd hrule' (hflat hrule)
  have hcpresent := h.present hg hs ((h.mem_toList hs).1 hc)
  obtain ⟨hfinite, hsum⟩ := hexact.unary s hs hopen e.nt c.nt rule c hrule hchild hpresent hcpresent
  have hvalid := Scratch.valid_derived hg chart words s
  have hedge : (⟨e.nt, rule + c.inside, .unary c.nt, s.stop⟩ : ChartEntry) ∈
      UnaryStep.edges g (Scratch.derived g chart words s) s.stop := by
    refine (UnaryStep.mem_edges hg).2 ⟨c.nt, (hvalid.mem_iff c.nt).2 ⟨c, hchild⟩, rule, hrule, ?_,
      rfl, rfl⟩
    rw [← Scratch.inside_of_entryOf? hchild]
  -- the parent is the child of no unary rule, so nothing holds it back
  have hfree : ¬UnaryStep.Blocked (UnaryStep.candidates g (Scratch.derived g chart words s) s.stop
      (Scratch.new g.size)) e.nt := by
    rintro ⟨parent, d, hd, hchildren⟩
    obtain ⟨hmem, -⟩ := UnaryStep.edge_of_candidate hg (Scratch.valid_new g.size) hd
    obtain ⟨child, -, rule', hrule', -, hchildren', -⟩ := (UnaryStep.mem_edges hg).1 hmem
    rw [hchildren] at hchildren'
    cases hchildren'
    exact hflat hrule' hrule
  have hle := Scratch.le_addUnaries_of_edge hg hvalid (Scratch.valid_new g.size) hedge
    (Score.isNaN_of_present hfinite.present) hfree hfull
    (Scratch.isNaN_derived hg chart words s e.nt)
  obtain ⟨-, -, hunits⟩ := Score.le_iff.1 hle
  rw [← hsum]
  exact hunits

/-- Where all rules have probability one, all sums are exact. -/
theorem Exhaustive.insideExact_of_certain (hg : g.Coherent) (hcertain : g.Certain)
    (h : Exhaustive g words isOpen chart) : chart.InsideExact g words isOpen := by
  constructor
  · intro s hs e he
    rw [h.inside_of_certain hg hcertain hs e he]
    exact Score.isFinite_zero
  · intro s hs _ m hm l hl r hr _
    obtain ⟨⟨hs₁, -⟩, hs₂, -⟩ := Span.inside_of_mem_midpoints hs hm
    rw [h.inside_of_certain hg hcertain hs₁ l hl, h.inside_of_certain hg hcertain hs₂ r hr]
    exact Score.exact_zero (Or.inr rfl)
  · intro s hs _ _ nt left right key rule hrule _ hne
    rw [hcertain.binary hrule, h.pair_of_certain hg hcertain hs hne]
    exact Score.exact_zero (Or.inr rfl)
  · intro s hs _ parent child rule d hrule hd
    rw [hcertain.unary hrule, h.derived_of_certain hg hcertain hs hd]
    exact Score.exact_zero (Or.inr rfl)

end Chart
end ChartParsing

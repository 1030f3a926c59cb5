import ChartParsing.Proofs.Parser.Sentence

/-!
# Exhaustive charts

A chart is exhaustive if the cell of every open span holds all that its rules derive from
the cells of the chart itself, and the cells of other spans are empty. Parsing without a
limit on the entries of cells leaves such charts. What their entries are made of is said
here in terms of the rules.
-/

namespace ChartParsing

namespace Chart

/-- What a cell without a limit on its entries holds, given the rest of its chart. -/
def full (g : Grammar) (words : Array UInt32) (chart : Chart) (s : Span) : Scratch :=
  ((Scratch.derived g chart words s).addUnaries g s.stop (Scratch.new g.size)).1

/-- All cells of open spans hold all that can be derived, and all others are empty. -/
structure Exhaustive (g : Grammar) (words : Array UInt32) (isOpen : Span → Prop)
    (chart : Chart) : Prop where
  filled : ∀ s, s.within chart.size = true → isOpen s →
    ∀ nt, (chart.cell s).get? nt = (full g words chart s).entryOf? nt
  closed : ∀ s, s.within chart.size = true → ¬isOpen s → chart.cell s = ∅
  ordered : ∀ s, s.within chart.size = true → (chart.cell s).Ordered

variable {g : Grammar} {merit : Merit} {words : Array UInt32} {chart : Chart}
  {isOpen : Span → Prop} {s : Span}

/-- A chart that is settled on jobs without limits is exhaustive. -/
theorem Settled.exhaustive {jobs : List CellJob} (hg : g.Coherent)
    (h : Settled g merit words jobs chart) (hlimit : ∀ job ∈ jobs, job.limit = none) :
    Exhaustive g words (fun s => ∃ job ∈ jobs, job.span = s) chart := by
  have hlast {s : Span} (hopen : ∃ job ∈ jobs, job.span = s) :
      ∃ job, lastAt? s jobs = some job ∧ job.limit = none ∧ job.span = s := by
    obtain ⟨job, hjob, hspan⟩ := hopen
    cases hlast : lastAt? s jobs with
    | none => exact absurd hspan (lastAt?_eq_none.1 hlast job hjob)
    | some last =>
      obtain ⟨hmem, hspan⟩ := mem_of_lastAt? hlast
      exact ⟨last, rfl, hlimit last hmem, hspan⟩
  have hrest {s : Span} (hclosed : ¬∃ job ∈ jobs, job.span = s) : lastAt? s jobs = none :=
    lastAt?_eq_none.2 fun job hjob heq => hclosed ⟨job, hjob, heq⟩
  constructor
  · intro s hs hopen nt
    obtain ⟨job, hjob, hunlimited, rfl⟩ := hlast hopen
    rw [h.done _ job hjob, Workspace.get?_cellFor hg merit chart words hs hunlimited]
    rfl
  · intro s hs hclosed
    exact h.rest s hs (hrest hclosed)
  · intro s hs
    by_cases hopen : ∃ job ∈ jobs, job.span = s
    · obtain ⟨job, hjob, -, rfl⟩ := hlast hopen
      rw [h.done _ job hjob]
      exact Workspace.ordered_cellFor hg merit chart words hs
    · rw [h.rest s hs (hrest hopen)]
      exact Cell.ordered_empty

theorem Exhaustive.congr {isOpen' : Span → Prop} (h : Exhaustive g words isOpen chart)
    (heq : ∀ s, s.within chart.size = true → (isOpen s ↔ isOpen' s)) :
    Exhaustive g words isOpen' chart :=
  ⟨fun s hs hopen => h.filled s hs ((heq s hs).2 hopen),
    fun s hs hclosed => h.closed s hs fun hopen => hclosed ((heq s hs).1 hopen), h.ordered⟩

theorem Exhaustive.isOpen_of_get? (h : Exhaustive g words isOpen chart)
    (hs : s.within chart.size = true) {nt : UInt16} {e : ChartEntry}
    (he : (chart.cell s).get? nt = some e) : isOpen s := by
  by_contra hclosed
  rw [h.closed s hs hclosed] at he
  rw [Cell.ordered_empty.get?_eq_some] at he
  cases he.1

theorem Exhaustive.get?_iff (h : Exhaustive g words isOpen chart)
    (hs : s.within chart.size = true) {nt : UInt16} {e : ChartEntry} :
    (chart.cell s).get? nt = some e ↔ isOpen s ∧ (full g words chart s).entryOf? nt = some e := by
  constructor
  · intro he
    have hopen := h.isOpen_of_get? hs he
    rw [h.filled s hs hopen] at he
    exact ⟨hopen, he⟩
  · rintro ⟨hopen, he⟩
    rw [h.filled s hs hopen]
    exact he

theorem mem_of_full (hg : g.Coherent) {nt : UInt16} {e : ChartEntry}
    (he : (full g words chart s).entryOf? nt = some e) :
    (Scratch.derived g chart words s).entryOf? nt = some e ∨
      ∃ child rule d, g.HasUnary nt child rule ∧
        (Scratch.derived g chart words s).entryOf? child = some d ∧
        (full g words chart s).entryOf? child = some d ∧ Score.absent < e.inside ∧
        e.inside = rule + d.inside ∧ e.children = .unary child ∧ e.midpoint = s.stop :=
  Scratch.entry_of_addUnaries hg (Scratch.valid_derived hg chart words s)
    (Scratch.valid_new g.size) he

/-- Every entry of an exhaustive chart has a score above that of what is absent. -/
theorem Exhaustive.present (hg : g.Coherent) (h : Exhaustive g words isOpen chart)
    (hs : s.within chart.size = true) {nt : UInt16} {e : ChartEntry}
    (he : (chart.cell s).get? nt = some e) : Score.absent < e.inside := by
  rcases mem_of_full hg ((h.get?_iff hs).1 he).2 with hderived | ⟨_, _, _, -, -, -, hpresent, -⟩
  · exact (Scratch.mem_of_derived hg hderived).2
  · exact hpresent

/-- What is derived before the unary step has an entry that is no lower. -/
theorem Exhaustive.le_of_derived (hg : g.Coherent) (h : Exhaustive g words isOpen chart)
    (hs : s.within chart.size = true) (hopen : isOpen s) {nt : UInt16} {d : ChartEntry}
    (hd : (Scratch.derived g chart words s).entryOf? nt = some d) :
    ∃ e, (chart.cell s).get? nt = some e ∧ d.inside ≤ e.inside := by
  obtain ⟨-, hpresent⟩ := Scratch.mem_of_derived hg hd
  obtain ⟨e, he, hle⟩ := Scratch.le_addUnaries s.stop hg (Scratch.valid_derived hg chart words s)
    (Scratch.valid_new g.size) hd (Score.isNaN_of_present hpresent)
  exact ⟨e, (h.get?_iff hs).2 ⟨hopen, he⟩, hle⟩

theorem Exhaustive.mem_toList (h : Exhaustive g words isOpen chart)
    (hs : s.within chart.size = true) {e : ChartEntry} :
    e ∈ (chart.cell s).toList ↔ (chart.cell s).get? e.nt = some e := by
  rw [(h.ordered s hs).get?_eq_some]
  exact ⟨fun he => ⟨he, rfl⟩, fun he => he.1⟩

/-! ## Single words -/

theorem derivedEntries_word (hs : s.within chart.size = true) (hlength : s.length = 1) :
    Scratch.derivedEntries g chart words s =
      Scratch.tagEntries g (words.getD s.start.toNat 0) := by
  have hwidth : s.width = 1 := UInt16.toNat_inj.1 (by rw [Span.toNat_width hs, hlength]; rfl)
  unfold Scratch.derivedEntries
  rw [if_pos hwidth]

/-! ## Spans that can be split -/

theorem derivedEntries_pairs (hs : s.within chart.size = true) (hlength : s.length ≠ 1) :
    Scratch.derivedEntries g chart words s =
      Scratch.pairEntries g (PairTable.ofSpan g chart s) := by
  have hwidth : s.width ≠ 1 := by
    intro h
    rw [← Span.toNat_width hs, h] at hlength
    exact hlength rfl
  unfold Scratch.derivedEntries
  rw [if_neg hwidth]

/-- All scores of pairs that are offered are above that of what is absent. -/
theorem Exhaustive.present_offer (hg : g.Coherent) (h : Exhaustive g words isOpen chart)
    (hs : s.within chart.size = true) :
    ∀ o ∈ PairTable.offersFor g chart s, o.score.isNaN = false := by
  intro o ho
  obtain ⟨hmid, left, hleft, right, hright, -, hscore⟩ := PairTable.exists_of_mem_offersFor ho
  obtain ⟨⟨hs₁, -⟩, hs₂, -⟩ := Span.inside_of_mem_midpoints hs hmid
  rw [hscore]
  exact Score.isNaN_add (h.present hg hs₁ ((h.mem_toList hs₁).1 hleft))
    (h.present hg hs₂ ((h.mem_toList hs₂).1 hright))

/-- What a binary rule derives over a span is made of the best pair of entries of the two parts
that the span is split into. -/
theorem exists_of_derived (hg : g.Coherent) (hs : s.within chart.size = true)
    (hlength : s.length ≠ 1) {nt : UInt16} {e : ChartEntry}
    (he : (Scratch.derived g chart words s).entryOf? nt = some e) :
    ∃ key rule l r, e.children = .binary key ∧ g.packing.pack l.nt r.nt = some key ∧
      g.HasBinary nt l.nt r.nt rule ∧ e.midpoint ∈ s.midpoints ∧
      l ∈ (chart.cell ⟨s.start, e.midpoint⟩).toList ∧
      r ∈ (chart.cell ⟨e.midpoint, s.stop⟩).toList ∧
      (PairTable.ofSpan g chart s).midpoint key ≠ 0 ∧
      (PairTable.ofSpan g chart s).score key = l.inside + r.inside ∧
      e.inside = rule + (l.inside + r.inside) := by
  obtain ⟨hmem, -⟩ := Scratch.mem_of_derived hg he
  rw [derivedEntries_pairs hs hlength] at hmem
  obtain ⟨left, right, key, rule, hpack, hrule, hne, hinside, hchildren, hmid⟩ :=
    (Scratch.mem_pairEntries hg).1 hmem
  rw [Scratch.nt_of_entryOf? he] at hrule
  obtain ⟨hsplit, l, hl, r, hr, hpack', hscore⟩ :=
    PairTable.exists_of_mem_offersFor (PairTable.mem_of_ofSpan hg hs hne)
  dsimp only at hsplit hl hr hpack' hscore
  rw [← hmid] at hsplit hl hr
  have hpair := (hg.unpack_of_pack hpack').1
  rw [(hg.unpack_of_pack hpack).1] at hpair
  cases hpair
  rw [hscore] at hinside
  exact ⟨key, rule, l, r, hchildren, hpack, hrule, hsplit, hl, hr, hne, hscore, hinside⟩

theorem Exhaustive.exists_of_derived (hg : g.Coherent) (h : Exhaustive g words isOpen chart)
    (hs : s.within chart.size = true) (hlength : s.length ≠ 1) {nt : UInt16} {e : ChartEntry}
    (he : (Scratch.derived g chart words s).entryOf? nt = some e) :
    ∃ left right key rule l r, e.children = .binary key ∧
      g.packing.unpack key = some (left, right) ∧ g.HasBinary nt left right rule ∧
      e.midpoint ∈ s.midpoints ∧ (chart.cell ⟨s.start, e.midpoint⟩).get? left = some l ∧
      (chart.cell ⟨e.midpoint, s.stop⟩).get? right = some r ∧
      e.inside = rule + (l.inside + r.inside) := by
  obtain ⟨key, rule, l, r, hchildren, hpack, hrule, hsplit, hl, hr, -, -, hinside⟩ :=
    Chart.exists_of_derived hg hs hlength he
  obtain ⟨⟨hs₁, -⟩, hs₂, -⟩ := Span.inside_of_mem_midpoints hs hsplit
  exact ⟨_, _, key, rule, l, r, hchildren, (hg.unpack_of_pack hpack).1, hrule, hsplit,
    (h.mem_toList hs₁).1 hl, (h.mem_toList hs₂).1 hr, hinside⟩

/-- Two entries that a binary rule combines leave a pair with a score that is no lower than
the sum of theirs. -/
theorem Exhaustive.le_pair (hg : g.Coherent) (h : Exhaustive g words isOpen chart)
    (hs : s.within chart.size = true) {m : UInt16} (hm : m ∈ s.midpoints)
    {nt left right : UInt16} {rule : Score} (hrule : g.HasBinary nt left right rule)
    {l r : ChartEntry} (hl : (chart.cell ⟨s.start, m⟩).get? left = some l)
    (hr : (chart.cell ⟨m, s.stop⟩).get? right = some r) :
    ∃ key, g.packing.pack left right = some key ∧
      ⟨key, l.inside + r.inside, m⟩ ∈ PairTable.offersFor g chart s ∧
      (PairTable.ofSpan g chart s).midpoint key ≠ 0 ∧
      l.inside + r.inside ≤ (PairTable.ofSpan g chart s).score key := by
  obtain ⟨⟨hs₁, -⟩, hs₂, -⟩ := Span.inside_of_mem_midpoints hs hm
  obtain ⟨hl', rfl⟩ := (h.ordered _ hs₁).get?_eq_some.1 hl
  obtain ⟨hr', rfl⟩ := (h.ordered _ hs₂).get?_eq_some.1 hr
  obtain ⟨key, hpack, hoffer⟩ :=
    PairTable.mem_offersFor hg hm (h.ordered _ hs₂) hl' hr' hrule
  obtain ⟨hne, hle⟩ := PairTable.le_ofSpan hg hs (h.present_offer hg hs) hoffer
  exact ⟨key, hpack, hoffer, hne, hle⟩

/-- Each rule whose children have a pair derives an entry. -/
theorem mem_derivedEntries (words : Array UInt32) (hg : g.Coherent)
    (hs : s.within chart.size = true) (hlength : s.length ≠ 1) {nt left right : UInt16}
    {rule : Score} {key : UInt32}
    (hrule : g.HasBinary nt left right rule) (hpack : g.packing.pack left right = some key)
    (hne : (PairTable.ofSpan g chart s).midpoint key ≠ 0) :
    ⟨nt, rule + (PairTable.ofSpan g chart s).score key, .binary key,
      (PairTable.ofSpan g chart s).midpoint key⟩ ∈ Scratch.derivedEntries g chart words s := by
  rw [derivedEntries_pairs hs hlength]
  exact (Scratch.mem_pairEntries hg).2 ⟨left, right, key, rule, hpack, hrule, hne, rfl, rfl, rfl⟩

end Chart

/-- The options limit the entries of no cell. -/
structure ParserOptions.Unbeamed (o : ParserOptions) : Prop where
  beamWidth : o.beamWidth = none
  wordBeamWidth : o.wordBeamWidth = none

theorem ParserOptions.unbeamed_default : ParserOptions.default.Unbeamed := ⟨rfl, rfl⟩

namespace Parser

open Chart Schedule

variable {p : Parser} {tokens : List String} {words : Array UInt32} {walk : BottomUp}
  {skipped : List Span} {merit : Merit} {clock : Clock}

theorem limit_eq_none (walk : BottomUp) (skipped : List Span) (ho : p.options.Unbeamed)
    (length : Nat) : ∀ job ∈ (p.jobs length (skipping walk skipped)).1, job.limit = none := by
  intro job hjob
  obtain ⟨span, -, rfl⟩ := List.mem_map.1 hjob
  have hcell : p.options.cellLimit? span = none := by
    unfold ParserOptions.cellLimit?
    split_ifs
    · exact ho.wordBeamWidth
    · exact ho.beamWidth
  have hschedule := Schedule.limit?_spans (skipping walk skipped) (UInt16.ofNat length) span
  unfold CellJob.ofSpan
  dsimp only
  rw [hcell]
  exact congrArg (tighter none) hschedule

/-- The jobs of a schedule bottom-up are in the order of a run side by side already. -/
theorem arrange_skipping {length : Nat} (hlength : (UInt16.ofNat length).toNat = length) :
    p.arrange (p.jobs length (skipping walk skipped)).1 =
      (p.jobs length (skipping walk skipped)).1 := by
  unfold arrange
  split_ifs
  · refine List.mergeSort_of_pairwise ?_
    have hpairwise := pairwise_unskipped length
      (by have := (UInt16.ofNat length).toNat_lt; omega) skipped
    rw [← spans_skipping walk hlength, ← map_span_jobs (p := p),
      List.pairwise_map] at hpairwise
    refine hpairwise.imp_of_mem fun {a b} ha hb hab => decide_eq_true ?_
    rw [UInt16.le_iff_toNat_le, Span.toNat_width (jobs_within hlength a ha),
      Span.toNat_width (jobs_within hlength b hb)]
    rcases hab with hlt | heq
    · omega
    · omega
  · rfl

/-- Without limits on cells a sentence leaves a chart that is exhaustive on the spans that
were reached, all that are not skipped unless the time was over. -/
theorem Accepts.exhaustive (walk : BottomUp) (skipped : List Span) (merit : Merit) (clock : Clock)
    (h : p.Accepts tokens words) (hg : p.grammar.Coherent) (hp : p.Sound)
    (ho : p.options.Unbeamed) :
    let r := p.fillChart tokens (skipping walk skipped) merit clock
    r.2.2.chart.size = tokens.length ∧ ∃ reached rest,
      unskipped tokens.length skipped = reached ++ rest ∧
      Exhaustive p.grammar words (· ∈ reached) r.2.2.chart ∧
      ((rest = [] ∧ ∃ stats, r.1 = .ok stats) ∨
        (rest ≠ [] ∧ p.options.timeLimit ≠ none ∧
          ∃ elapsed, r.1 = .error (.cancelled elapsed))) := by
  intro r
  have hlength := h.toNat_length
  obtain ⟨hran, -⟩ := h.fillChart_ran (skipping walk skipped) merit clock hg hp
    (Or.inl (limit_eq_none walk skipped ho tokens.length))
  rw [arrange_skipping hlength] at hran
  have hspans : (p.jobs tokens.length (skipping walk skipped)).1.map (·.span) =
      unskipped tokens.length skipped := by
    rw [map_span_jobs, spans_skipping walk hlength]
  have horderly : Orderly tokens.length (p.jobs tokens.length (skipping walk skipped)).1 := by
    refine orderly_jobs hlength ?_
    rw [spans_skipping walk hlength]
    refine (pairwise_unskipped _ h.length_le_maximum skipped).imp_of_mem fun {s t} hs _ hst => ?_
    exact Span.not_inside_of_precedes ((mem_unskipped h.length_le_maximum).1 hs).1 hst
  obtain ⟨done, rest, hjobs, hchart, houtcome⟩ := hran.exists_done
  have hlimit := limit_eq_none walk skipped ho tokens.length
  rw [hjobs] at horderly hspans hlimit
  have hdone : Orderly ((p.chart.clear 0).clear tokens.length).size done :=
    ⟨fun job hjob => horderly.within job (List.mem_append_left _ hjob),
      (List.pairwise_append.1 horderly.order).1⟩
  have hsettled := settled_putAll p.grammar merit words
    (sized_clear tokens.length) (fun s _ => cell_clear tokens.length s) hdone
  refine ⟨?_, done.map (·.span), rest.map (·.span), ?_, ?_, ?_⟩
  · rw [hchart]
    exact (putAll_keeps _ _ _ (sized_clear tokens.length) done).2
  · rw [← hspans, List.map_append]
  · rw [hchart]
    have hexhaustive := hsettled.exhaustive hg fun job hjob =>
      hlimit job (List.mem_append_left _ hjob)
    exact hexhaustive.congr fun s _ => List.mem_map.symm
  · rcases houtcome with ⟨hrest, houtcome⟩ | ⟨hrest, hlimited, elapsed, houtcome⟩
    · left
      rw [hrest]
      exact ⟨rfl, _, houtcome⟩
    · right
      exact ⟨fun hnil => hrest (List.map_eq_nil_iff.1 hnil), hlimited, elapsed, houtcome⟩

/-- Without limits on cells, a sentence that was not given up leaves a chart that is
exhaustive on all spans that are not skipped. -/
theorem Accepts.exhaustive_unskipped (walk : BottomUp) (skipped : List Span) (merit : Merit)
    (clock : Clock) (h : p.Accepts tokens words) (hg : p.grammar.Coherent) (hp : p.Sound)
    (ho : p.options.Unbeamed) :
    let r := p.fillChart tokens (skipping walk skipped) merit clock
    (p.options.timeLimit = none ∨ ∀ elapsed, r.1 ≠ .error (.cancelled elapsed)) →
      r.2.2.chart.size = tokens.length ∧
        Exhaustive p.grammar words (· ∉ skipped) r.2.2.chart ∧ ∃ stats, r.1 = .ok stats := by
  intro r hfinished
  obtain ⟨hsize, reached, rest, hspans, hexhaustive,
    ⟨rfl, hok⟩ | ⟨-, hlimit, elapsed, hcancelled⟩⟩ := h.exhaustive walk skipped merit clock hg hp ho
  · refine ⟨hsize, hexhaustive.congr fun s hs => ?_, hok⟩
    rw [hsize] at hs
    rw [List.append_nil] at hspans
    rw [← hspans, mem_unskipped h.length_le_maximum]
    exact ⟨fun hmem => hmem.2, fun hmem => ⟨hs, hmem⟩⟩
  · rcases hfinished with hnone | hfinished
    · exact absurd hnone hlimit
    · exact absurd hcancelled (hfinished elapsed)

end Parser
end ChartParsing

import ChartParsing.Proofs.Derivation.Soundness
import ChartParsing.Proofs.Score.Exact

/-!
# Recognition

A non-terminal may be missing from a cell although it has a derivation, but only if a score
on the way is no higher than that of what is absent. Where nothing is lost like that, a cell
has an entry for each non-terminal with a derivation in which unary nodes are not stacked.
The child of a unary node is then among what is derived before the unary step, and the step
either improves on its parent or leaves it as it is.
-/

namespace ChartParsing

/-- All scores of rules and of entries of the lexicon are above that of what is absent. -/
structure Grammar.Weighted (g : Grammar) : Prop where
  tag : ∀ {tag word score}, g.HasTag tag word score → Score.absent < score
  unary : ∀ {parent child score}, g.HasUnary parent child score → Score.absent < score
  binary : ∀ {parent left right score}, g.HasBinary parent left right score →
    Score.absent < score

theorem Grammar.Certain.weighted {g : Grammar} (hcertain : g.Certain) : g.Weighted := by
  have hzero := Score.isFinite_zero.present
  constructor
  · intro tag word score h
    rw [hcertain.tag h]
    exact hzero
  · intro parent child score h
    rw [hcertain.unary h]
    exact hzero
  · intro parent left right score h
    rw [hcertain.binary h]
    exact hzero

/-- No sum that is made for the cells of open spans is the score of what is absent: neither
that of a pair of children, nor that of a rule and a pair, nor that of a rule and a child. -/
structure Chart.Lossless (g : Grammar) (words : Array UInt32) (isOpen : Span → Prop)
    (chart : Chart) : Prop where
  pair : ∀ s, s.within chart.size = true → isOpen s →
    ∀ o ∈ PairTable.offersFor g chart s, o.score ≠ Score.absent
  binary : ∀ s, s.within chart.size = true → isOpen s →
    ∀ e ∈ Scratch.pairEntries g (PairTable.ofSpan g chart s), e.inside ≠ Score.absent
  unary : ∀ s, s.within chart.size = true → isOpen s →
    ∀ e ∈ UnaryStep.edges g (Scratch.derived g chart words s) s.stop, e.inside ≠ Score.absent

/-- A derivation of a non-terminal over a span by the rules of a grammar, none of whose
nodes is over a closed span and whose unary nodes are not stacked. -/
structure Derivation.Derives (g : Grammar) (words : Array UInt32) (isOpen : Span → Prop)
    (s : Span) (nt : UInt16) (d : Derivation) : Prop where
  root : d.root = nt
  width : d.width = s.length
  licensed : d.Licensed g words s.start.toNat
  unchained : d.Unchained
  isOpen : d.Open isOpen s.start.toNat

namespace Chart

variable {g : Grammar} {words : Array UInt32} {chart : Chart} {isOpen : Span → Prop} {s : Span}
  {nt : UInt16}

theorem isSome_full (hg : g.Coherent) : ((full g words chart s).entryOf? nt).isSome ↔
    ((Scratch.derived g chart words s).entryOf? nt).isSome ∨
      ∃ e ∈ UnaryStep.edges g (Scratch.derived g chart words s) s.stop, e.nt = nt ∧
        (Scratch.derived g chart words s).insideOf nt < e.inside :=
  Scratch.isSome_addUnaries hg (Scratch.valid_derived hg chart words s) (Scratch.valid_new g.size)

/-- What can be derived with a score leaves an entry. -/
theorem isSome_derived (hg : g.Coherent) {e : ChartEntry}
    (he : e ∈ Scratch.derivedEntries g chart words s) (hpresent : Score.absent < e.inside) :
    ((Scratch.derived g chart words s).entryOf? e.nt).isSome := by
  rw [← Option.ne_none_iff_isSome, ne_eq, Scratch.entryOf?_eq_none]
  exact Score.ne_absent_of_lt (Score.lt_of_lt_of_le hpresent (Scratch.le_derived hg he hpresent))

/-- A unary rule adds its parent to what is derived without it. -/
theorem Lossless.isSome_unary (hg : g.Coherent) (hweighted : g.Weighted)
    (hlossless : Lossless g words isOpen chart) (hs : s.within chart.size = true)
    (hopen : isOpen s) {child : UInt16} {rule : Score} (hrule : g.HasUnary nt child rule)
    (hchild : ((Scratch.derived g chart words s).entryOf? child).isSome) :
    ((full g words chart s).entryOf? nt).isSome := by
  rw [isSome_full hg]
  by_cases hnt : (Scratch.derived g chart words s).entryOf? nt = none
  · right
    obtain ⟨d, hd⟩ := Option.isSome_iff_exists.1 hchild
    have hmem : (⟨nt, rule + d.inside, .unary child, s.stop⟩ : ChartEntry) ∈
        UnaryStep.edges g (Scratch.derived g chart words s) s.stop := by
      refine (UnaryStep.mem_edges hg).2 ⟨child, ?_, rule, hrule, ?_, rfl, rfl⟩
      · exact ((Scratch.valid_derived hg chart words s).mem_iff child).2 ⟨d, hd⟩
      · rw [← Scratch.inside_of_entryOf? hd]
    refine ⟨_, hmem, rfl, ?_⟩
    rw [Scratch.entryOf?_eq_none.1 hnt, Score.absent_lt_iff]
    exact ⟨Score.isNaN_add (hweighted.unary hrule) (Scratch.mem_of_derived hg hd).2,
      hlossless.unary s hs hopen _ hmem⟩
  · exact Or.inl (Option.ne_none_iff_isSome.1 hnt)

/-- A binary rule derives its parent from entries of the parts of a span. -/
theorem Lossless.isSome_binary (hg : g.Coherent) (hweighted : g.Weighted)
    (hlossless : Lossless g words isOpen chart) (h : Exhaustive g words isOpen chart)
    (hs : s.within chart.size = true) (hlength : s.length ≠ 1) (hopen : isOpen s) {m : UInt16}
    (hm : m ∈ s.midpoints) {left right : UInt16} {rule : Score}
    (hrule : g.HasBinary nt left right rule) {l r : ChartEntry}
    (hl : (chart.cell ⟨s.start, m⟩).get? left = some l)
    (hr : (chart.cell ⟨m, s.stop⟩).get? right = some r) :
    ((Scratch.derived g chart words s).entryOf? nt).isSome := by
  obtain ⟨⟨hs₁, -⟩, hs₂, -⟩ := Span.inside_of_mem_midpoints hs hm
  obtain ⟨key, hpack, hoffer, hne, hle⟩ := h.le_pair hg hs hm hrule hl hr
  have hsum : Score.absent < l.inside + r.inside := by
    have hne := hlossless.pair s hs hopen _ hoffer
    dsimp only at hne
    exact Score.absent_lt_iff.2
      ⟨Score.isNaN_add (h.present hg hs₁ hl) (h.present hg hs₂ hr), hne⟩
  have hmem := mem_derivedEntries words hg hs hlength hrule hpack hne
  have hpair := hmem
  rw [derivedEntries_pairs hs hlength] at hpair
  have hne' := hlossless.binary s hs hopen _ hpair
  dsimp only at hne'
  have hderived := isSome_derived hg hmem (Score.absent_lt_iff.2
    ⟨Score.isNaN_add (hweighted.binary hrule) (Score.lt_of_lt_of_le hsum hle), hne'⟩)
  exact hderived

/-- The root of a derivation has an entry; unless the root node is unary, it has one before
the unary step already. -/
theorem Lossless.isSome_of_derivation (hg : g.Coherent) (hweighted : g.Weighted)
    (hlossless : Lossless g words isOpen chart) (h : Exhaustive g words isOpen chart)
    (hsize : chart.size ≤ 65535) {d : Derivation} {start : Nat}
    (hlicensed : d.Licensed g words start) (hunchained : d.Unchained)
    (hopen : d.Open isOpen start) (hbound : start + d.width ≤ chart.size) :
    ((full g words chart (Span.ofLength start d.width)).entryOf? d.root).isSome ∧
      (¬d.IsUnary → ((Scratch.derived g chart words
        (Span.ofLength start d.width)).entryOf? d.root).isSome) := by
  induction d generalizing start with
  | tag nt =>
    have hs : (Span.ofLength start 1).within chart.size = true :=
      Span.within_ofLength hsize Nat.one_pos hbound
    obtain ⟨score, htag⟩ := hlicensed
    obtain ⟨hstart, -⟩ := Span.toNat_ofLength start 1 (Nat.le_trans hbound hsize)
    have hmem : (⟨nt, score, .lexical (words.getD start 0), 0⟩ : ChartEntry) ∈
        Scratch.derivedEntries g chart words (Span.ofLength start 1) := by
      rw [derivedEntries_word hs (Span.length_ofLength (Nat.le_trans hbound hsize)), hstart]
      exact Scratch.mem_tagEntries.2 ⟨htag, rfl, rfl⟩
    have hderived := isSome_derived hg hmem (hweighted.tag htag)
    exact ⟨(isSome_full hg).2 (Or.inl hderived), fun _ => hderived⟩
  | unary nt child ih =>
    obtain ⟨⟨rule, hrule⟩, hlicensed⟩ := hlicensed
    obtain ⟨hplain, hunchained⟩ := hunchained
    obtain ⟨hroot, hopen⟩ := hopen
    have hchild := (ih hlicensed hunchained hopen hbound).2 hplain
    have hs := Span.within_ofLength hsize child.width_pos hbound
    exact ⟨hlossless.isSome_unary hg hweighted hs hroot hrule hchild, fun h => (h trivial).elim⟩
  | binary nt left right ihl ihr =>
    obtain ⟨⟨rule, hrule⟩, hlicensed₁, hlicensed₂⟩ := hlicensed
    obtain ⟨hunchained₁, hunchained₂⟩ := hunchained
    obtain ⟨hroot, hopen₁, hopen₂⟩ := hopen
    have hleft := left.width_pos
    have hright := right.width_pos
    have hwidth : (Derivation.binary nt left right).width = left.width + right.width := rfl
    rw [hwidth] at hbound ⊢
    have hs := Span.within_ofLength hsize (by omega) hbound
    have hs₁ := Span.within_ofLength hsize hleft (by omega : start + left.width ≤ chart.size)
    have hs₂ := Span.within_ofLength hsize hright
      (by omega : start + left.width + right.width ≤ chart.size)
    obtain ⟨hm, hspan₁, hspan₂⟩ := Span.split_ofLength hs hsize hbound hleft hright
    obtain ⟨l, hl⟩ := Option.isSome_iff_exists.1
      (ihl hlicensed₁ hunchained₁ hopen₁ (by omega)).1
    obtain ⟨r, hr⟩ := Option.isSome_iff_exists.1
      (ihr hlicensed₂ hunchained₂ hopen₂ (by omega)).1
    have hl := (h.get?_iff hs₁).2 ⟨hopen₁.root, hl⟩
    have hr := (h.get?_iff hs₂).2 ⟨hopen₂.root, hr⟩
    rw [← hspan₁] at hl
    rw [← hspan₂] at hr
    have hlength : (Span.ofLength start (left.width + right.width)).length ≠ 1 := by
      rw [Span.length_ofLength (Nat.le_trans hbound hsize)]
      omega
    have hderived :=
      hlossless.isSome_binary hg hweighted h hs hlength hroot hm hrule hl hr
    exact ⟨(isSome_full hg).2 (Or.inl hderived), fun _ => hderived⟩

/-- Where nothing is lost, a cell has an entry for each non-terminal with a derivation. -/
theorem Lossless.isSome_iff (hg : g.Coherent) (hweighted : g.Weighted)
    (hlossless : Lossless g words isOpen chart) (h : Exhaustive g words isOpen chart)
    (hsize : chart.size ≤ 65535) (hs : s.within chart.size = true) (nt : UInt16) :
    ((chart.cell s).get? nt).isSome ↔
      ∃ d : Derivation, d.Derives g words isOpen s nt := by
  constructor
  · intro hsome
    obtain ⟨e, he⟩ := Option.isSome_iff_exists.1 hsome
    obtain ⟨d, hd⟩ := h.exists_backs hg hs he
    have hnt := ((h.ordered s hs).get?_eq_some.1 he).2
    exact ⟨d, hd.root.trans hnt, hd.width, hd.licensed, hd.unchained, hd.isOpen⟩
  · rintro ⟨d, rfl, hwidth, hlicensed, hunchained, hopen⟩
    have hstop := Span.stop_eq hs
    have hbound : s.start.toNat + d.width ≤ chart.size := by
      rw [Span.within_iff] at hs
      omega
    have hfull := (hlossless.isSome_of_derivation hg hweighted h hsize hlicensed hunchained hopen
      hbound).1
    have hroot := hopen.root
    rw [hwidth, Span.ofLength_length hs] at hfull hroot
    rw [h.filled s hs hroot]
    exact hfull

/-! ## Rules that have probability one -/

theorem score_of_certain (hg : g.Coherent) (hcertain : g.Certain) {d : Derivation} {start : Nat}
    (h : d.Licensed g words start) : d.score g words start = 0 := by
  induction d generalizing start with
  | tag nt =>
    obtain ⟨score, htag⟩ := h
    rw [Derivation.score, hg.lexicalLogProb htag, hcertain.tag htag]
  | unary nt child ih =>
    obtain ⟨⟨rule, hrule⟩, hchild⟩ := h
    rw [Derivation.score, hg.unaryLogProb hrule, hcertain.unary hrule, ih hchild, Score.add_zero_zero]
  | binary nt left right ihl ihr =>
    obtain ⟨⟨rule, hrule⟩, hleft, hright⟩ := h
    rw [Derivation.score, hg.binaryLogProb hrule, hcertain.binary hrule, ihl hleft, ihr hright,
      Score.add_zero_zero, Score.add_zero_zero]

section Certain

variable (hg : g.Coherent) (hcertain : g.Certain) (h : Exhaustive g words isOpen chart)

include hg hcertain h

theorem Exhaustive.inside_of_certain (hs : s.within chart.size = true) :
    ∀ e ∈ (chart.cell s).toList, e.inside = 0 := by
  intro e he
  obtain ⟨d, hd⟩ := h.exists_backs hg hs ((h.mem_toList hs).1 he)
  rw [← hd.score]
  exact score_of_certain hg hcertain hd.licensed

theorem Exhaustive.offer_of_certain (hs : s.within chart.size = true) :
    ∀ o ∈ PairTable.offersFor g chart s, o.score = 0 := by
  intro o ho
  obtain ⟨hm, l, hl, r, hr, -, hscore⟩ := PairTable.exists_of_mem_offersFor ho
  obtain ⟨⟨hs₁, -⟩, hs₂, -⟩ := Span.inside_of_mem_midpoints hs hm
  rw [hscore, h.inside_of_certain hg hcertain hs₁ l hl, h.inside_of_certain hg hcertain hs₂ r hr,
    Score.add_zero_zero]

theorem Exhaustive.pair_of_certain (hs : s.within chart.size = true) {key : UInt32}
    (hne : (PairTable.ofSpan g chart s).midpoint key ≠ 0) :
    (PairTable.ofSpan g chart s).score key = 0 :=
  h.offer_of_certain hg hcertain hs _ (PairTable.mem_of_ofSpan hg hs hne)

theorem Exhaustive.pairEntry_of_certain (hs : s.within chart.size = true) :
    ∀ e ∈ Scratch.pairEntries g (PairTable.ofSpan g chart s), e.inside = 0 := by
  intro e he
  obtain ⟨left, right, key, rule, -, hrule, hne, hinside, -⟩ := (Scratch.mem_pairEntries hg).1 he
  rw [hinside, hcertain.binary hrule, h.pair_of_certain hg hcertain hs hne, Score.add_zero_zero]

theorem Exhaustive.derived_of_certain (hs : s.within chart.size = true) {nt : UInt16}
    {d : ChartEntry} (hd : (Scratch.derived g chart words s).entryOf? nt = some d) :
    d.inside = 0 := by
  obtain ⟨hmem, -⟩ := Scratch.mem_of_derived hg hd
  by_cases hone : s.length = 1
  · rw [derivedEntries_word hs hone] at hmem
    exact hcertain.tag (Scratch.mem_tagEntries.1 hmem).1
  · rw [derivedEntries_pairs hs hone] at hmem
    exact h.pairEntry_of_certain hg hcertain hs d hmem

/-- Where all rules have probability one, nothing is lost. -/
theorem Exhaustive.lossless_of_certain : Lossless g words isOpen chart := by
  constructor
  · intro s hs _ o ho
    rw [h.offer_of_certain hg hcertain hs o ho]
    exact Score.zero_ne_absent
  · intro s hs _ e he
    rw [h.pairEntry_of_certain hg hcertain hs e he]
    exact Score.zero_ne_absent
  · intro s hs _ e he
    obtain ⟨child, hchild, rule, hrule, hinside, -⟩ := (UnaryStep.mem_edges hg).1 he
    obtain ⟨d, hd⟩ := ((Scratch.valid_derived hg chart words s).mem_iff child).1 hchild
    rw [hinside, hcertain.unary hrule, ← Scratch.inside_of_entryOf? hd,
      h.derived_of_certain hg hcertain hs hd, Score.add_zero_zero]
    exact Score.zero_ne_absent

end Certain

end Chart

namespace Parser

open Chart Schedule

variable {p : Parser} {tokens : List String} {words : Array UInt32} {g : Grammar}

theorem extract_ne_cancelled {stats : ParseStats} (elapsed : Nat) :
    p.extract tokens stats ≠ .error (.cancelled elapsed) := fun h => nomatch extract_eq_error h

/-- Without limits on cells, a sentence that can be derived by rules of probability one is
parsed. -/
theorem Accepts.exists_result_of_certain (walk : BottomUp) (skipped : List Span) (merit : Merit)
    (clock : Clock) (h : p.Accepts tokens words) (hg : p.grammar.Coherent)
    (hcertain : p.grammar.Certain) (hp : p.Sound) (ho : p.options.Unbeamed)
    (htime : p.options.timeLimit = none) {d : Derivation}
    (hd : d.Derives p.grammar words (· ∉ skipped) (Span.ofLength 0 tokens.length)
      p.grammar.start) :
    ∃ result, (p.parseWith tokens (skipping walk skipped) merit clock).1 = .ok result := by
  obtain ⟨hsize, hexhaustive, stats, hok⟩ :=
    h.exhaustive_unskipped walk skipped merit clock hg hp ho (Or.inl htime)
  obtain ⟨-, hgrammar, -⟩ := fillChart_keeps hg hp tokens (skipping walk skipped) merit clock
  have hmax := h.length_le_maximum
  have hpos := List.length_pos_iff.2 h.nonempty
  rw [parseWith_fst]
  generalize p.fillChart tokens (skipping walk skipped) merit clock = filled at *
  obtain ⟨outcome, schedule, q⟩ := filled
  dsimp only at hsize hexhaustive hok hgrammar
  subst hok
  have hwhole : (Span.ofLength 0 tokens.length).within q.chart.size = true :=
    Span.within_ofLength (by omega) hpos (by omega)
  have hsome := ((hexhaustive.lossless_of_certain hg hcertain).isSome_iff hg hcertain.weighted
    hexhaustive (by omega) hwhole p.grammar.start).2 ⟨d, hd⟩
  obtain ⟨e, he⟩ := Option.isSome_iff_exists.1 hsome
  rw [← hgrammar] at hg hexhaustive he
  obtain ⟨-, d, -, -, hextract⟩ := exists_extract hg hexhaustive hsize hmax (by
    rw [top?, if_pos (by omega), whole_eq, hsize, Option.bind_some, he])
  exact ⟨_, hextract stats⟩

/-- Without limits on cells, and where no score on the way is that of what is absent, the
cells of a sentence hold what can be derived with unary nodes that are not stacked, and the
sentence is not parsed just if the start symbol cannot be derived so. -/
theorem parse_recognizes {source : GrammarSource} {kind : PackingKind}
    (hcompile : Grammar.compile source kind = .ok g) (hweighted : g.Weighted)
    (hp : Reached g (fun _ => True) p) (ho : p.options.Unbeamed) (h : p.Accepts tokens words)
    (walk : BottomUp) (skipped : List Span) (merit : Merit) (clock : Clock)
    (hfinished : ∀ elapsed, (p.parseWith tokens (skipping walk skipped) merit clock).1 ≠
      .error (.cancelled elapsed))
    (hlossless : Lossless g words (· ∉ skipped)
      (p.parseWith tokens (skipping walk skipped) merit clock).2.2.chart) :
    let r := p.parseWith tokens (skipping walk skipped) merit clock
    (∀ s, s.within tokens.length = true → ∀ nt, ((r.2.2.chart.cell s).get? nt).isSome ↔
        ∃ d : Derivation, d.Derives g words (· ∉ skipped) s nt) ∧
      (r.1 = .error .noParse ↔ ¬∃ d : Derivation,
        d.Derives g words (· ∉ skipped) (Span.ofLength 0 tokens.length) g.start) := by
  have hg := Grammar.coherent_of_compile hcompile
  obtain ⟨rfl, hsound⟩ := hp.sound hg
  obtain ⟨-, hgrammar, -⟩ := fillChart_keeps hg hsound tokens (skipping walk skipped) merit clock
  have hfilled := h.exhaustive_unskipped walk skipped merit clock hg hsound ho
  dsimp only at hfilled ⊢
  rw [parseWith_fst] at hfinished
  rw [parseWith_snd] at hlossless
  rw [parseWith_snd, parseWith_fst]
  generalize p.fillChart tokens (skipping walk skipped) merit clock = filled at *
  obtain ⟨outcome, schedule, q⟩ := filled
  dsimp only at hfilled hfinished hlossless hgrammar ⊢
  obtain ⟨hsize, hexhaustive, stats, rfl⟩ := hfilled <| Or.inr fun elapsed hcancelled => by
    rw [hcancelled] at hfinished
    exact hfinished elapsed rfl
  have hmax := h.length_le_maximum
  have hpos := List.length_pos_iff.2 h.nonempty
  have hiff {s : Span} (hs : s.within tokens.length = true) (nt : UInt16) :=
    hlossless.isSome_iff hg hweighted hexhaustive (hsize ▸ hmax) (hsize ▸ hs) nt
  refine ⟨fun s hs nt => hiff hs nt, ?_⟩
  have hwhole : (Span.ofLength 0 tokens.length).within tokens.length = true :=
    Span.within_ofLength hmax hpos (by omega)
  rw [← hiff hwhole]
  have htop : q.chart.top? = some (q.chart.cell (Span.ofLength 0 tokens.length)) := by
    rw [top?, if_pos (hsize ▸ hpos), whole_eq, hsize]
  change q.extract tokens stats = _ ↔ _
  rw [Option.not_isSome_iff_eq_none]
  rw [← hgrammar] at hg hexhaustive ⊢
  cases hstart : (q.chart.cell (Span.ofLength 0 tokens.length)).get? q.grammar.start with
  | none =>
    refine iff_of_true ?_ rfl
    unfold extract
    dsimp only
    rw [htop, Option.bind_some, hstart]
    rfl
  | some e =>
    refine iff_of_false ?_ (Option.some_ne_none e)
    obtain ⟨-, d, -, -, hextract⟩ := exists_extract hg hexhaustive hsize hmax (by
      rw [htop, Option.bind_some, hstart])
    rw [hextract]
    exact fun herror => by cases herror

/-- A sentence of two words, in the sample with a unary rule. -/
theorem parse_recognizes_twice : ∃ g, Grammar.compile (.sample true) .shift = .ok g ∧
    let r := (new g .default .default 1).parseWith ["a", "a"] (skipping .fresh []) .inside .stopped
    (∀ s, s.within 2 = true → ∀ nt, ((r.2.2.chart.cell s).get? nt).isSome ↔
        ∃ d : Derivation, d.Derives g #[0, 0] (· ∉ []) s nt) ∧
      (r.1 = .error .noParse ↔ ¬∃ d : Derivation,
        d.Derives g #[0, 0] (· ∉ []) (Span.ofLength 0 2) g.start) := by
  obtain ⟨g, hcompile, hlexicon, hcertain⟩ := Grammar.exists_sample true
  have hg := Grammar.coherent_of_compile hcompile
  have haccepts : (new g .default .default 1).Accepts ["a", "a"] #[0, 0] :=
    accepts_twice hlexicon (by change 2 ≤ min 200 65535; decide)
  have hreached : Reached g (fun _ => True) (new g .default .default 1) := .new _ _ _
  obtain ⟨-, hexhaustive, stats, hok⟩ := haccepts.exhaustive_unskipped .fresh [] .inside .stopped hg
    (hreached.sound hg).2 ParserOptions.unbeamed_default (Or.inl rfl)
  refine ⟨g, hcompile, parse_recognizes hcompile hcertain.weighted hreached
    ParserOptions.unbeamed_default haccepts .fresh [] .inside .stopped ?_ ?_⟩
  · intro elapsed
    rw [parseWith_fst, hok]
    exact extract_ne_cancelled elapsed
  · exact hexhaustive.lossless_of_certain hg hcertain

end Parser
end ChartParsing

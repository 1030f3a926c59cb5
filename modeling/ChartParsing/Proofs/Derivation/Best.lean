import ChartParsing.Proofs.Derivation.Soundness

/-!
# Best derivations

Without unary rules an exhaustive chart holds the best score of every non-terminal over
every span. Each entry has the score of a derivation, whose parts have the scores of the
entries it was made of; and since sums respect the order of scores, no derivation is
better than what its parts have left on the chart.
-/

namespace ChartParsing

namespace Chart

variable {g : Grammar} {words : Array UInt32} {chart : Chart} {isOpen : Span → Prop}

/-- Without unary rules a cell holds what is derived by others. -/
theorem entryOf?_full (hg : g.Coherent) (hnone : ∀ parent child rule, ¬g.HasUnary parent child rule)
    (s : Span) (nt : UInt16) :
    (full g words chart s).entryOf? nt = (Scratch.derived g chart words s).entryOf? nt :=
  Scratch.entryOf?_addUnaries_of_none hg (Scratch.valid_derived hg chart words s)
    (Scratch.valid_new g.size) hnone nt

/-- An entry that can be derived is not better than what the cell has. -/
theorem le_full (hg : g.Coherent) (hnone : ∀ parent child rule, ¬g.HasUnary parent child rule)
    {s : Span} {e : ChartEntry} (he : e ∈ Scratch.derivedEntries g chart words s)
    (hpresent : Score.absent < e.inside) :
    ∃ d, (full g words chart s).entryOf? e.nt = some d ∧ e.inside ≤ d.inside := by
  have hle := Scratch.le_derived hg he hpresent
  have hne := Score.ne_absent_of_lt (Score.lt_of_lt_of_le hpresent hle)
  refine ⟨(Scratch.derived g chart words s).place e.nt, ?_, hle⟩
  rw [entryOf?_full hg hnone, Scratch.entryOf?_eq_some]
  exact ⟨hne, rfl⟩

/-- No derivation is better than the entry of its root. -/
theorem Exhaustive.le_inside (hg : g.Coherent)
    (hnone : ∀ parent child rule, ¬g.HasUnary parent child rule)
    (h : Exhaustive g words isOpen chart) (hsize : chart.size ≤ 65535) {d : Derivation}
    (hbinary : d.Binary) {start : Nat} (hopen : d.Open isOpen start)
    (hbound : start + d.width ≤ chart.size)
    (hpresent : Score.absent < d.score g words start) :
    ∃ e, (chart.cell (Span.ofLength start d.width)).get? d.root = some e ∧
      d.score g words start ≤ e.inside := by
  induction d generalizing start with
  | tag nt =>
    have hs : (Span.ofLength start 1).within chart.size = true :=
      Span.within_ofLength hsize Nat.one_pos hbound
    obtain ⟨hstart, -⟩ := Span.toNat_ofLength start 1
      (Nat.le_trans hbound hsize)
    obtain ⟨score, htag⟩ := hg.tag_of_logProb (Score.ne_absent_of_lt hpresent)
    have hscore : (Derivation.tag nt).score g words start = score := hg.lexicalLogProb htag
    rw [hscore] at hpresent ⊢
    have hmem : (⟨nt, score, .lexical (words.getD start 0), 0⟩ : ChartEntry) ∈
        Scratch.derivedEntries g chart words (Span.ofLength start 1) := by
      rw [derivedEntries_word hs (Span.length_ofLength (Nat.le_trans hbound hsize)), hstart]
      exact Scratch.mem_tagEntries.2 ⟨htag, rfl, rfl⟩
    obtain ⟨e, he, hle⟩ := le_full hg hnone hmem hpresent
    exact ⟨e, (h.get?_iff hs).2 ⟨hopen, he⟩, hle⟩
  | unary nt child ih => exact hbinary.elim
  | binary nt left right ihl ihr =>
    obtain ⟨hbinary₁, hbinary₂⟩ := hbinary
    obtain ⟨hroot, hopen₁, hopen₂⟩ := hopen
    have hleft := left.width_pos
    have hright := right.width_pos
    have hwidth : (Derivation.binary nt left right).width = left.width + right.width := rfl
    rw [hwidth] at hbound
    have hs := Span.within_ofLength hsize (by omega) hbound
    obtain ⟨hm, hspan₁, hspan₂⟩ := Span.split_ofLength hs hsize hbound hleft hright
    obtain ⟨hrule, hsum⟩ := Score.present_of_add hpresent
    obtain ⟨hpresent₁, hpresent₂⟩ := Score.present_of_add hsum
    obtain ⟨l, hl, hle₁⟩ := ihl hbinary₁ hopen₁ (by omega) hpresent₁
    obtain ⟨r, hr, hle₂⟩ := ihr hbinary₂ hopen₂ (by omega) hpresent₂
    obtain ⟨rule, hrule'⟩ := hg.binary_of_logProb (Score.ne_absent_of_lt hrule)
    rw [← hspan₁] at hl
    rw [← hspan₂] at hr
    obtain ⟨key, hpack, -, hne, hle⟩ := h.le_pair hg hs hm hrule' hl hr
    have hpair := Score.le_trans (Score.add_le_add hpresent₁ hpresent₂ hle₁ hle₂) hle
    have htotal := Score.add_le_add hrule hsum
      (Score.le_self (Score.isNaN_of_present hrule)) hpair
    rw [hg.binaryLogProb hrule'] at htotal
    have hlength : (Span.ofLength start (left.width + right.width)).length ≠ 1 := by
      rw [Span.length_ofLength (Nat.le_trans hbound hsize)]
      omega
    have hmem := mem_derivedEntries words hg hs hlength hrule' hpack hne
    have hscore : (Derivation.binary nt left right).score g words start =
        rule + (left.score g words start + right.score g words (start + left.width)) := by
      rw [Derivation.score, hg.binaryLogProb hrule']
    rw [hscore] at hpresent ⊢
    obtain ⟨e, he, hle'⟩ := le_full hg hnone hmem (Score.lt_of_lt_of_le hpresent htotal)
    exact ⟨e, (h.get?_iff hs).2 ⟨hroot, he⟩, Score.le_trans htotal hle'⟩

end Chart

/-- A binary derivation of a non-terminal over a span, none of whose nodes is over a skipped
span, with a score above that of what is absent. -/
structure Derivation.Competes (g : Grammar) (words : Array UInt32)
    (skipped : List Span) (s : Span) (nt : UInt16) (d : Derivation) : Prop where
  root : d.root = nt
  width : d.width = s.length
  binary : d.Binary
  isOpen : d.Open (· ∉ skipped) s.start.toNat
  present : Score.absent < d.score g words s.start.toNat

namespace Parser

open Chart Schedule

variable {p : Parser} {tokens : List String} {words : Array UInt32} {walk : BottomUp}
  {skipped : List Span} {merit : Merit} {clock : Clock}

/-- Without unary rules, limits on cells and a limit on the time, a cell has an entry for
each non-terminal that has a binary derivation, and its score is the best of them. -/
theorem inside_eq_best_derivation {source : GrammarSource} {kind : PackingKind} {g : Grammar}
    (hcompile : Grammar.compile source kind = .ok g)
    (hbinary : ∀ rule ∈ source.rules, rule.isBinary = true)
    (hp : Reached g (fun _ => True) p) (ho : p.options.Unbeamed)
    (htime : p.options.timeLimit = none) (h : p.Accepts tokens words) (walk : BottomUp)
    (skipped : List Span) (merit : Merit) (clock : Clock) {s : Span}
    (hs : s.within tokens.length = true) (nt : UInt16) :
    let cell := (p.parseWith tokens (skipping walk skipped) merit clock).2.2.chart.cell s
    ((cell.get? nt).isSome ↔ ∃ d : Derivation, d.Competes g words skipped s nt) ∧
      ∀ e, cell.get? nt = some e →
        (∃ d : Derivation, d.Competes g words skipped s nt ∧
          d.score g words s.start.toNat = e.inside) ∧
        ∀ d : Derivation, d.Competes g words skipped s nt →
          d.score g words s.start.toNat ≤ e.inside := by
  have hg := Grammar.coherent_of_compile hcompile
  have hnone : ∀ parent child rule, ¬g.HasUnary parent child rule :=
    Grammar.no_unary_of_compile hcompile hbinary
  obtain ⟨rfl, hsound⟩ := hp.sound hg
  obtain ⟨hsize, hexhaustive, -⟩ :=
    h.exhaustive_unskipped walk skipped merit clock hg hsound ho (Or.inl htime)
  intro cell
  have hs' := hs
  rw [← hsize] at hs'
  have hbest : ∀ d : Derivation, d.Competes p.grammar words skipped s nt →
      ∃ e, cell.get? nt = some e ∧ d.score p.grammar words s.start.toNat ≤ e.inside := by
    rintro d ⟨rfl, hwidth, hbinary, hopen, hpresent⟩
    have hbound : s.start.toNat + d.width ≤ tokens.length := by
      rw [Span.within_iff] at hs
      rw [hwidth]
      unfold Span.length
      omega
    have hle := hexhaustive.le_inside hg hnone (by rw [hsize]; exact h.length_le_maximum)
      hbinary hopen (by rw [hsize]; exact hbound) hpresent
    rw [hwidth, Span.ofLength_length hs] at hle
    exact hle
  have hattained : ∀ e, cell.get? nt = some e →
      ∃ d : Derivation, d.Competes p.grammar words skipped s nt ∧
        d.score p.grammar words s.start.toNat = e.inside := by
    intro e he
    obtain ⟨d, hd⟩ := hexhaustive.exists_backs hg hs' he
    have hnt := ((hexhaustive.ordered s hs').get?_eq_some.1 he).2
    refine ⟨d, ⟨hd.root.trans hnt, hd.width, hd.licensed.binary hnone, hd.isOpen, ?_⟩, hd.score⟩
    rw [hd.score]
    exact hexhaustive.present hg hs' he
  refine ⟨⟨fun hsome => ?_, ?_⟩, fun e he => ⟨hattained e he, fun d hd => ?_⟩⟩
  · obtain ⟨e, he⟩ := Option.isSome_iff_exists.1 hsome
    obtain ⟨d, hd, -⟩ := hattained e he
    exact ⟨d, hd⟩
  · rintro ⟨d, hd⟩
    obtain ⟨e, he, -⟩ := hbest d hd
    exact Option.isSome_iff_exists.2 ⟨e, he⟩
  · obtain ⟨e', he', hle⟩ := hbest d hd
    rw [he] at he'
    cases he'
    exact hle

/-- The whole of a sentence of two words, in the sample without a unary rule. -/
theorem inside_eq_best_derivation_twice : ∃ g, Grammar.compile (.sample false) .shift = .ok g ∧
    let p := new g .default .default 1
    let cell := (p.parseWith ["a", "a"] (skipping .fresh []) .inside .stopped).2.2.chart.cell
      ⟨0, 2⟩
    ((cell.get? 1).isSome ↔ ∃ d : Derivation, d.Competes g #[0, 0] [] ⟨0, 2⟩ 1) ∧
      ∀ e, cell.get? 1 = some e →
        (∃ d : Derivation, d.Competes g #[0, 0] [] ⟨0, 2⟩ 1 ∧
          d.score g #[0, 0] 0 = e.inside) ∧
        ∀ d : Derivation, d.Competes g #[0, 0] [] ⟨0, 2⟩ 1 →
          d.score g #[0, 0] 0 ≤ e.inside := by
  obtain ⟨g, hg, hlexicon, -⟩ := Grammar.exists_sample false
  have hbinary : ∀ rule ∈ (GrammarSource.sample false).rules, rule.isBinary = true := by
    simp [GrammarSource.sample, LabelledRule.isBinary]
  have haccepts : (new g .default .default 1).Accepts ["a", "a"] #[0, 0] :=
    accepts_twice hlexicon (by change 2 ≤ min 200 65535; decide)
  exact ⟨g, hg, inside_eq_best_derivation hg hbinary (.new .default .default 1)
    ParserOptions.unbeamed_default rfl haccepts .fresh [] .inside .stopped (s := ⟨0, 2⟩)
    (by decide) 1⟩

end Parser
end ChartParsing

import ChartParsing.Proofs.Beam.Monotone
import ChartParsing.Proofs.Derivation.Closed
import ChartParsing.Proofs.Grammar.Bounded
import ChartParsing.Proofs.Grammar.Reordered
import ChartParsing.Proofs.Parser.Reuse

/-!
# Rooted charts

On a rooted chart the pointers of every entry lead to entries, and unary ones in no circle,
so a tree can be read off from any entry. Parsing leaves rooted charts, within any limits on
cells, if no unary rule raises a score and the figure of merit is monotone. For grammars that
are read from a text nothing is asked of scores that are no number: what is derived over a
span has no more rules and tags than twice its words, so no score becomes infinite.
-/

namespace ChartParsing

/-- Unary pointers among the entries of a cell end. -/
def Cell.Rooted (cell : Cell) : Prop := ∀ e ∈ cell.toList, Grounded cell.get? e.nt

/-- No entry of a cell is above a bound. -/
def Cell.Capped (cell : Cell) (n : Nat) : Prop := ∀ e ∈ cell.toList, Score.AtMost e.inside n

/-- The number of rules and tags that a binary derivation over a span is made of. -/
def Span.cap (s : Span) : Nat := 2 * s.length - 1

/-- The cells of the parts that a span can be split into have scores below their caps. -/
def Chart.PartsCapped (chart : Chart) (s : Span) : Prop :=
  ∀ m ∈ s.midpoints, (chart.cell ⟨s.start, m⟩).Capped (Span.cap ⟨s.start, m⟩) ∧
    (chart.cell ⟨m, s.stop⟩).Capped (Span.cap ⟨m, s.stop⟩)

/-- Scores are not added where no rule is listed twice, so none of them is above zero. -/
theorem Grammar.lowering_of_unrepeated {source : GrammarSource} {kind : PackingKind} {g : Grammar}
    (hlow : source.Lowered) (hs : source.Unrepeated) (h : compile source kind = .ok g) :
    g.Lowering := by
  intro parent child rule hrule
  have hfew : source.numbering.length ≤ 65535 := by
    by_contra hmany
    rw [compile_eq, if_pos (Nat.lt_of_not_le hmany)] at h
    cases h
  obtain ⟨-, -, binary, hmade⟩ := made_of_compile hfew h
  have hdistinct := (sameRules_productionsOf ⟨rfl, .refl _, .refl _⟩ hs hfew
    (.ofList source.words) (.ofList source.words)).unary_distinct
  rw [HasUnary, RowMatrix.mem_row hmade.unaryByParent] at hrule
  obtain ⟨t, ht, rfl⟩ := Triple.exists_of_total?_of_distinct
    (List.pairwise_map.2 (hdistinct.imp fun hne hrank => hne (by
      obtain ⟨hparent, hchild⟩ := Triple.place_eq_iff.1 hrank
      exact ⟨toUInt32_inj hparent, toUInt32_inj hchild⟩))) hrule
  obtain ⟨u, hu, rfl⟩ := List.mem_map.1 ht
  rw [unaryOf_productionsOf] at hu
  obtain ⟨r, hr, hu⟩ := List.mem_filterMap.1 hu
  split_ifs at hu
  obtain rfl := Option.some.inj hu
  exact hlow.rules r hr

namespace Chart

variable {chart : Chart}

/-- What each cell has of the cells of its parts, it has. -/
theorem partsCapped_of_cells (h : ∀ s, s.within chart.size = true → chart.PartsCapped s →
    (chart.cell s).Capped s.cap) {s : Span} (hs : s.within chart.size = true) :
    chart.PartsCapped s := by
  generalize hn : s.length = n
  induction n using Nat.strongRecOn generalizing s with
  | ind n ih =>
    subst hn
    intro m hm
    obtain ⟨⟨hs₁, hinside₁⟩, hs₂, hinside₂⟩ := Span.inside_of_mem_midpoints hs hm
    exact ⟨h _ hs₁ (ih _ (hinside₁.length_lt hs) hs₁ rfl),
      h _ hs₂ (ih _ (hinside₂.length_lt hs) hs₂ rfl)⟩

end Chart

namespace Workspace

variable {g : Grammar} {merit : Merit} {chart : Chart} {words : Array UInt32} {w : Workspace}
  {nt : UInt16} {e : ChartEntry}

/-- Nothing that is derived before the unary step is unary. -/
theorem plain_of_derived (hg : g.Coherent) {span : Span}
    (he : (Scratch.derived g chart words span).entryOf? nt = some e) (child : UInt16) :
    e.children ≠ .unary child := by
  obtain ⟨hmem, -⟩ := Scratch.mem_of_derived hg he
  unfold Scratch.derivedEntries at hmem
  split_ifs at hmem
  · obtain ⟨-, hchildren, -⟩ := Scratch.mem_tagEntries.1 hmem
    rw [hchildren]
    exact Children.noConfusion
  · obtain ⟨_, _, _, _, -, -, -, -, hchildren, -⟩ := (Scratch.mem_pairEntries hg).1 hmem
    rw [hchildren]
    exact Children.noConfusion

/-- A binary derivation over a span has a tag for each word and a rule for each pair of
neighbours, and each of these adds no more than the bound of a rule. -/
theorem atMost_of_derived (hg : g.Coherent) (hbounded : g.Bounded) {span : Span}
    (hspan : span.within chart.size = true) (hsize : chart.size ≤ 65535)
    (hparts : chart.PartsCapped span)
    (he : (Scratch.derived g chart words span).entryOf? nt = some e) :
    Score.AtMost e.inside span.cap := by
  have hwithin := hspan
  rw [Span.within_iff] at hwithin
  by_cases hone : span.length = 1
  · obtain ⟨hmem, -⟩ := Scratch.mem_of_derived hg he
    rw [Chart.derivedEntries_word hspan hone] at hmem
    obtain ⟨htag, -⟩ := Scratch.mem_tagEntries.1 hmem
    exact (hbounded.tag _ _ _ htag).mono (by unfold Span.cap; omega)
  · obtain ⟨key, rule, l, r, -, -, hrule, hmid, hl, hr, -, -, hinside⟩ :=
      Chart.exists_of_derived hg hspan hone he
    obtain ⟨hleft, hright⟩ := hparts e.midpoint hmid
    obtain ⟨-, hlength⟩ := Span.length_split hspan hmid
    rw [Span.mem_midpoints hspan] at hmid
    have hcap : 1 + ((⟨span.start, e.midpoint⟩ : Span).cap +
        (⟨e.midpoint, span.stop⟩ : Span).cap) = span.cap := by
      simp only [Span.cap, Span.length]
      omega
    have hsmall : span.cap < 2 ^ 24 := by
      simp only [Span.cap, Span.length]
      omega
    rw [hinside, ← hcap]
    exact (hbounded.binary _ _ _ _ hrule).add ((hleft l hl).add (hright r hr) (by omega))
      (by omega)

/-- The entries of a finished cell are grounded, and none is above all that was derived. -/
theorem Sound.finish_grounded (hg : g.Coherent) (hlowering : g.Lowering)
    (hmerit : merit.Monotone) (hw : w.Sound g)
    (hplain : ∀ nt e, w.scratch.entryOf? nt = some e → ∀ child, e.children ≠ .unary child)
    (hfinite : ∀ nt e, w.scratch.entryOf? nt = some e → Score.IsFinite e.inside)
    (job : CellJob) (cell : Cell) (he : (w.finish g merit job cell).1.get? nt = some e) :
    Grounded (w.finish g merit job cell).1.get? nt ∧
      ∃ m d, w.scratch.entryOf? m = some d ∧ e.inside ≤ d.inside := by
  unfold Workspace.finish at he ⊢
  cases hlimit : job.limit with
  | some width =>
    rw [hlimit] at he
    exact BeamSelector.select_grounded hg hlowering hmerit width job.held cell hw.scratch
      hw.beam hplain hfinite he
  | none =>
    rw [hlimit] at he
    dsimp only at he ⊢
    have hvalid := (Scratch.entryOf?_addUnaries job.span.stop hg hw.scratch hw.unaries).1
    have hget := funext (hvalid.get?_finalizeInto cell)
    rw [hget] at he ⊢
    rcases Scratch.entry_of_addUnaries hg hw.scratch hw.unaries he with
      hderived | ⟨child, rule, d, hrule, hd, hd', -, hinside, hchildren, -⟩
    · have hnumber := Score.isNaN_of_present (hfinite nt e hderived).present
      exact ⟨.plain he (hplain nt e hderived), nt, e, hderived, Score.le_self hnumber⟩
    · have hle := Score.le_zero_add (hlowering _ _ _ hrule) (Or.inr (hfinite child d hd))
      exact ⟨.unary he hchildren (.plain hd' (hplain child d hd)), child, d, hd,
        hinside ▸ hle.2⟩

/-- Whatever merits a workspace has, the cell that it fills is rooted, and below its cap if the
cells of the parts are. -/
theorem Sound.fill_rooted (hg : g.Coherent) (hbounded : g.Bounded) (hlowering : g.Lowering)
    (hmerit : merit.Monotone) (hw : w.Sound g) {job : CellJob}
    (hspan : job.span.within chart.size = true) (hsize : chart.size ≤ 65535)
    (hparts : chart.PartsCapped job.span) :
    (w.fill g merit chart words job).1.Rooted ∧
      (w.fill g merit chart words job).1.Capped job.span.cap := by
  have hw' : ({ w with spare := w.spare.tail } : Workspace).Sound g :=
    ⟨hw.pairs, hw.scratch, hw.unaries, hw.beam⟩
  obtain ⟨-, hsound, -, hagree⟩ := hw'.derive chart words hg hspan
  have hordered := (hw.fill_keeps chart words hg merit hspan).1
  have hcapped (nt : UInt16) (e : ChartEntry)
      (he : (Scratch.derived g chart words job.span).entryOf? nt = some e) :
      Score.AtMost e.inside job.span.cap :=
    atMost_of_derived hg hbounded hspan hsize hparts he
  have hfinished {nt : UInt16} {e : ChartEntry} :=
    @Sound.finish_grounded _ merit _ nt e hg hlowering hmerit hsound
      (fun nt e he => plain_of_derived hg ((hagree.entry nt).symm.trans he))
      (fun nt e he => (hcapped nt e ((hagree.entry nt).symm.trans he)).absent_or_finite.resolve_left
        (Scratch.present_of_entryOf? he)) job (w.spare.headD ∅)
  constructor
  · exact fun e he => (hfinished (hordered.get?_eq_some.2 ⟨he, rfl⟩)).1
  · intro e he
    obtain ⟨-, m, d, hd, hle⟩ := hfinished (hordered.get?_eq_some.2 ⟨he, rfl⟩)
    exact (hcapped m d ((hagree.entry m).symm.trans hd)).of_le hle

end Workspace

namespace Chart

/-- The chart is closed and all its cells are rooted. -/
structure Rooted (g : Grammar) (words : Array UInt32) (chart : Chart) : Prop where
  closed : chart.Closed g words
  cells : ∀ s, s.within chart.size = true → (chart.cell s).Rooted

variable {g : Grammar} {words : Array UInt32} {chart : Chart}

/-- A tree can be read off from every entry of a rooted chart. -/
theorem Rooted.exists_tree (h : chart.Rooted g words) {s : Span}
    (hs : s.within chart.size = true) {e : ChartEntry} (he : e ∈ (chart.cell s).toList) :
    ∃ t, chart.tree g s e.nt = .ok t := by
  obtain ⟨steps, hsteps⟩ := h.cells s hs e he
  refine h.closed.exists_treeWithin hs hsteps (fun t m d ht _ hd => ?_) _
    (Nat.le_of_lt (h.closed.follows_lt hs hsteps))
  obtain ⟨hmem, rfl⟩ := (h.closed.get?_iff ht).1 hd
  exact h.cells t ht d hmem

end Chart

namespace Parser

open Chart Workspace Schedule

variable {g : Grammar} {merit : Merit} {chart after : Chart} {words : Array UInt32}
  {jobs : List CellJob} {outcome : Except ParseError ParseStats} {p : Parser}
  {tokens : List String} {clock : Clock}

theorem Laid.finished (h : Laid g merit words jobs chart outcome after) :
    (∃ stats, outcome = .ok stats) ∨ GivenUp outcome := by
  induction h with
  | done => exact Or.inl ⟨_, rfl⟩
  | cancelled => exact Or.inr ⟨_, rfl⟩
  | step _ _ ih => exact ih

theorem Accepts.rooted (h : p.Accepts tokens words) (hg : p.grammar.Coherent) (hp : p.Sound)
    (hbounded : p.grammar.Bounded) (hlowering : p.grammar.Lowering) (hmerit : merit.Monotone)
    (walk : BottomUp) (layers : List Layer) (clock : Clock) :
    let r := p.fillChart tokens ⟨.bottomUp walk, layers⟩ merit clock
    r.2.2.chart.Rooted p.grammar words ∧ r.2.2.chart.size = tokens.length ∧
      ((∃ stats, r.1 = .ok stats) ∨ GivenUp r.1) := by
  intro r
  obtain ⟨hclosed, hsize, -⟩ := h.closed hg hp merit walk layers clock
  have hsettles : Settles fun chart s cell =>
      chart.PartsCapped s → cell.Rooted ∧ cell.Capped s.cap := by
    constructor
    · intro chart s _
      exact ⟨fun _ he => (List.not_mem_nil he).elim, fun _ he => (List.not_mem_nil he).elim⟩
    · intro chart chart' s cell hs hcell hsame hparts
      refine hcell fun m hm => ?_
      obtain ⟨hleft, hright⟩ := hsame m hm
      rw [← hleft, ← hright]
      exact hparts m hm
  obtain ⟨hcells, -⟩ := h.forall_cells hsettles hg hp merit walk layers clock
    fun chart job hsize hjob _ w hw => hw.fill_rooted hg hbounded hlowering hmerit hjob
      (hsize ▸ h.length_le_maximum)
  exact ⟨⟨hclosed, fun s hs => (hcells s hs (partsCapped_of_cells
      (fun s hs hparts => (hcells s hs hparts).2) hs)).1⟩, hsize,
    (h.fillChart_laid ⟨.bottomUp walk, layers⟩ merit clock hg hp).finished⟩

/-- What is read off a rooted chart is only missing if the start symbol is. -/
theorem extract_ne_noParse (h : p.chart.Rooted p.grammar words)
    (hsize : p.chart.size ≤ 65535) {e : ChartEntry}
    (he : p.chart.top?.bind (·.get? p.grammar.start) = some e) (tokens : List String)
    (stats : ParseStats) : p.extract tokens stats ≠ .error .noParse := by
  have hentry := he
  unfold top? at hentry
  split_ifs at hentry with hpos
  · have hwhole : p.chart.whole.within p.chart.size = true := by
      rw [whole_eq]
      exact Span.within_ofLength hsize hpos (by omega)
    obtain ⟨hmem, hnt⟩ := (h.closed.get?_iff hwhole).1 hentry
    obtain ⟨t, ht⟩ := h.exists_tree hwhole hmem
    rw [hnt] at ht
    unfold extract
    dsimp only
    rw [he]
    dsimp only
    rw [ht]
    exact fun h => nomatch h
  · cases hentry

/-- Parsing with a grammar that was read from a text, under a monotone figure of merit, leaves
no circle of unary pointers, whatever the limits on cells are and whatever the parser was used
for, if no unary rule raises a score.
Following unary pointers from any entry leads to one that is not unary, any entry has a tree,
and a sentence has no parse only if the start symbol has no entry over the whole of it. -/
theorem parse_grounded {matcher : Text.Matcher} {grammar lexicon : String} {kind : PackingKind}
    (htext : Grammar.ofText matcher grammar lexicon kind = .ok g) (hlowering : g.Lowering)
    (hmerit : merit.Monotone) (hp : Reached g (fun _ => True) p) (tokens : List String)
    (walk : BottomUp) (layers : List Layer) (clock : Clock) :
    let r := p.parseWith tokens ⟨.bottomUp walk, layers⟩ merit clock
    let chart := r.2.2.chart
    (p.rejects? tokens = none → chart.size = tokens.length) ∧
      (∀ s, s.within chart.size = true → ∀ e ∈ (chart.cell s).toList,
        Grounded (chart.cell s).get? e.nt ∧ ∃ t, chart.tree g s e.nt = .ok t) ∧
      (r.1 = .error .noParse → chart.top?.bind (·.get? g.start) = none) := by
  obtain ⟨source, hcompile, hlow⟩ := Grammar.compile_of_ofText htext
  have hg := Grammar.coherent_of_compile hcompile
  have hbounded := Grammar.bounded_of_compile hlow hcompile
  obtain ⟨rfl, hsound⟩ := hp.sound hg
  obtain ⟨-, hgrammar, -⟩ := fillChart_keeps hg hsound tokens ⟨.bottomUp walk, layers⟩ merit clock
  dsimp only
  rw [parseWith_snd, parseWith_fst]
  cases hreject : p.rejects? tokens with
  | some e =>
    obtain ⟨words, heq⟩ := fillChart_rejected ⟨.bottomUp walk, layers⟩ merit clock hreject
    rw [heq]
    refine ⟨(nomatch ·), fun s hs => ?_, fun _ => rfl⟩
    rw [Span.within_iff] at hs
    change _ ∧ s.stop.toNat ≤ 0 at hs
    omega
  | none =>
    obtain ⟨words, h⟩ := rejects?_eq_none.1 hreject
    obtain ⟨hrooted, hsize, hfinished⟩ :=
      h.rooted hg hsound hbounded hlowering hmerit walk layers clock
    have hmax := h.length_le_maximum
    generalize p.fillChart tokens ⟨.bottomUp walk, layers⟩ merit clock = filled at *
    obtain ⟨outcome, schedule, q⟩ := filled
    dsimp only at hrooted hsize hfinished hgrammar ⊢
    refine ⟨fun _ => hsize, fun s hs e he =>
      ⟨hrooted.cells s hs e he, hrooted.exists_tree hs he⟩, fun herror => ?_⟩
    rcases hfinished with ⟨stats, rfl⟩ | ⟨elapsed, rfl⟩
    · by_contra hne
      obtain ⟨e, he⟩ := Option.ne_none_iff_exists'.1 hne
      rw [← hgrammar] at he hrooted
      exact extract_ne_noParse hrooted (by omega) he tokens stats herror
    · cases herror

/-- A text with unary rules in a circle, and its grammar. -/
theorem exists_circle : ∃ g, Grammar.ofText .backtracking
      "S\nS -> S S -1\nS -> A -1\nA -> S -0.5" "A -> a -2" .perfectHash = .ok g ∧
    g.Lowering := by
  set source : GrammarSource := ⟨"S", [⟨"S", "S", some "S", -1⟩, ⟨"S", "A", none, -1⟩,
    ⟨"A", "S", none, -0.5⟩], [⟨"A", "a", none, -2⟩]⟩ with hsource
  have hread : GrammarSource.read .backtracking
      "S\nS -> S S -1\nS -> A -1\nA -> S -0.5" "A -> a -2" = .ok source := by
    refine GrammarSource.read_of_said Text.Matcher.lawful_backtracking ?_
    have hgrammar : GrammarSource.kept (GrammarSource.numbered
        "S\nS -> S S -1\nS -> A -1\nA -> S -0.5") =
          [⟨1, "S"⟩, ⟨2, "S -> S S -1"⟩, ⟨3, "S -> A -1"⟩, ⟨4, "A -> S -0.5"⟩] := by
      decide +kernel
    have hlexicon : GrammarSource.kept (GrammarSource.numbered "A -> a -2") =
        [⟨1, "A -> a -2"⟩] := by decide +kernel
    rw [hgrammar, hlexicon]
    have hvalue {value : String} {score : Score}
        (h : GrammarSource.logProb? value = some score) : GrammarSource.Means value score :=
      GrammarSource.logProb?_eq_some.1 h
    exact ⟨⟨[.start "S", .rule ⟨"S", "S", some "S", -1⟩, .rule ⟨"S", "A", none, -1⟩,
        .rule ⟨"A", "S", none, -0.5⟩],
      .cons (.start "S") (.cons (.binary (hvalue rfl)) (.cons (.unary (hvalue rfl))
        (.cons (.unary (hvalue rfl)) .nil))), rfl, rfl⟩, .cons (.word (hvalue rfl)) .nil⟩
  have hfew : source.numbering.length ≤ 65535 := by
    obtain ⟨hnodup, hmem, -⟩ := source.numbering_numbering
    have hsub : source.numbering ⊆ ["A", "S"] := by
      intro label hlabel
      have hlabel := (hmem label).1 hlabel
      simp [GrammarSource.IsLabel, GrammarSource.IsTag, hsource] at hlabel ⊢
      tauto
    exact (List.subperm_of_subset hnodup hsub).length_le.trans (by decide)
  rcases Grammar.compile_eq_of_few hfew .perfectHash with ⟨hkind, -⟩ | ⟨-, hok, -⟩
  · exact absurd rfl hkind
  · obtain ⟨g, hg⟩ := hok (GrammarSource.not_crowded_of_length (by decide) (by decide))
    refine ⟨g, by rw [Grammar.ofText, hread]; exact hg, ?_⟩
    exact Grammar.lowering_of_unrepeated (GrammarSource.lowered_of_read hread)
      (by constructor <;> simp [hsource]) hg

theorem parse_grounded_circle : ∃ g, Grammar.ofText .backtracking
      "S\nS -> S S -1\nS -> A -1\nA -> S -0.5" "A -> a -2" .perfectHash = .ok g ∧
    g.Lowering ∧
    let merit := Merit.ofScore fun _ _ _ inside => if inside < -5 then 0 else 1
    let options := { ParserOptions.default with beamWidth := some 2, wordBeamWidth := some 1 }
    let layers := [.widths [(⟨0, 2⟩, 1)], .skip [⟨0, 1⟩]]
    let p := new g options .default 1
    let r := p.parseWith ["a", "a"] ⟨.bottomUp .fresh, layers⟩ merit .stopped
    let chart := r.2.2.chart
    merit.Monotone ∧ (p.rejects? ["a", "a"] = none → chart.size = 2) ∧
      (∀ s, s.within chart.size = true → ∀ e ∈ (chart.cell s).toList,
        Grounded (chart.cell s).get? e.nt ∧ ∃ t, chart.tree g s e.nt = .ok t) ∧
      (r.1 = .error .noParse → chart.top?.bind (·.get? g.start) = none) := by
  obtain ⟨g, htext, hlowering⟩ := exists_circle
  exact ⟨g, htext, hlowering, Merit.monotone_below (-5),
    parse_grounded htext hlowering (Merit.monotone_below (-5)) (.new _ .default 1) ["a", "a"]
      .fresh [.widths [(⟨0, 2⟩, 1)], .skip [⟨0, 1⟩]] .stopped⟩

end Parser
end ChartParsing

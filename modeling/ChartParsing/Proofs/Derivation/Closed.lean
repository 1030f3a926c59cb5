import ChartParsing.Proofs.Beam.Closed
import ChartParsing.Proofs.Derivation.Pointers
import ChartParsing.Proofs.Parser.Laid

/-!
# Closed charts

Parsing leaves closed charts, whatever the limits on cells are, whatever figure of merit ranks
what is kept, and whatever merits were left in the selectors: what is kept of a cell still has
what it points to, in the same cell or in the cells of its parts.
-/

namespace ChartParsing

open Relation

/-- No cell has more entries than its limit, if it has one. -/
def Cell.WithinLimit (limit : Option Nat) (cell : Cell) : Prop :=
  ∀ width, limit = some width → cell.size ≤ width

namespace Workspace

variable {g : Grammar} {chart : Chart} {words : Array UInt32} {w : Workspace} {nt : UInt16}
  {e : ChartEntry}

/-- An entry of a finished cell was derived before, or by a unary rule from an entry that the
cell still has. -/
theorem Sound.finish_closed (hg : g.Coherent) (hw : w.Sound g) (merit : Merit) (job : CellJob)
    (cell : Cell) :
    (w.finish g merit job cell).1.WithinLimit job.limit ∧
      ∀ nt e, (w.finish g merit job cell).1.get? nt = some e →
        nt.toNat < g.size ∧ e.inside ≠ Score.absent ∧
          (w.scratch.entryOf? nt = some e ∨ ∃ child rule d, e.children = .unary child ∧
            e.midpoint = job.span.stop ∧ g.HasUnary nt child rule ∧
            (w.finish g merit job cell).1.get? child = some d) := by
  unfold Workspace.finish Cell.WithinLimit
  cases hlimit : job.limit with
  | some width =>
    obtain ⟨hsize, hclosed⟩ := BeamSelector.select_closed hg merit job.span width job.held cell
      hw.scratch hw.beam
    refine ⟨fun width' heq => ?_, hclosed⟩
    cases heq
    exact hsize
  | none =>
    refine ⟨fun width heq => (nomatch heq), fun nt e he => ?_⟩
    dsimp only at he ⊢
    have hvalid := (Scratch.entryOf?_addUnaries job.span.stop hg hw.scratch hw.unaries).1
    rw [hvalid.get?_finalizeInto] at he
    refine ⟨hvalid.lt ((hvalid.mem_iff nt).2 ⟨e, he⟩), Scratch.present_of_entryOf? he, ?_⟩
    rcases Scratch.entry_of_addUnaries hg hw.scratch hw.unaries he with
      hderived | ⟨child, rule, d, hrule, -, hd, -, -, hchildren, hmid⟩
    · exact Or.inl hderived
    · refine Or.inr ⟨child, rule, d, hchildren, hmid, hrule, ?_⟩
      rw [hvalid.get?_finalizeInto]
      exact hd

/-- What is derived over a span before the unary step is supported without it. -/
theorem supports_of_derived (hg : g.Coherent) {s : Span} (hs : s.within chart.size = true)
    (hwords : chart.size ≤ words.size) {cell : Cell}
    (he : (Scratch.derived g chart words s).entryOf? nt = some e) :
    cell.Supports g words chart s e := by
  obtain rfl := Scratch.nt_of_entryOf? he
  unfold Cell.Supports
  by_cases hone : s.length = 1
  · obtain ⟨hmem, -⟩ := Scratch.mem_of_derived hg he
    rw [Chart.derivedEntries_word hs hone] at hmem
    obtain ⟨htag, hchildren, -⟩ := Scratch.mem_tagEntries.1 hmem
    rw [hchildren]
    rw [Span.within_iff] at hs
    have hlt : s.start.toNat < words.size := by omega
    refine ⟨hone, ?_, _, htag⟩
    rw [Array.getD_eq_getD_getElem?, Array.getElem?_eq_getElem hlt]
    rfl
  · obtain ⟨key, rule, l, r, hchildren, hpack, hrule, hmid, hl, hr, -⟩ :=
      Chart.exists_of_derived hg hs hone he
    rw [Span.mem_midpoints hs, ← UInt16.lt_iff_toNat_lt, ← UInt16.lt_iff_toNat_lt] at hmid
    rw [hchildren]
    exact ⟨hmid.1, hmid.2, l, hl, r, hr, (hg.unpack_of_pack hpack).1, rule, hrule⟩

/-- Whatever merits a workspace has, the cell that it fills is closed and within its limit. -/
theorem Sound.fill_closed (hg : g.Coherent) (hw : w.Sound g) (merit : Merit) {job : CellJob}
    (hspan : job.span.within chart.size = true) (hwords : chart.size ≤ words.size) :
    (w.fill g merit chart words job).1.WithinLimit job.limit ∧
      (w.fill g merit chart words job).1.Closed g words chart job.span := by
  have hw' : ({ w with spare := w.spare.tail } : Workspace).Sound g :=
    ⟨hw.pairs, hw.scratch, hw.unaries, hw.beam⟩
  obtain ⟨-, hsound, -, hagree⟩ := hw'.derive chart words hg hspan
  have hordered := (hw.fill_keeps chart words hg merit hspan).1
  obtain ⟨hlimit, hclosed⟩ : (w.fill g merit chart words job).1.WithinLimit job.limit ∧ _ :=
    hsound.finish_closed hg merit job (w.spare.headD ∅)
  have hget {e : ChartEntry} (he : e ∈ (w.fill g merit chart words job).1.toList) :=
    hclosed e.nt e (hordered.get?_eq_some.2 ⟨he, rfl⟩)
  refine ⟨hlimit, hordered, fun e he => (hget he).1, fun e he => (hget he).2.1, fun e he => ?_⟩
  obtain ⟨-, -, hderived | ⟨child, rule, d, hchildren, hmid, hrule, hd⟩⟩ := hget he
  · rw [hagree.entry] at hderived
    exact supports_of_derived hg hspan hwords hderived
  · obtain ⟨hmem, hnt⟩ := hordered.get?_eq_some.1 hd
    unfold Cell.Supports
    rw [hchildren]
    exact ⟨hmid, d, hmem, hnt, rule, hrule⟩

end Workspace

namespace Cell

variable {g : Grammar} {words : Array UInt32} {chart chart' : Chart} {s : Span} {cell : Cell}

theorem closed_empty (g : Grammar) (words : Array UInt32) (chart : Chart) (s : Span) :
    Closed g words chart s ∅ :=
  ⟨ordered_empty, fun _ he => (List.not_mem_nil he).elim, fun _ he => (List.not_mem_nil he).elim,
    fun _ he => (List.not_mem_nil he).elim⟩

/-- Whether a cell is closed depends on the cells that its span can be split into. -/
theorem Closed.congr (hs : s.within chart.size = true) (h : cell.Closed g words chart s)
    (hsame : ∀ m ∈ s.midpoints, chart'.cell ⟨s.start, m⟩ = chart.cell ⟨s.start, m⟩ ∧
      chart'.cell ⟨m, s.stop⟩ = chart.cell ⟨m, s.stop⟩) : cell.Closed g words chart' s := by
  refine ⟨h.ordered, h.lt, h.present, fun e he => ?_⟩
  have hsupports := h.supports e he
  unfold Supports at hsupports ⊢
  cases hchildren : e.children with
  | lexical word => rwa [hchildren] at hsupports
  | unary child => rwa [hchildren] at hsupports
  | binary key =>
    rw [hchildren] at hsupports
    dsimp only at hsupports ⊢
    have hmid : e.midpoint ∈ s.midpoints := by
      rw [Span.mem_midpoints hs, ← UInt16.lt_iff_toNat_lt, ← UInt16.lt_iff_toNat_lt]
      exact ⟨hsupports.1, hsupports.2.1⟩
    obtain ⟨hleft, hright⟩ := hsame e.midpoint hmid
    rwa [hleft, hright]

end Cell

namespace Parser

open Chart Workspace

variable {g : Grammar} {words : Array UInt32} {p : Parser} {tokens : List String}

/-- All cells of a sentence that is walked bottom-up are closed and within their limits. -/
theorem Accepts.closed (h : p.Accepts tokens words) (hg : p.grammar.Coherent) (hp : p.Sound)
    (merit : Merit) (walk : BottomUp) (layers : List Layer) (clock : Clock) :
    let schedule : Schedule := ⟨.bottomUp walk, layers⟩
    let chart := (p.fillChart tokens schedule merit clock).2.2.chart
    chart.Closed p.grammar words ∧ chart.size = tokens.length ∧
      ∀ s, s.within chart.size = true → (chart.cell s).WithinLimit
        (tighter (p.options.cellLimit? s) (schedule.limit? s)) := by
  intro schedule chart
  have hsettles : Settles fun chart s cell => cell.WithinLimit
      (tighter (p.options.cellLimit? s) (schedule.limit? s)) ∧
        cell.Closed p.grammar words chart s := by
    constructor
    · intro chart s
      exact ⟨fun _ _ => Nat.zero_le _, Cell.closed_empty _ _ _ _⟩
    · rintro chart chart' s cell hs ⟨hlimit, hclosed⟩ hsame
      exact ⟨hlimit, hclosed.congr hs hsame⟩
  obtain ⟨hcells, hsize⟩ := h.forall_cells hsettles hg hp merit walk layers clock
    fun chart job hsize hjob hlimit w hw => by
      have hfill := hw.fill_closed hg merit hjob (Nat.le_of_eq (hsize.trans h.size_words.symm))
      rwa [hlimit] at hfill
  exact ⟨fun s hs => (hcells s hs).2, hsize, fun s hs => (hcells s hs).1⟩

/-- Parsing leaves a closed chart whose cells are within their limits, under any figure of
merit and whatever the parser was used for. No entry has the score of what is absent, and each
has what it points to and a rule that derives it. Only a circle of unary pointers that its
pointers lead into keeps an entry from having a tree. -/
theorem parse_closed {source : GrammarSource} {kind : PackingKind}
    (hcompile : Grammar.compile source kind = .ok g) (hp : Reached g (fun _ => True) p)
    (tokens : List String) (walk : BottomUp) (layers : List Layer) (merit : Merit)
    (clock : Clock) :
    let schedule : Schedule := ⟨.bottomUp walk, layers⟩
    let chart := (p.parseWith tokens schedule merit clock).2.2.chart
    let words := (p.vocabulary.words g.lexicon tokens #[]).2
    (p.rejects? tokens = none → chart.size = tokens.length ∧
      words.toList.map some = tokens.map (p.vocabulary.word? g.lexicon)) ∧
    ∀ s, s.within chart.size = true →
      (∀ width, tighter (p.options.cellLimit? s) (schedule.limit? s) = some width →
        (chart.cell s).size ≤ width) ∧
      ∀ e ∈ (chart.cell s).toList, e.inside ≠ Score.absent ∧
        (chart.cell s).Supports g words chart s e ∧
        ((∃ t, chart.tree g s e.nt = .ok t) ↔
          ∀ t m, ReflTransGen (Leads g chart) (s, e.nt) (t, m) →
            ¬TransGen (Points (chart.cell t).get?) m m) := by
  have hg := Grammar.coherent_of_compile hcompile
  obtain ⟨rfl, hsound⟩ := hp.sound hg
  dsimp only
  rw [parseWith_snd]
  cases hreject : p.rejects? tokens with
  | some e =>
    obtain ⟨words, heq⟩ := fillChart_rejected ⟨.bottomUp walk, layers⟩ merit clock hreject
    rw [heq]
    refine ⟨(nomatch ·), fun s hs => ?_⟩
    rw [Span.within_iff] at hs
    change _ ∧ s.stop.toNat ≤ 0 at hs
    omega
  | none =>
    obtain ⟨words, h⟩ := rejects?_eq_none.1 hreject
    obtain ⟨hclosed, hsize, hlimits⟩ := h.closed hg hsound merit walk layers clock
    rw [h.words]
    refine ⟨fun _ => ⟨hsize, h.words_eq⟩, fun s hs => ⟨hlimits s hs, fun e he => ?_⟩⟩
    have hcell := hclosed s hs
    exact ⟨hcell.present e he, hcell.supports e he,
      hclosed.exists_tree_iff hs ((hclosed.get?_iff hs).2 ⟨he, rfl⟩)⟩

theorem parse_closed_twice : ∃ g, Grammar.compile (.sample true) .shift = .ok g ∧
    let options := { ParserOptions.default with beamWidth := some 2, wordBeamWidth := some 1 }
    let layers := [.widths [(⟨0, 2⟩, 1)], .skip [⟨0, 1⟩]]
    let p := new g options .default 1
    let schedule : Schedule := ⟨.bottomUp .fresh, layers⟩
    let chart := (p.parseWith ["a", "a"] schedule .inside .stopped).2.2.chart
    let words := (p.vocabulary.words g.lexicon ["a", "a"] #[]).2
    (p.rejects? ["a", "a"] = none → chart.size = 2 ∧
      words.toList.map some = ["a", "a"].map (p.vocabulary.word? g.lexicon)) ∧
    ∀ s, s.within chart.size = true →
      (∀ width, tighter (options.cellLimit? s) (schedule.limit? s) = some width →
        (chart.cell s).size ≤ width) ∧
      ∀ e ∈ (chart.cell s).toList, e.inside ≠ Score.absent ∧
        (chart.cell s).Supports g words chart s e ∧
        ((∃ t, chart.tree g s e.nt = .ok t) ↔
          ∀ t m, ReflTransGen (Leads g chart) (s, e.nt) (t, m) →
            ¬TransGen (Points (chart.cell t).get?) m m) := by
  obtain ⟨g, hcompile, -⟩ := Grammar.exists_sample true
  exact ⟨g, hcompile, parse_closed hcompile (.new _ .default 1) ["a", "a"] .fresh
    [.widths [(⟨0, 2⟩, 1)], .skip [⟨0, 1⟩]] .inside .stopped⟩

end Parser
end ChartParsing

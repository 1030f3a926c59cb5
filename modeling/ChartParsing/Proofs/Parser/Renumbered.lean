import ChartParsing.Proofs.Beam.Renumbered
import ChartParsing.Proofs.Parser.Repacked

/-!
# Parsing with other numbers of words

Two parsers whose grammars differ in the numbers of words alone read a sentence as words that
correspond, and then go through the same steps: their charts and workspaces differ in the
numbers of words alone, before every cell and after it. A tree does not name the numbers of
its words, so nothing of them is left in a result.
-/

namespace ChartParsing

variable (f : UInt32 → UInt32)

/-! ## Filling a cell -/

namespace Workspace

def mapWord (w : Workspace) : Workspace :=
  { w with
    scratch := w.scratch.mapWord f
    unaries := w.unaries.mapWord f
    beam := w.beam.mapWord f
    spare := w.spare.map (Cell.mapWord f) }

variable (w : Workspace) (g : Grammar) (lexicon : LabelTable) (lexical : ColumnMatrix)

theorem mapWord_new : (new g).mapWord f = new (g.withLexicon lexicon lexical) := by
  unfold new mapWord
  simp only [Scratch.mapWord_new, BeamSelector.mapWord_new, List.map_nil]
  rfl

theorem derive_mapWord (c : Chart) {words words' : Array UInt32} {span : Span}
    (hword : words'.getD span.start.toNat 0 = f (words.getD span.start.toNat 0))
    (hcolumn : lexical.column (f (words.getD span.start.toNat 0)) =
      g.lexical.column (words.getD span.start.toNat 0)) :
    (w.mapWord f).derive (g.withLexicon lexicon lexical) (c.mapWord f) words' span =
      Prod.map id (mapWord f) (w.derive g c words span) := by
  have hadded := Scratch.addWord_mapWord f g lexicon lexical w.scratch.reset hcolumn
  have hpairs := PairTable.addSpan_mapWord f g lexicon lexical c span w.pairs.clear
  unfold derive
  dsimp only [mapWord]
  rw [hword, hpairs, Scratch.reset_mapWord, hadded, Scratch.addPairs_mapWord]
  split_ifs <;> rfl

theorem finish_mapWord (merit : Merit) (job : CellJob) (cell : Cell) :
    (w.mapWord f).finish (g.withLexicon lexicon lexical) merit job (cell.mapWord f) =
      Prod.map (Cell.mapWord f) (mapWord f) (w.finish g merit job cell) := by
  unfold finish
  dsimp only [mapWord]
  cases job.limit with
  | some width =>
    dsimp only
    rw [BeamSelector.select_mapWord]
    rfl
  | none =>
    dsimp only
    rw [Scratch.addUnaries_mapWord, Scratch.finalizeInto_mapWord]
    rfl

/-- A cell is filled with the same entries, and the tables are left the same. -/
theorem fill_mapWord (merit : Merit) (c : Chart) {words words' : Array UInt32} {job : CellJob}
    (hword : words'.getD job.span.start.toNat 0 = f (words.getD job.span.start.toNat 0))
    (hcolumn : lexical.column (f (words.getD job.span.start.toNat 0)) =
      g.lexical.column (words.getD job.span.start.toNat 0)) :
    (w.mapWord f).fill (g.withLexicon lexicon lexical) merit (c.mapWord f) words' job =
      Prod.map (Cell.mapWord f) (Prod.map id (mapWord f)) (w.fill g merit c words job) := by
  have htarget : (w.mapWord f).spare.headD ∅ = (w.spare.headD ∅).mapWord f := by
    cases hspare : w.spare <;> simp [mapWord, hspare]
  have hrest : { w.mapWord f with spare := (w.mapWord f).spare.tail } =
      ({ w with spare := w.spare.tail } : Workspace).mapWord f := by
    simp [mapWord]
  unfold fill
  rw [htarget, hrest, derive_mapWord f _ g lexicon lexical c hword hcolumn]
  simp only [Prod.map_fst, Prod.map_snd, finish_mapWord, Cell.size_mapWord]
  rfl

end Workspace

/-! ## Reading a sentence -/

namespace Vocabulary

variable {f} {lexicon lexicon' : LabelTable}

theorem word?_renumbered (v : Vocabulary)
    (h : ∀ word, lexicon'.number? word = (lexicon.number? word).map f) (token : String) :
    v.word? lexicon' token = (v.word? lexicon token).map f := by
  unfold word?
  rw [h, h, h]
  cases lexicon.number? token <;> cases lexicon.number? (Text.lowercase token) <;> rfl

theorem words_renumbered (v : Vocabulary)
    (h : ∀ word, lexicon'.number? word = (lexicon.number? word).map f) (tokens : List String)
    (found : Array UInt32) : v.words lexicon' tokens (found.map f) =
      Prod.map id (Array.map f) (v.words lexicon tokens found) := by
  induction tokens generalizing found with
  | nil => rfl
  | cons token tokens ih =>
    unfold words
    rw [word?_renumbered v h]
    cases v.word? lexicon token with
    | none => rfl
    | some word =>
      simp only [Option.map_some]
      rw [← Array.map_push, ih]

/-- A token stands for nothing but words of the lexicon. -/
theorem exists_of_word? {v : Vocabulary} {token : String} {n : UInt32}
    (h : v.word? lexicon token = some n) : ∃ word, lexicon.number? word = some n := by
  unfold word? at h
  rcases Option.or_eq_some_iff.1 h with hfound | ⟨-, h⟩
  · exact ⟨_, hfound⟩
  · rcases Option.or_eq_some_iff.1 h with hfound | ⟨-, hfound⟩
    · exact ⟨_, hfound⟩
    · exact ⟨_, hfound⟩

end Vocabulary

/-! ## Trees -/

namespace Chart

variable (g : Grammar) (lexicon : LabelTable) (lexical : ColumnMatrix) (c : Chart)

/-- A tree has no numbers of words in it. -/
theorem treeWithin_mapWord (overruns : Nat) (span : Span) (nt : UInt16) (unaries : Nat) :
    (c.mapWord f).treeWithin (g.withLexicon lexicon lexical) overruns span nt unaries =
      c.treeWithin g overruns span nt unaries := by
  have hsize : (g.withLexicon lexicon lexical).size = g.size := rfl
  have hpacking : (g.withLexicon lexicon lexical).packing = g.packing := rfl
  have hholds : (c.mapWord f).holds span = c.holds span := rfl
  rw [Chart.treeWithin, Chart.treeWithin, hholds, cell_mapWord, Cell.get?_mapWord, hsize, hpacking]
  cases c.holds span with
  | false => rfl
  | true =>
    rw [if_pos rfl, if_pos rfl]
    cases (c.cell span).get? nt with
    | none => rfl
    | some entry =>
      obtain ⟨nt', inside, children, midpoint⟩ := entry
      dsimp only [Option.map_some, ChartEntry.mapWord]
      cases children with
      | lexical word => rfl
      | unary child =>
        cases unaries with
        | zero => rfl
        | succ unaries =>
          dsimp only [Children.mapWord]
          rw [treeWithin_mapWord overruns span child unaries]
      | binary key =>
        dsimp only [Children.mapWord]
        cases g.packing.unpack key with
        | none => rfl
        | some pair =>
          obtain ⟨left, right⟩ := pair
          dsimp only
          split_ifs with hinside
          · have hstart := UInt16.lt_iff_toNat_lt.1 hinside.1
            have hstop := UInt16.lt_iff_toNat_lt.1 hinside.2
            rw [treeWithin_mapWord overruns ⟨span.start, midpoint⟩ left g.size,
              treeWithin_mapWord overruns ⟨midpoint, span.stop⟩ right g.size]
          · rfl
          · cases overruns with
            | zero => rfl
            | succ overruns =>
              dsimp only
              rw [treeWithin_mapWord overruns ⟨span.start, midpoint⟩ left g.size]
termination_by (overruns, span.stop.toNat - span.start.toNat, unaries)
decreasing_by
  · exact Prod.Lex.right _ (Prod.Lex.left _ _ (by omega))
  · exact Prod.Lex.right _ (Prod.Lex.left _ _ (by omega))
  · exact Prod.Lex.left _ _ (by omega)
  · exact Prod.Lex.right _ (Prod.Lex.right _ (by omega))

theorem tree_mapWord (span : Span) (nt : UInt16) :
    (c.mapWord f).tree (g.withLexicon lexicon lexical) span nt = c.tree g span nt :=
  treeWithin_mapWord f g lexicon lexical c _ span nt g.size

end Chart

/-! ## Sentences -/

namespace Parser

/-- Two parsers that treat sentences alike and whose charts and tables differ in the numbers of
words alone. -/
structure Renumbered (p q : Parser) : Prop where
  grammar : p.grammar.Renumbers q.grammar f
  options : q.options = p.options
  vocabulary : q.vocabulary = p.vocabulary
  chart : q.chart = p.chart.mapWord f
  workspace : q.workspace = p.workspace.mapWord f

/-- The words of two sentences correspond and have the same tags. -/
structure Corresponds (p q : Parser) : Prop where
  size : p.words.size = p.chart.size
  words : q.words = p.words.map f
  column : ∀ word ∈ p.words,
    q.grammar.lexical.column (f word) = p.grammar.lexical.column word

variable {f} {p q : Parser} {tokens : List String} {words : Array UInt32} {merit : Merit}

theorem Corresponds.getD (h : p.Corresponds f q) {span : Span}
    (hspan : span.within p.chart.size = true) :
    q.words.getD span.start.toNat 0 = f (p.words.getD span.start.toNat 0) ∧
      p.words.getD span.start.toNat 0 ∈ p.words := by
  have hlt : span.start.toNat < p.words.size := by
    rw [h.size]
    have := Span.within_iff.1 hspan
    omega
  simp [h.words, Array.getD_eq_getD_getElem?, hlt]

/-- Filling a cell leaves the differences as they are. -/
theorem Renumbered.runJob (h : p.Renumbered f q) (hwords : p.Corresponds f q) (merit : Merit)
    {job : CellJob} (hjob : job.span.within p.chart.size = true) :
    (q.runJob merit job).1 = (p.runJob merit job).1 ∧
      (p.runJob merit job).2.Renumbered f (q.runJob merit job).2 ∧
      (p.runJob merit job).2.Corresponds f (q.runJob merit job).2 := by
  obtain ⟨hword, hmem⟩ := hwords.getD hjob
  have hfill := Workspace.fill_mapWord f p.workspace p.grammar q.grammar.lexicon
    q.grammar.lexical merit p.chart hword (hwords.column _ hmem)
  rw [← h.grammar.same, ← h.workspace, ← h.chart] at hfill
  unfold Parser.runJob
  rw [hfill]
  dsimp only [Prod.map_fst, Prod.map_snd, id_eq]
  have hreplace := p.chart.replace_mapWord f job.span
    (p.workspace.fill p.grammar merit p.chart p.words job).1
  rw [← h.chart] at hreplace
  rw [hreplace]
  refine ⟨rfl, ⟨h.grammar, h.options, h.vocabulary, rfl, rfl⟩, ?_⟩
  exact ⟨hwords.size, hwords.words, hwords.column⟩

/-- Without a limit on the time two runs keep in step, whatever their clocks show. -/
theorem Renumbered.runSerial (h : p.Renumbered f q) (hwords : p.Corresponds f q)
    (htime : p.options.timeLimit = none) (merit : Merit) (clock clock' : Clock)
    {jobs : List CellJob} (hjobs : ∀ job ∈ jobs, job.span.within p.chart.size = true)
    (looks : Nat) (stats : ParseStats) :
    (q.runSerial merit clock' looks jobs stats).1 =
        (p.runSerial merit clock looks jobs stats).1 ∧
      (p.runSerial merit clock looks jobs stats).2.Renumbered f
        (q.runSerial merit clock' looks jobs stats).2 := by
  induction jobs generalizing p q looks stats with
  | nil => exact ⟨rfl, h⟩
  | cons job jobs ih =>
    have htime' : q.options.timeLimit = none := by
      rw [h.options]
      exact htime
    obtain ⟨hstats, hnext, hnextWords⟩ := h.runJob hwords merit (hjobs job List.mem_cons_self)
    unfold Parser.runSerial
    rw [checkTime_of_unlimited htime, checkTime_of_unlimited htime']
    dsimp only
    rw [hstats]
    exact ih hnext hnextWords htime (fun other hother => hjobs other (List.mem_cons_of_mem _ hother))
      _ _

theorem Renumbered.words_eq (h : p.Renumbered f q) (tokens : List String) :
    q.vocabulary.words q.grammar.lexicon tokens #[] =
      Prod.map id (Array.map f) (p.vocabulary.words p.grammar.lexicon tokens #[]) := by
  have hwords := Vocabulary.words_renumbered p.vocabulary h.grammar.number tokens #[]
  rw [h.vocabulary, ← hwords, Array.map_empty]

theorem Renumbered.rejects? (h : p.Renumbered f q) (tokens : List String) :
    q.rejects? tokens = p.rejects? tokens := by
  unfold Parser.rejects?
  rw [h.options, h.words_eq]
  rfl

theorem Renumbered.accepts (h : p.Renumbered f q) (haccepts : p.Accepts tokens words) :
    q.Accepts tokens (words.map f) := by
  refine ⟨haccepts.nonempty, ?_, ?_⟩
  · rw [h.options]
    exact haccepts.length_le
  · rw [h.words_eq, haccepts.words]
    rfl

theorem Renumbered.jobs_eq (h : p.Renumbered f q) (length : Nat) (schedule : Schedule) :
    q.jobs length schedule = p.jobs length schedule := by
  unfold Parser.jobs
  rw [h.options]

theorem Renumbered.begin (h : p.Renumbered f q) (haccepts : p.Accepts tokens words) :
    (p.begin tokens words).Renumbered f (q.begin tokens (words.map f)) ∧
      (p.begin tokens words).Corresponds f (q.begin tokens (words.map f)) := by
  constructor
  · refine ⟨h.grammar, h.options, h.vocabulary, ?_, h.workspace⟩
    unfold Parser.begin
    dsimp only
    rw [Chart.mapWord_clear]
    exact Chart.clear_congr _ _ haccepts.length_le_maximum
  · refine ⟨haccepts.size_words, rfl, fun word hword => ?_⟩
    have hmem : some word ∈ tokens.map (p.vocabulary.word? p.grammar.lexicon) := by
      rw [← haccepts.words_eq]
      exact List.mem_map.2 ⟨word, hword.val, rfl⟩
    obtain ⟨token, -, htoken⟩ := List.mem_map.1 hmem
    obtain ⟨label, hlabel⟩ := Vocabulary.exists_of_word? htoken
    exact h.grammar.column label word hlabel

/-- A sentence is rejected by both parsers for the same reason, or fills charts that correspond. -/
theorem Renumbered.fillChart (h : p.Renumbered f q) (hserial : p.options.parallel = false)
    (htime : p.options.timeLimit = none) (tokens : List String) (schedule : Schedule)
    (merit : Merit) (clock clock' : Clock) :
    let x := p.fillChart tokens schedule merit clock
    let y := q.fillChart tokens schedule merit clock'
    y.1 = x.1 ∧ y.2.1 = x.2.1 ∧ x.2.2.Renumbered f y.2.2 := by
  cases hreject : p.rejects? tokens with
  | some e =>
    obtain ⟨words, heq⟩ := fillChart_rejected schedule merit clock hreject
    obtain ⟨words', heq'⟩ :=
      fillChart_rejected schedule merit clock' ((h.rejects? tokens).trans hreject)
    rw [heq, heq']
    refine ⟨rfl, rfl, h.grammar, h.options, h.vocabulary, ?_, h.workspace⟩
    dsimp only
    rw [Chart.mapWord_clear]
    exact Chart.clear_congr _ _ (Nat.zero_le _)
  | none =>
    obtain ⟨words, haccepts⟩ := rejects?_eq_none.1 hreject
    obtain ⟨hbegin, hwords⟩ := h.begin haccepts
    have hserial' : q.options.parallel = false := by
      rw [h.options]
      exact hserial
    rw [haccepts.fillChart_eq, (h.accepts haccepts).fillChart_eq, h.jobs_eq]
    dsimp only
    rw [run_of_serial (p := p.begin tokens words) hserial,
      run_of_serial (p := q.begin tokens (words.map f)) hserial']
    have hjobs : ∀ job ∈ (p.jobs tokens.length schedule).1,
        job.span.within tokens.length = true := jobs_within haccepts.toNat_length
    have hrun := hbegin.runSerial hwords htime merit clock clock' hjobs 0
      { ParseStats.zero with sentenceLength := tokens.length }
    exact ⟨hrun.1, rfl, hrun.2⟩

/-- The same is read off charts that correspond. -/
theorem Renumbered.extract (h : p.Renumbered f q) (tokens : List String) (stats : ParseStats) :
    q.extract tokens stats = p.extract tokens stats := by
  have hsame := h.grammar.same
  have hstart : q.grammar.start = p.grammar.start := by
    rw [hsame]
    rfl
  have hlabels : q.grammar.labels = p.grammar.labels := by
    rw [hsame]
    rfl
  have hlabel : q.grammar.label = p.grammar.label := by
    funext nt
    unfold Grammar.label Grammar.label?
    rw [hlabels]
  have hwhole : q.chart.whole = p.chart.whole := by
    rw [h.chart]
    rfl
  have htree (span : Span) (nt : UInt16) :
      q.chart.tree q.grammar span nt = p.chart.tree p.grammar span nt := by
    rw [h.chart, hsame]
    exact Chart.tree_mapWord f p.grammar _ _ p.chart span nt
  have htop : q.chart.top?.bind (·.get? p.grammar.start) =
      (p.chart.top?.bind (·.get? p.grammar.start)).map (·.mapWord f) := by
    rw [h.chart, Chart.top?_mapWord]
    cases p.chart.top? <;> simp
  unfold Parser.extract
  dsimp only
  rw [hstart, hlabel, hwhole, htree, htop]
  cases p.chart.top?.bind (·.get? p.grammar.start) <;> rfl

theorem Renumbered.parseWith (h : p.Renumbered f q) (hserial : p.options.parallel = false)
    (htime : p.options.timeLimit = none) (tokens : List String) (schedule : Schedule)
    (merit : Merit) (clock clock' : Clock) :
    (q.parseWith tokens schedule merit clock').1 = (p.parseWith tokens schedule merit clock).1 := by
  obtain ⟨houtcome, -, hleft⟩ := h.fillChart hserial htime tokens schedule merit clock clock'
  rw [parseWith_fst, parseWith_fst, houtcome]
  cases (p.fillChart tokens schedule merit clock).1 with
  | error e => rfl
  | ok stats => exact hleft.extract tokens stats

/-- Parsers that have been given the same sentences correspond. -/
theorem Companions.renumbered {g h : Grammar} (hpq : Companions g h p q) (hgh : g.Renumbers h f)
    (hg : g.Coherent) (hserial : p.options.parallel = false)
    (htime : p.options.timeLimit = none) : p.Renumbered f q := by
  induction hpq with
  | new options vocabulary threads threads' =>
    refine ⟨hgh, rfl, rfl, ?_, ?_⟩
    · exact (Chart.mapWord_empty f).symm
    · refine Eq.trans ?_ (Workspace.mapWord_new f g h.lexicon h.lexical).symm
      rw [← hgh.same]
      rfl
  | @parse p q hpq tokens schedule merit clock clock' ih =>
    obtain ⟨rfl, hp⟩ := hpq.reached.sound hg
    rw [parseWith_snd] at hserial htime
    rw [(fillChart_keeps hg hp tokens schedule merit clock).2.2.1] at hserial htime
    exact ((ih hserial htime).fillChart hserial htime tokens schedule merit clock clock').2.2

/-! ## Sources in another order -/

/-- The order in which a source lists its rules and entries is not observed, if none is listed
twice. Sources in two orders are refused for the same reason, or give grammars that are the same
but for the numbers of words. As long as 32 bits can number the words, one grammar has the
entries of the other under new numbers, and serial parsers of the two that have been given the
same sentences give the same tree, score and counts, or the same error. -/
theorem parse_reordered {s s' : GrammarSource} (hss' : s.Reordered s') (hs : s.Unrepeated)
    (kind : PackingKind) :
    (∃ e, Grammar.compile s kind = .error e ∧ Grammar.compile s' kind = .error e) ∨
      ∃ g g', Grammar.compile s kind = .ok g ∧ Grammar.compile s' kind = .ok g' ∧
        g' = g.withLexicon g'.lexicon g'.lexical ∧ g.lexicon.toList.Perm g'.lexicon.toList ∧
        (g.lexicon.size ≤ 2 ^ 32 →
          g.Renumbers g' (g.lexicon.renumber g'.lexicon) ∧
          ∀ p q, Companions g g' p q → p.options.parallel = false → p.options.timeLimit = none →
            ∀ tokens schedule merit clock clock',
              (q.parseWith tokens schedule merit clock').1 =
                (p.parseWith tokens schedule merit clock).1) := by
  rcases Grammar.compile_orders hss' kind with herror | ⟨hfew, g, g', hg, hg'⟩
  · exact .inl herror
  · have hsame := Grammar.eq_withLexicon_of_compile hss' hs hfew hg hg'
    obtain ⟨hperm, hrenumbers⟩ := Grammar.renumbers_of_compile hss' hs hfew hg hg'
    refine .inr ⟨g, g', hg, hg', hsame, hperm, fun hwords => ⟨hrenumbers hwords, ?_⟩⟩
    intro p q hpq hserial htime tokens schedule merit clock clock'
    have hrenumbered := hpq.renumbered (hrenumbers hwords) (Grammar.coherent_of_compile hg) hserial
      htime
    exact hrenumbered.parseWith hserial htime tokens schedule merit clock clock'

end Parser

namespace GrammarSource

/-- A source with its rules and its entries in reverse. -/
def reversed (s : GrammarSource) : GrammarSource :=
  { s with rules := s.rules.reverse, lexicon := s.lexicon.reverse }

theorem reordered_reversed (s : GrammarSource) : s.Reordered s.reversed :=
  ⟨rfl, (List.reverse_perm _).symm, (List.reverse_perm _).symm⟩

/-- Two rules, and a tag for two words. -/
def samplePair : GrammarSource where
  start := "S"
  rules := [⟨"S", "A", some "A", 0⟩, ⟨"S", "A", none, 0⟩]
  lexicon := [⟨"A", "a", none, 0⟩, ⟨"A", "b", none, 0⟩]

theorem unrepeated_samplePair : samplePair.Unrepeated := by
  constructor <;> simp [samplePair]

theorem length_numbering_samplePair : samplePair.numbering.length ≤ 65535 := by
  obtain ⟨hnodup, hmem, -⟩ := samplePair.numbering_numbering
  have hsub : samplePair.numbering ⊆ ["A", "S"] := by
    intro label hlabel
    have hlabel := (hmem label).1 hlabel
    simp [IsLabel, IsTag, samplePair] at hlabel ⊢
    tauto
  have hlength := (List.subperm_of_subset hnodup hsub).length_le
  simp at hlength
  omega

end GrammarSource

namespace Parser

open GrammarSource

/-- With the two words numbered in either order every sentence is parsed to the same result,
also after another sentence. -/
theorem parse_reordered_samplePair :
    samplePair.Reordered samplePair.reversed ∧ samplePair.Unrepeated ∧
    ∃ g g', Grammar.compile samplePair .perfectHash = .ok g ∧
      Grammar.compile samplePair.reversed .perfectHash = .ok g' ∧ g.lexicon.size ≤ 2 ^ 32 ∧
      g.Renumbers g' (g.lexicon.renumber g'.lexicon) ∧
      let p := ((new g .default .default 1).parseWith ["a"] .bottomUp .inside .stopped).2.2
      let q := ((new g' .default .default 1).parseWith ["a"] .bottomUp .inside .stopped).2.2
      ∀ tokens, (q.parseWith tokens .bottomUp .inside .stopped).1 =
        (p.parseWith tokens .bottomUp .inside .stopped).1 := by
  refine ⟨reordered_reversed _, unrepeated_samplePair, ?_⟩
  rcases parse_reordered (reordered_reversed samplePair) unrepeated_samplePair .perfectHash with
    ⟨e, herror, -⟩ | ⟨g, g', hg, hg', -, -, h⟩
  · rcases Grammar.compile_eq_of_few length_numbering_samplePair .perfectHash with
      ⟨hkind, -⟩ | ⟨-, hok, -⟩
    · exact absurd rfl hkind
    · have hlength : samplePair.rules.length = 2 ∧ samplePair.lexicon.length = 2 := ⟨rfl, rfl⟩
      obtain ⟨g, hg⟩ := hok (GrammarSource.not_crowded_of_length (by omega) (by omega))
      cases herror.symm.trans hg
  · obtain ⟨-, -, binary, hmade⟩ := Grammar.made_of_compile length_numbering_samplePair hg
    have hsize : g.lexicon.size = 2 := by
      rw [hmade.lexicon_eq, ← LabelTable.length_toList, LabelTable.toList_ofList] <;>
        simp [GrammarSource.words, samplePair]
    have hwords : g.lexicon.size ≤ 2 ^ 32 := by omega
    refine ⟨g, g', hg, hg', hwords, (h hwords).1, ?_⟩
    intro p q tokens
    have hpq : Companions g g' p q :=
      .parse (.new .default .default 1 1) ["a"] .bottomUp .inside .stopped .stopped
    have hunused : Reached g (fun _ => True) (new g .default .default 1) := .new .default .default 1
    have hg := Grammar.coherent_of_compile hg
    have hoptions : p.options = .default :=
      (fillChart_keeps hg (hunused.sound hg).2 ["a"] .bottomUp .inside .stopped).2.2.1
    exact (h hwords).2 p q hpq (by rw [hoptions]; rfl) (by rw [hoptions]; rfl) tokens .bottomUp
      .inside .stopped .stopped

end Parser
end ChartParsing

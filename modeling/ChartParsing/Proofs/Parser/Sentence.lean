import ChartParsing.Proofs.Parser.Workers

/-!
# Sentences

A sentence that is taken on is parsed on a chart that was cleared for it, by a run of the
jobs of its schedule. Whatever sentences a parser has seen, its workspaces are in order
for the next one.
-/

namespace ChartParsing

namespace Parser

open Workspace Chart

/-- A sentence that a parser takes on, with the words of its tokens. -/
structure Accepts (p : Parser) (tokens : List String) (words : Array UInt32) : Prop where
  nonempty : tokens ≠ []
  length_le : tokens.length ≤ p.options.lengthLimit
  words : p.vocabulary.words p.grammar.lexicon tokens #[] = (none, words)

/-- The jobs in the order in which a parser does them. -/
def arrange (p : Parser) (jobs : List CellJob) : List CellJob :=
  if p.options.parallel then sortJobs jobs else jobs

variable {p : Parser} {tokens : List String} {words : Array UInt32} {schedule : Schedule}
  {merit : Merit} {clock : Clock}

theorem arrange_of_serial (h : p.options.parallel = false) (jobs : List CellJob) :
    p.arrange jobs = jobs := by
  unfold arrange
  rw [h]
  rfl

theorem arrange_of_parallel (h : p.options.parallel = true) (jobs : List CellJob) :
    p.arrange jobs = sortJobs jobs := by
  unfold arrange
  rw [if_pos h]

theorem length_lt_of_le {n : Nat} (h : n ≤ p.options.lengthLimit) :
    (UInt16.ofNat n).toNat = n := by
  have : p.options.lengthLimit ≤ 65535 := Nat.min_le_right _ _
  exact Nat.mod_eq_of_lt (by omega)

theorem Accepts.toNat_length (h : p.Accepts tokens words) :
    (UInt16.ofNat tokens.length).toNat = tokens.length := length_lt_of_le h.length_le

theorem Accepts.length_le_maximum (h : p.Accepts tokens words) : tokens.length ≤ 65535 :=
  Nat.le_trans h.length_le (Nat.min_le_right _ _)

theorem words_eq {v : Vocabulary} {lexicon : LabelTable} {found : Array UInt32}
    (h : v.words lexicon tokens found = (none, words)) :
    words.toList.map some = found.toList.map some ++ tokens.map (v.word? lexicon) := by
  induction tokens generalizing found with
  | nil =>
    cases h
    exact (List.append_nil _).symm
  | cons token tokens ih =>
    unfold Vocabulary.words at h
    cases hword : v.word? lexicon token with
    | none =>
      rw [hword] at h
      cases h
    | some word =>
      rw [hword] at h
      rw [ih h, List.map_cons, hword]
      simp

/-- The words of a sentence stand for its tokens. -/
theorem Accepts.words_eq (h : p.Accepts tokens words) :
    words.toList.map some = tokens.map (p.vocabulary.word? p.grammar.lexicon) :=
  Parser.words_eq h.words

theorem Accepts.size_words (h : p.Accepts tokens words) : words.size = tokens.length := by
  have hlength := congrArg List.length h.words_eq
  simpa using hlength

/-! ## The jobs of a sentence -/

theorem jobs_within {length : Nat} (h : (UInt16.ofNat length).toNat = length) :
    ∀ job ∈ (p.jobs length schedule).1, job.span.within length = true := by
  intro job hjob
  obtain ⟨span, hspan, rfl⟩ := List.mem_map.1 hjob
  have hwithin := Schedule.within_of_mem_spans hspan
  rw [h] at hwithin
  exact hwithin

theorem map_span_jobs {length : Nat} : (p.jobs length schedule).1.map (·.span) =
    (schedule.spans (UInt16.ofNat length)).1 := by
  unfold jobs
  dsimp only
  rw [List.map_map]
  exact List.map_id _

/-- In an orderly schedule no span comes after one that strictly contains it. -/
def Topological (spans : List Span) : Prop := spans.Pairwise fun s t => ¬t.Inside s

theorem orderly_jobs {length : Nat} (h : (UInt16.ofNat length).toNat = length)
    (horder : Topological (schedule.spans (UInt16.ofNat length)).1) :
    Orderly length (p.jobs length schedule).1 := by
  refine ⟨jobs_within h, ?_⟩
  rw [← map_span_jobs (p := p), Topological, List.pairwise_map] at horder
  exact horder

/-! ## The run of a sentence -/

/-- The run of the jobs of a sentence. -/
def run (merit : Merit) (clock : Clock) (jobs : List CellJob) (stats : ParseStats) (p : Parser) :
    Except ParseError ParseStats × Parser :=
  if p.options.parallel then p.runParallel merit clock jobs stats
  else p.runSerial merit clock 0 jobs stats

theorem run_of_serial (h : p.options.parallel = false) (jobs : List CellJob)
    (stats : ParseStats) :
    p.run merit clock jobs stats = p.runSerial merit clock 0 jobs stats := by
  unfold run
  rw [h]
  rfl

theorem run_of_parallel (h : p.options.parallel = true) (jobs : List CellJob)
    (stats : ParseStats) : p.run merit clock jobs stats = p.runParallel merit clock jobs stats := by
  unfold run
  rw [if_pos h]

theorem run_keeps (merit : Merit) (clock : Clock) (jobs : List CellJob) (stats : ParseStats)
    (hg : p.grammar.Coherent) (hp : p.Sound)
    (hjobs : ∀ job ∈ jobs, job.span.within p.chart.size = true) :
    (p.run merit clock jobs stats).2.Sound ∧ Kept p (p.run merit clock jobs stats).2 ∧
      (Tidy merit jobs → p.Fresh → (p.run merit clock jobs stats).2.Fresh) := by
  unfold run
  split_ifs
  · exact runParallel_keeps jobs stats hg hp hjobs
  · exact runSerial_keeps 0 jobs stats hg hp hjobs

theorem run_ran (merit : Merit) (clock : Clock) {jobs : List CellJob} (stats : ParseStats)
    (hg : p.grammar.Coherent) (hp : p.Sound)
    (hjobs : ∀ job ∈ jobs, job.span.within p.chart.size = true)
    (hclean : Clean merit jobs p.Fresh) :
    Ran p.grammar merit p.words p.options.timeLimit (p.arrange jobs) p.chart stats
      (p.run merit clock jobs stats).1 (p.run merit clock jobs stats).2.chart := by
  unfold run arrange
  split_ifs
  · exact runParallel_ran stats hg hp hjobs hclean
  · exact runSerial_ran 0 stats hg hp hjobs hclean

/-- The parser at the start of a sentence that it takes on. -/
def begin (tokens : List String) (words : Array UInt32) (p : Parser) : Parser :=
  { p with chart := (p.chart.clear 0).clear tokens.length, words }

theorem Accepts.fillChart_eq (h : p.Accepts tokens words) :
    p.fillChart tokens schedule merit clock =
      let jobs := p.jobs tokens.length schedule
      let stats := { ParseStats.zero with sentenceLength := tokens.length }
      let r := (p.begin tokens words).run merit clock jobs.1 stats
      (r.1, jobs.2, r.2) := by
  have hlength : ¬tokens.length = 0 := fun h0 => h.nonempty (List.length_eq_zero_iff.1 h0)
  have hle := Nat.not_lt.2 h.length_le
  have hshrink : p.words.shrink 0 = #[] := by simp
  unfold fillChart
  dsimp only
  rw [if_neg hlength, if_neg hle, hshrink, h.words]
  rfl

theorem Accepts.fillChart_run (schedule : Schedule) (merit : Merit) (clock : Clock)
    (h : p.Accepts tokens words) :
    let jobs := (p.jobs tokens.length schedule).1
    let stats := { ParseStats.zero with sentenceLength := tokens.length }
    (p.fillChart tokens schedule merit clock).1 =
        ((p.begin tokens words).run merit clock jobs stats).1 ∧
      (p.fillChart tokens schedule merit clock).2.2 =
        ((p.begin tokens words).run merit clock jobs stats).2 := by
  rw [h.fillChart_eq]
  exact ⟨rfl, rfl⟩

/-- Why a parser rejects a sentence before it fills a cell. -/
def rejects? (p : Parser) (tokens : List String) : Option ParseError :=
  if tokens.length = 0 then some .emptySentence
  else if p.options.lengthLimit < tokens.length then
    some (.sentenceTooLong tokens.length p.options.lengthLimit)
  else (p.vocabulary.words p.grammar.lexicon tokens #[]).1.map .unknownWord

theorem rejects?_eq_none : p.rejects? tokens = none ↔ ∃ words, p.Accepts tokens words := by
  unfold rejects?
  constructor
  · intro h
    split_ifs at h with hempty hlong
    rw [Option.map_eq_none_iff] at h
    refine ⟨(p.vocabulary.words p.grammar.lexicon tokens #[]).2,
      fun h0 => hempty (List.length_eq_zero_iff.2 h0), Nat.le_of_not_lt hlong, ?_⟩
    rw [← h]
  · rintro ⟨words, h⟩
    rw [if_neg fun h0 => h.nonempty (List.length_eq_zero_iff.1 h0),
      if_neg (Nat.not_lt.2 h.length_le), h.words]
    rfl

/-- A word twice is a sentence, if the lexicon has the word. -/
theorem accepts_twice {word : UInt32} (h : p.grammar.lexicon.number? "a" = some word)
    (hlength : 2 ≤ p.options.lengthLimit) : p.Accepts ["a", "a"] #[word, word] := by
  refine ⟨List.cons_ne_nil _ _, hlength, ?_⟩
  simp [Vocabulary.words, Vocabulary.word?, h]

/-- A sentence that is not taken on is rejected on a chart without cells, before its schedule is
asked for anything. -/
theorem fillChart_unasked {e : ParseError} (h : p.rejects? tokens = some e) :
    ∃ words, ∀ schedule merit clock, p.fillChart tokens schedule merit clock =
      (.error e, schedule, { p with chart := p.chart.clear 0, words }) := by
  have hshrink : p.words.shrink 0 = #[] := by simp
  unfold rejects? at h
  unfold fillChart
  dsimp only
  rw [hshrink]
  by_cases hempty : tokens.length = 0
  · simp only [if_pos hempty] at h ⊢
    cases h
    exact ⟨p.words, fun _ _ _ => rfl⟩
  · simp only [if_neg hempty] at h ⊢
    by_cases hlong : p.options.lengthLimit < tokens.length
    · simp only [if_pos hlong] at h ⊢
      cases h
      exact ⟨p.words, fun _ _ _ => rfl⟩
    · simp only [if_neg hlong] at h ⊢
      obtain ⟨token, htoken, rfl⟩ := Option.map_eq_some_iff.1 h
      cases hread : p.vocabulary.words p.grammar.lexicon tokens #[] with
      | mk unknown words =>
        rw [hread] at htoken
        obtain rfl : unknown = some token := htoken
        exact ⟨words, fun _ _ _ => rfl⟩

theorem fillChart_rejected (schedule : Schedule) (merit : Merit) (clock : Clock) {e : ParseError}
    (h : p.rejects? tokens = some e) :
    ∃ words, p.fillChart tokens schedule merit clock =
      (.error e, schedule, { p with chart := p.chart.clear 0, words }) :=
  (fillChart_unasked h).imp fun _ heq => heq schedule merit clock

theorem begin_keeps (hp : p.Sound) (tokens : List String) (words : Array UInt32) :
    (p.begin tokens words).Sound ∧ (p.Fresh → (p.begin tokens words).Fresh) :=
  ⟨⟨hp.workspace, hp.workers⟩, fun h => ⟨h.workspace, h.workers⟩⟩

/-- What is left in order when a chart has been filled for a sentence. -/
theorem fillChart_keeps (hg : p.grammar.Coherent) (hp : p.Sound) (tokens : List String)
    (schedule : Schedule) (merit : Merit) (clock : Clock) :
    (p.fillChart tokens schedule merit clock).2.2.Sound ∧
      (p.fillChart tokens schedule merit clock).2.2.grammar = p.grammar ∧
      (p.fillChart tokens schedule merit clock).2.2.options = p.options ∧
      (p.fillChart tokens schedule merit clock).2.2.vocabulary = p.vocabulary ∧
      (Tidy merit (p.jobs tokens.length schedule).1 → p.Fresh →
        (p.fillChart tokens schedule merit clock).2.2.Fresh) := by
  cases hreject : p.rejects? tokens with
  | none =>
    obtain ⟨words, h⟩ := rejects?_eq_none.1 hreject
    obtain ⟨hbegin, hfresh⟩ := begin_keeps hp tokens words
    obtain ⟨hsound, hkept, hfresh'⟩ := run_keeps (p := p.begin tokens words) merit clock
      (p.jobs tokens.length schedule).1
      { ParseStats.zero with sentenceLength := tokens.length } hg hbegin
      (jobs_within h.toNat_length)
    rw [h.fillChart_eq]
    exact ⟨hsound, hkept.grammar, hkept.options, hkept.vocabulary,
      fun htidy hp' => hfresh' htidy (hfresh hp')⟩
  | some e =>
    obtain ⟨words, heq⟩ := fillChart_rejected schedule merit clock hreject
    rw [heq]
    exact ⟨⟨hp.workspace, hp.workers⟩, rfl, rfl, rfl, fun _ hp' => ⟨hp'.workspace, hp'.workers⟩⟩

/-- The chart of a sentence is what a run of its jobs leaves. -/
theorem Accepts.fillChart_ran (schedule : Schedule) (merit : Merit) (clock : Clock)
    (h : p.Accepts tokens words) (hg : p.grammar.Coherent) (hp : p.Sound)
    (hclean : Clean merit (p.jobs tokens.length schedule).1 p.Fresh) :
    Ran p.grammar merit words p.options.timeLimit
        (p.arrange (p.jobs tokens.length schedule).1) ((p.chart.clear 0).clear tokens.length)
        { ParseStats.zero with sentenceLength := tokens.length }
        (p.fillChart tokens schedule merit clock).1
        (p.fillChart tokens schedule merit clock).2.2.chart ∧
      (p.fillChart tokens schedule merit clock).2.2.words = words := by
  obtain ⟨hbegin, hfresh⟩ := begin_keeps hp tokens words
  have hjobs : ∀ job ∈ (p.jobs tokens.length schedule).1,
      job.span.within (p.begin tokens words).chart.size = true := jobs_within h.toNat_length
  have hran := run_ran (p := p.begin tokens words) merit clock
    { ParseStats.zero with sentenceLength := tokens.length } hg hbegin hjobs
    (hclean.of_mem (fun _ hjob => hjob) hfresh)
  obtain ⟨-, hkept, -⟩ := run_keeps (p := p.begin tokens words) merit clock
      (p.jobs tokens.length schedule).1
    { ParseStats.zero with sentenceLength := tokens.length } hg hbegin hjobs
  rw [h.fillChart_eq]
  exact ⟨hran, hkept.words⟩

/-- Reading off the best tree fails only for want of one. -/
theorem extract_eq_error {stats : ParseStats} {e : ParseError}
    (h : p.extract tokens stats = .error e) :
    e = .noParse := by
  unfold extract at h
  dsimp only at h
  split at h
  · exact (Except.error.inj h).symm
  · cases htree : p.chart.tree p.grammar p.chart.whole p.grammar.start with
    | error fault =>
      rw [htree] at h
      exact (Except.error.inj h).symm
    | ok t =>
      rw [htree] at h
      cases h

/-! ## Parsers that have been used -/

/-- A parser of a grammar that has parsed sentences with allowed figures of merit. -/
inductive Reached (g : Grammar) (allowed : Merit → Prop) : Parser → Prop
  | new (options : ParserOptions) (vocabulary : Vocabulary) (threads : Nat) :
      Reached g allowed (Parser.new g options vocabulary threads)
  | parse {p : Parser} (h : Reached g allowed p) (tokens : List String) (schedule : Schedule)
      {merit : Merit} (hmerit : allowed merit) (clock : Clock) :
      Reached g allowed (p.parseWith tokens schedule merit clock).2.2

theorem parseWith_fst (p : Parser) (tokens : List String) (schedule : Schedule) (merit : Merit)
    (clock : Clock) : (p.parseWith tokens schedule merit clock).1 =
      (p.fillChart tokens schedule merit clock).1.bind fun stats =>
        (p.fillChart tokens schedule merit clock).2.2.extract tokens stats := rfl

theorem parseWith_snd (p : Parser) (tokens : List String) (schedule : Schedule) (merit : Merit)
    (clock : Clock) : (p.parseWith tokens schedule merit clock).2.2 =
      (p.fillChart tokens schedule merit clock).2.2 := rfl

theorem Reached.sound {g : Grammar} {allowed : Merit → Prop} (hg : g.Coherent)
    (h : Reached g allowed p) : p.grammar = g ∧ p.Sound := by
  induction h with
  | new options vocabulary threads =>
    exact ⟨rfl, sound_new g, fun w hw => (Array.not_mem_empty w hw).elim⟩
  | @parse p h tokens schedule merit hmerit clock ih =>
    obtain ⟨rfl, hp⟩ := ih
    obtain ⟨hsound, hgrammar, -⟩ := fillChart_keeps hg hp tokens schedule merit clock
    rw [parseWith_snd]
    exact ⟨hgrammar, hsound⟩

/-- Figures of merit that do not rank what is absent above itself leave no merit behind. -/
theorem Reached.fresh {g : Grammar} {allowed : Merit → Prop} (hg : g.Coherent)
    (hallowed : ∀ merit, allowed merit → merit.Grounded) (h : Reached g allowed p) :
    p.Fresh := by
  induction h with
  | new options vocabulary threads =>
    exact ⟨fresh_new g, fun w hw => (Array.not_mem_empty w hw).elim⟩
  | @parse p h tokens schedule merit hmerit clock ih =>
    obtain ⟨rfl, hp⟩ := h.sound hg
    rw [parseWith_snd]
    exact (fillChart_keeps hg hp tokens schedule merit clock).2.2.2.2
      (Or.inl (hallowed merit hmerit)) ih

end Parser
end ChartParsing

import ChartParsing.Proofs.Derivation.Soundness
import ChartParsing.Proofs.Parser.Laid

/-!
# Verdicts on sentences

A sentence is checked before any of its cells is filled: first whether it has tokens, then whether
it is too long, then whether all its tokens can be read. One that is rejected leaves an empty chart
and never touches its schedule. One that is taken on leaves the cells of spans that were not handed
out empty. Without limits it is parsed just if its last cell has the start symbol, since the tree of
an entry can always be read off an exhaustive chart.
-/

namespace ChartParsing

/-! ## Reading tokens -/

namespace Vocabulary

variable {v : Vocabulary} {lexicon : LabelTable} {tokens : List String} {token : String}

/-- The lexicon has an entry for the token as it stands, in small letters, or for the unknown
word. -/
def Reads (v : Vocabulary) (lexicon : LabelTable) (token : String) : Prop :=
  (lexicon.number? token).isSome ∨ (lexicon.number? (Text.lowercase token)).isSome ∨
    (lexicon.number? v.unknown).isSome

/-- The token is the first of a sentence that is not read. -/
def FirstUnread (v : Vocabulary) (lexicon : LabelTable) (tokens : List String)
    (token : String) : Prop :=
  ∃ before after, tokens = before ++ token :: after ∧ (∀ t ∈ before, v.Reads lexicon t) ∧
    ¬v.Reads lexicon token

theorem isSome_word? : (v.word? lexicon token).isSome ↔ v.Reads lexicon token := by
  simp [word?, Reads]

/-- Reading stops at the first token that stands for no word. -/
theorem words_fst (v : Vocabulary) (lexicon : LabelTable) (tokens : List String)
    (found : Array UInt32) :
    (v.words lexicon tokens found).1 = tokens.find? fun t => (v.word? lexicon t).isNone := by
  induction tokens generalizing found with
  | nil => rfl
  | cons t tokens ih =>
    cases hword : v.word? lexicon t with
    | none => simp [words, hword]
    | some word => simp [words, hword, ih]

theorem words_eq_some (found : Array UInt32) :
    (v.words lexicon tokens found).1 = some token ↔ v.FirstUnread lexicon tokens token := by
  have hnone (t : String) : (v.word? lexicon t).isNone = true ↔ ¬v.Reads lexicon t := by
    simp [← isSome_word?]
  have hnot (t : String) : (!(v.word? lexicon t).isNone) = true ↔ v.Reads lexicon t := by
    simp [← isSome_word?]
  rw [words_fst, List.find?_eq_some_iff_append, hnone]
  simp only [hnot]
  constructor
  · rintro ⟨hunread, before, after, htokens, hbefore⟩
    exact ⟨before, after, htokens, hbefore, hunread⟩
  · rintro ⟨before, after, htokens, hbefore, hunread⟩
    exact ⟨hunread, before, after, htokens, hbefore⟩

end Vocabulary

/-! ## Why a sentence is rejected -/

/-- The sentence was turned away before any of its cells was filled. -/
def ParseError.IsRejection : ParseError → Prop
  | emptySentence => True
  | sentenceTooLong _ _ => True
  | unknownWord _ => True
  | noParse => False
  | cancelled _ => False

namespace Parser

open Chart Schedule

variable {p : Parser} {tokens : List String} {words : Array UInt32} {schedule : Schedule}
  {merit : Merit} {clock : Clock} {g : Grammar} {e : ParseError}

theorem rejects?_eq_emptySentence : p.rejects? tokens = some .emptySentence ↔ tokens = [] := by
  unfold rejects?
  split_ifs with hempty hlong <;> simp_all [List.length_eq_zero_iff]

theorem rejects?_eq_sentenceTooLong {length most : Nat} :
    p.rejects? tokens = some (.sentenceTooLong length most) ↔
      tokens ≠ [] ∧ length = tokens.length ∧ most = p.options.lengthLimit ∧ most < length := by
  unfold rejects?
  split_ifs with hempty hlong
  · simp [List.length_eq_zero_iff.1 hempty]
  · have hne : tokens ≠ [] := fun h => hempty (by simp [h])
    simp only [Option.some.injEq, ParseError.sentenceTooLong.injEq]
    constructor
    · rintro ⟨rfl, rfl⟩
      exact ⟨hne, rfl, rfl, hlong⟩
    · rintro ⟨-, rfl, rfl, -⟩
      exact ⟨rfl, rfl⟩
  · simp only [Option.map_eq_some_iff, reduceCtorEq, and_false, exists_false, false_iff]
    rintro ⟨-, rfl, rfl, h⟩
    exact hlong h

theorem rejects?_eq_unknownWord {token : String} :
    p.rejects? tokens = some (.unknownWord token) ↔
      tokens ≠ [] ∧ tokens.length ≤ p.options.lengthLimit ∧
        p.vocabulary.FirstUnread p.grammar.lexicon tokens token := by
  unfold rejects?
  split_ifs with hempty hlong
  · simp [List.length_eq_zero_iff.1 hempty]
  · simp [Nat.not_le.2 hlong]
  · have hne : tokens ≠ [] := fun h => hempty (by simp [h])
    simp [hne, Nat.le_of_not_lt hlong, Vocabulary.words_eq_some]

theorem isRejection_of_rejects? (h : p.rejects? tokens = some e) : e.IsRejection := by
  unfold rejects? at h
  split_ifs at h
  · cases h
    trivial
  · cases h
    trivial
  · obtain ⟨token, -, rfl⟩ := Option.map_eq_some_iff.1 h
    trivial

/-- A rejected sentence has the same answer whatever its schedule, which is given back as it was. -/
theorem parseWith_unasked (h : p.rejects? tokens = some e) :
    ∃ words, ∀ schedule merit clock, p.parseWith tokens schedule merit clock =
      (.error e, schedule, { p with chart := p.chart.clear 0, words }) := by
  obtain ⟨words, heq⟩ := fillChart_unasked h
  refine ⟨words, fun schedule merit clock => ?_⟩
  simp only [parseWith, heq]
  rfl

/-! ## Sentences that are taken on -/

/-- A run leaves the cells of spans for which it has no job as they were. -/
theorem Laid.cell_eq {chart after : Chart} {jobs : List CellJob}
    {outcome : Except ParseError ParseStats}
    (h : Laid g merit words jobs chart outcome after)
    (hjobs : ∀ job ∈ jobs, job.span.within chart.size = true) :
    after.size = chart.size ∧ (∀ e, outcome = .error e → ¬e.IsRejection) ∧
      ∀ s, s.within chart.size = true → (∀ job ∈ jobs, job.span ≠ s) →
        after.cell s = chart.cell s := by
  induction h with
  | done => exact ⟨rfl, fun _ h => (nomatch h), fun _ _ _ => rfl⟩
  | cancelled => exact ⟨rfl, fun _ h => by cases h; exact id, fun _ _ _ => rfl⟩
  | @step job jobs chart cell outcome after hcell h ih =>
    obtain ⟨hjob, hrest⟩ := List.forall_mem_cons.1 hjobs
    obtain ⟨hsize, houtcome, hcells⟩ := ih hrest
    refine ⟨hsize, houtcome, fun s hs hother => ?_⟩
    obtain ⟨hne, hother⟩ := List.forall_mem_cons.1 hother
    rw [hcells s hs hother, cell_replace_ne hjob hs hne]

/-- A sentence that is taken on is not rejected any more, and the cells of spans that its schedule
does not hand out are empty. -/
theorem Accepts.parseWith_cells (h : p.Accepts tokens words) (hg : p.grammar.Coherent)
    (hp : p.Sound) (schedule : Schedule) (merit : Merit) (clock : Clock) :
    let r := p.parseWith tokens schedule merit clock
    r.2.2.chart.size = tokens.length ∧ (∀ e, r.1 = .error e → ¬e.IsRejection) ∧
      ∀ s, s.within tokens.length = true →
        s ∉ (schedule.spans (UInt16.ofNat tokens.length)).1 → r.2.2.chart.cell s = ∅ := by
  have hlaid := h.fillChart_laid schedule merit clock hg hp
  have hwithin : ∀ job ∈ p.arrange (p.jobs tokens.length schedule).1,
      job.span.within tokens.length = true := fun job hjob =>
    jobs_within h.toNat_length job (mem_arrange.1 hjob)
  obtain ⟨hsize, houtcome, hcells⟩ := hlaid.cell_eq hwithin
  refine ⟨hsize, fun e he => ?_, fun s hs hclosed => ?_⟩
  · rw [parseWith_fst] at he
    cases hfilled : (p.fillChart tokens schedule merit clock).1 with
    | error fault =>
      rw [hfilled] at he houtcome
      cases he
      exact houtcome e rfl
    | ok stats =>
      rw [hfilled] at he
      rw [extract_eq_error he]
      exact id
  · have hnone : ∀ job ∈ p.arrange (p.jobs tokens.length schedule).1, job.span ≠ s := by
      rintro job hjob rfl
      rw [← map_span_jobs (p := p)] at hclosed
      exact hclosed (List.mem_map_of_mem (mem_arrange.1 hjob))
    exact (hcells s hs hnone).trans (cell_clear _ s)

/-! ## Sentences without limits -/

/-- A walk bottom-up without layers has the jobs of one that skips nothing. -/
theorem jobs_bottomUp (walk : BottomUp) (length : Nat) :
    (p.jobs length ⟨.bottomUp walk, []⟩).1 = (p.jobs length (skipping walk [])).1 := by
  have hspans : ((⟨.bottomUp walk, []⟩ : Schedule).spans (UInt16.ofNat length)).1 =
      ((skipping walk []).spans (UInt16.ofNat length)).1 := by
    rw [(spans_eq _ _).1, (spans_eq _ _).1]
    rfl
  have hlimit (s : Span) :
      ((⟨.bottomUp walk, []⟩ : Schedule).spans (UInt16.ofNat length)).2.limit? s =
        ((skipping walk []).spans (UInt16.ofNat length)).2.limit? s := by
    rw [limit?_spans, limit?_spans]
    rfl
  unfold jobs
  dsimp only
  rw [hspans]
  apply List.map_congr_left
  intro s _
  unfold CellJob.ofSpan
  rw [hlimit]

/-- On an exhaustive chart a sentence is parsed just if the start symbol is in its last cell, and
then with the score that it has there. -/
theorem extract_verdict {isOpen : Span → Prop} (hg : p.grammar.Coherent)
    (h : Exhaustive p.grammar words isOpen p.chart) (hsize : p.chart.size = tokens.length)
    (hmax : tokens.length ≤ 65535) (stats : ParseStats) :
    (p.extract tokens stats = .error .noParse ↔
        p.chart.top?.bind (·.get? p.grammar.start) = none) ∧
      ∀ e, p.chart.top?.bind (·.get? p.grammar.start) = some e →
        ∃ result, p.extract tokens stats = .ok result ∧ result.inside = e.inside := by
  cases htop : p.chart.top?.bind (·.get? p.grammar.start) with
  | none =>
    refine ⟨iff_of_true ?_ rfl, fun e he => nomatch he⟩
    unfold extract
    dsimp only
    rw [htop]
    rfl
  | some entry =>
    obtain ⟨-, d, -, -, hextract⟩ := exists_extract hg h hsize hmax htop
    simp [hextract]

/-- Without limits and with the spans walked bottom-up, the verdict is that of the last cell. -/
theorem Accepts.parseWith_verdict (h : p.Accepts tokens words) (hg : p.grammar.Coherent)
    (hp : p.Sound) (htime : p.options.timeLimit = none) (ho : p.options.Unbeamed)
    (walk : BottomUp) (merit : Merit) (clock : Clock) :
    let r := p.parseWith tokens ⟨.bottomUp walk, []⟩ merit clock
    (r.1 = .error .noParse ↔ r.2.2.chart.top?.bind (·.get? p.grammar.start) = none) ∧
      ∀ e, r.2.2.chart.top?.bind (·.get? p.grammar.start) = some e →
        ∃ result, r.1 = .ok result ∧ result.inside = e.inside := by
  obtain ⟨hsize, hexhaustive, stats, hok⟩ :=
    h.exhaustive_unskipped walk [] merit clock hg hp ho (Or.inl htime)
  obtain ⟨-, hgrammar, -⟩ := fillChart_keeps hg hp tokens (skipping walk []) merit clock
  obtain ⟨hfst, hsnd⟩ := h.fillChart_run ⟨.bottomUp walk, []⟩ merit clock
  obtain ⟨hfst', hsnd'⟩ := h.fillChart_run (skipping walk []) merit clock
  rw [jobs_bottomUp, ← hfst'] at hfst
  rw [jobs_bottomUp, ← hsnd'] at hsnd
  dsimp only
  rw [parseWith_fst, parseWith_snd, hfst, hsnd, hok]
  rw [← hgrammar] at hg hexhaustive ⊢
  exact extract_verdict hg hexhaustive hsize h.length_le_maximum stats

/-! ## Any sentence -/

/-- The outcome of a sentence follows from checks in a fixed order, and so does what is left on the
chart. -/
structure Classifies (p : Parser) (tokens : List String) (schedule : Schedule)
    (r : Except ParseError ParseResult × Schedule × Parser) : Prop where
  emptySentence : r.1 = .error .emptySentence ↔ tokens = []
  sentenceTooLong : ∀ length most, r.1 = .error (.sentenceTooLong length most) ↔
    tokens ≠ [] ∧ length = tokens.length ∧ most = min p.options.maxLength 65535 ∧ most < length
  unknownWord : ∀ token, r.1 = .error (.unknownWord token) ↔
    tokens ≠ [] ∧ tokens.length ≤ min p.options.maxLength 65535 ∧
      p.vocabulary.FirstUnread p.grammar.lexicon tokens token
  rejected : ∀ e, r.1 = .error e → e.IsRejection → r.2.1 = schedule ∧ r.2.2.chart.size = 0 ∧
    r.2.2.chart.cells = #[] ∧ r.2.2.chart.population = 0 ∧ r.2.2.chart.top? = none
  closed : (∀ e, r.1 = .error e → ¬e.IsRejection) → r.2.2.chart.size = tokens.length ∧
    ∀ s, s.within tokens.length = true →
      s ∉ (schedule.spans (UInt16.ofNat tokens.length)).1 → r.2.2.chart.cell s = ∅
  verdict : (∀ e, r.1 = .error e → ¬e.IsRejection) → p.options.timeLimit = none →
    p.options.Unbeamed → ∀ walk, schedule = ⟨.bottomUp walk, []⟩ →
      (r.1 = .error .noParse ↔ r.2.2.chart.top?.bind (·.get? p.grammar.start) = none) ∧
        ∀ e, r.2.2.chart.top?.bind (·.get? p.grammar.start) = some e →
          ∃ result, r.1 = .ok result ∧ result.inside = e.inside

/-- A sentence is turned away just for the reason that the checks give. -/
theorem parseWith_eq_error (hg : p.grammar.Coherent) (hp : p.Sound) (tokens : List String)
    (schedule : Schedule) (merit : Merit) (clock : Clock) (he : e.IsRejection) :
    (p.parseWith tokens schedule merit clock).1 = .error e ↔ p.rejects? tokens = some e := by
  cases hreject : p.rejects? tokens with
  | some e' =>
    obtain ⟨words, heq⟩ := parseWith_unasked hreject
    simp [heq]
  | none =>
    obtain ⟨words, h⟩ := rejects?_eq_none.1 hreject
    obtain ⟨-, hnot, -⟩ := h.parseWith_cells hg hp schedule merit clock
    exact iff_of_false (fun herror => hnot e herror he) (nomatch ·)

/-- Whatever sentences a parser has seen, it classifies the next one in the same order. A sentence
that it turns away has the same answer with every schedule, which is not asked for a span. -/
theorem parseWith_classifies (hg : g.Built) (hp : Reached g (fun _ => True) p)
    (tokens : List String) (schedule : Schedule) (merit : Merit) (clock : Clock) :
    p.Classifies tokens schedule (p.parseWith tokens schedule merit clock) ∧
      ∀ e, (p.parseWith tokens schedule merit clock).1 = .error e → e.IsRejection →
        ∀ schedule' merit' clock', p.parseWith tokens schedule' merit' clock' =
          (.error e, schedule', (p.parseWith tokens schedule merit clock).2.2) := by
  obtain ⟨rfl, hsound⟩ := hp.sound hg.coherent
  have hcoherent := hg.coherent
  have herror (e : ParseError) (he : e.IsRejection) :=
    parseWith_eq_error hcoherent hsound tokens schedule merit clock he
  have htaken (hnot : ∀ e, (p.parseWith tokens schedule merit clock).1 = .error e →
      ¬e.IsRejection) : ∃ words, p.Accepts tokens words := by
    apply rejects?_eq_none.1
    cases hreject : p.rejects? tokens with
    | none => rfl
    | some e =>
      have he := isRejection_of_rejects? hreject
      exact absurd he (hnot e ((herror e he).2 hreject))
  constructor
  · constructor
    case emptySentence => exact (herror .emptySentence trivial).trans rejects?_eq_emptySentence
    case sentenceTooLong =>
      intro length most
      exact (herror (.sentenceTooLong length most) trivial).trans rejects?_eq_sentenceTooLong
    case unknownWord =>
      intro token
      exact (herror (.unknownWord token) trivial).trans rejects?_eq_unknownWord
    case rejected =>
      intro e he hrejection
      obtain ⟨words, heq⟩ := parseWith_unasked ((herror e hrejection).1 he)
      rw [heq]
      exact ⟨rfl, rfl, by simp [Chart.clear, spanCount], population_clear 0, rfl⟩
    case closed =>
      intro hnot
      obtain ⟨words, h⟩ := htaken hnot
      obtain ⟨hsize, -, hcells⟩ := h.parseWith_cells hcoherent hsound schedule merit clock
      exact ⟨hsize, hcells⟩
    case verdict =>
      rintro hnot htime ho walk rfl
      obtain ⟨words, h⟩ := htaken hnot
      exact h.parseWith_verdict hcoherent hsound htime ho walk merit clock
  · intro e he hrejection schedule' merit' clock'
    obtain ⟨words, heq⟩ := parseWith_unasked ((herror e hrejection).1 he)
    rw [heq, heq]

/-- A parser that has parsed a sentence of two words is given the empty sentence. -/
theorem parseWith_classifies_nil : ∃ g, Grammar.compile (.sample true) .shift = .ok g ∧
    let p := ((new g .default .default 1).parseWith ["a", "a"] .bottomUp .inside .stopped).2.2
    let r := p.parseWith [] .bottomUp .inside .stopped
    p.Classifies [] .bottomUp r ∧ r.1 = .error .emptySentence ∧ r.2.2.chart.size = 0 := by
  obtain ⟨g, hcompile, -⟩ := Grammar.exists_sample true
  have hreached : Reached g (fun _ => True)
      ((new g .default .default 1).parseWith ["a", "a"] .bottomUp .inside .stopped).2.2 :=
    .parse (.new .default .default 1) ["a", "a"] .bottomUp trivial .stopped
  obtain ⟨h, -⟩ :=
    parseWith_classifies (.compile hcompile) hreached [] .bottomUp .inside .stopped
  have hempty := h.emptySentence.2 rfl
  exact ⟨g, hcompile, h, hempty, (h.rejected _ hempty trivial).2.1⟩

end Parser
end ChartParsing

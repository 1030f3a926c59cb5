import ChartParsing.CommandLine.Run
import ChartParsing.Parser.Batch
import ChartParsing.Proofs.Parser.SideBySide

/-!
# Parsing again

The tables of a parser are recycled from sentence to sentence, each of them emptied at
another moment and only where it was filled. With figures of merit that do not rank what is
absent above itself nothing is seen of this: whatever a parser has been used for, it parses
the next sentence as a new parser does. So the results of a batch do not depend on how its
sentences are shared out, and a line that the program prints depends on one line of its input.
-/

namespace ChartParsing

namespace Parser

open Chart

variable {p q : Parser} {tokens : List String} {merit : Merit} {clock : Clock}

/-- A sentence has been given up. -/
def GivenUp {α : Type} (outcome : Except ParseError α) : Prop :=
  ∃ elapsed, outcome = .error (.cancelled elapsed)

/-- A run that is not given up has done all its jobs. -/
theorem Ran.eq_of_not_givenUp {g : Grammar} {words : Array UInt32} {limit : Option Nat}
    {jobs : List CellJob} {chart after : Chart} {stats : ParseStats}
    {outcome : Except ParseError ParseStats}
    (h : Ran g merit words limit jobs chart stats outcome after) (hdone : ¬GivenUp outcome) :
    outcome = .ok (statsAlong g merit words jobs chart stats) ∧
      after = putAll g merit words jobs chart := by
  obtain ⟨done, rest, rfl, hafter, ⟨rfl, houtcome⟩ | ⟨-, -, hcancelled⟩⟩ := h.exists_done
  · rw [List.append_nil]
    exact ⟨houtcome, hafter⟩
  · exact absurd hcancelled hdone

/-! ## Two runs under one clock -/

/-- Two parsers that have come equally far with the same sentence. They can differ in what
is left in their workspaces and in the number of these. -/
structure Abreast (p q : Parser) : Prop where
  grammar : q.grammar = p.grammar
  options : q.options = p.options
  words : q.words = p.words
  chart : q.chart = p.chart

/-- Parsers that stay abreast when each of them puts the same cells in place. -/
theorem Abreast.next {p' q' : Parser} (h : Abreast p q) (hp : Kept p p') (hq : Kept q q')
    (hchart : q'.chart = p'.chart) : Abreast p' q' where
  grammar := by rw [hq.grammar, hp.grammar, h.grammar]
  options := by rw [hq.options, hp.options, h.options]
  words := by rw [hq.words, hp.words, h.words]
  chart := hchart

theorem Abreast.runSerial (h : Abreast p q) (hg : p.grammar.Coherent) (hp : p.Sound)
    (hq : q.Sound) {jobs : List CellJob}
    (hjobs : ∀ job ∈ jobs, job.span.within p.chart.size = true)
    (hclean : Clean merit jobs (p.Fresh ∧ q.Fresh)) (looks : Nat) (stats : ParseStats) :
    (q.runSerial merit clock looks jobs stats).1 =
        (p.runSerial merit clock looks jobs stats).1 ∧
      (q.runSerial merit clock looks jobs stats).2.chart =
        (p.runSerial merit clock looks jobs stats).2.chart := by
  induction jobs generalizing p q looks stats with
  | nil => exact ⟨rfl, h.chart⟩
  | cons job jobs ih =>
    unfold Parser.runSerial
    rw [h.options]
    rcases checkTime_eq p.options (clock looks) with hok | ⟨-, herror⟩
    · rw [hok]
      have hjob := hjobs job List.mem_cons_self
      have hjob' : job.span.within q.chart.size = true := by rw [h.chart]; exact hjob
      have hg' : q.grammar.Coherent := by rw [h.grammar]; exact hg
      obtain ⟨hsound, hkept, hfresh⟩ := runJob_keeps merit hg hp hjob
      obtain ⟨hsound', hkept', hfresh'⟩ := runJob_keeps merit hg' hq hjob'
      obtain ⟨hstats, hchart⟩ := runJob_eq merit hg hp hjob (hclean.head.imp_right And.left)
      obtain ⟨hstats', hchart'⟩ := runJob_eq merit hg' hq hjob' (hclean.head.imp_right And.right)
      rw [h.grammar, h.words, h.chart, ← hstats] at hstats'
      rw [h.grammar, h.words, h.chart, ← hchart] at hchart'
      dsimp only
      rw [hstats']
      refine ih (h.next hkept hkept' hchart') (by rw [hkept.grammar]; exact hg) hsound hsound'
        (fun other hother => ?_) (hclean.tail fun hmerit hboth => ?_) _ _
      · rw [hkept.size]
        exact hjobs other (List.mem_cons_of_mem _ hother)
      · exact ⟨hfresh hmerit hboth.1, hfresh' hmerit hboth.2⟩
    · rw [herror]
      exact ⟨rfl, h.chart⟩

theorem Abreast.runGroups (h : Abreast p q) (hg : p.grammar.Coherent) (hp : p.Sound)
    (hq : q.Sound) (hworkers : p.workers ≠ #[]) (hworkers' : q.workers ≠ #[])
    {groups : List (List CellJob)} (hnil : ∀ jobs ∈ groups, jobs ≠ [])
    (hjobs : ∀ jobs ∈ groups, ∀ job ∈ jobs, job.span.within p.chart.size = true)
    (hapart : ∀ jobs ∈ groups, jobs.Pairwise fun a b => ¬a.span.Inside b.span)
    (hclean : Clean merit groups.flatten (p.Fresh ∧ q.Fresh)) (looks : Nat)
    (stats : ParseStats) :
    (q.runGroups merit clock looks groups stats).1 =
        (p.runGroups merit clock looks groups stats).1 ∧
      (q.runGroups merit clock looks groups stats).2.chart =
        (p.runGroups merit clock looks groups stats).2.chart := by
  induction groups generalizing p q looks stats with
  | nil => exact ⟨rfl, h.chart⟩
  | cons jobs groups ih =>
    unfold Parser.runGroups
    rw [h.options]
    rcases checkTime_eq p.options (clock looks) with hok | ⟨-, herror⟩
    · rw [hok]
      have hhead := hnil jobs List.mem_cons_self
      have hwithin := hjobs jobs List.mem_cons_self
      have hwithin' : ∀ job ∈ jobs, job.span.within q.chart.size = true := by
        rw [h.chart]
        exact hwithin
      have hg' : q.grammar.Coherent := by rw [h.grammar]; exact hg
      rw [List.flatten_cons] at hclean
      have hfirst : Clean merit jobs (p.Fresh ∧ q.Fresh) :=
        hclean.of_mem (fun job hjob => List.mem_append_left _ hjob) id
      obtain ⟨hsound, hkept, hnext, hfresh⟩ :=
        runWidth_keeps merit hg hp hworkers hhead stats hwithin
      obtain ⟨hsound', hkept', hnext', hfresh'⟩ :=
        runWidth_keeps merit hg' hq hworkers' hhead stats hwithin'
      obtain ⟨hstats, hchart⟩ := runWidth_ran merit hg hp hworkers hhead stats hwithin
        (hapart jobs List.mem_cons_self) (hfirst.of_mem (fun _ h => h) And.left)
      obtain ⟨hstats', hchart'⟩ := runWidth_ran merit hg' hq hworkers' hhead stats
        hwithin' (hapart jobs List.mem_cons_self) (hfirst.of_mem (fun _ h => h) And.right)
      rw [h.grammar, h.words, h.chart, ← hstats] at hstats'
      rw [h.grammar, h.words, h.chart, ← hchart] at hchart'
      dsimp only
      rw [hstats']
      refine ih (h.next hkept hkept' hchart') (by rw [hkept.grammar]; exact hg) hsound hsound'
        hnext hnext' (fun other hother => hnil other (List.mem_cons_of_mem _ hother))
        (fun other hother => ?_) (fun other hother => hapart other (List.mem_cons_of_mem _ hother))
        ?_ _ _
      · rw [hkept.size]
        exact hjobs other (List.mem_cons_of_mem _ hother)
      · rcases hclean with hnone | ⟨hmerit, hboth⟩
        · exact Or.inl fun job hjob => hnone job (List.mem_append_right _ hjob)
        · exact Or.inr ⟨hmerit, hfresh (Or.inl hmerit) hboth.1, hfresh' (Or.inl hmerit) hboth.2⟩
    · rw [herror]
      exact ⟨rfl, h.chart⟩

theorem Abreast.runParallel (h : Abreast p q) (hg : p.grammar.Coherent) (hp : p.Sound)
    (hq : q.Sound) {jobs : List CellJob}
    (hjobs : ∀ job ∈ jobs, job.span.within p.chart.size = true)
    (hclean : Clean merit jobs (p.Fresh ∧ q.Fresh)) (stats : ParseStats) :
    (q.runParallel merit clock jobs stats).1 = (p.runParallel merit clock jobs stats).1 ∧
      (q.runParallel merit clock jobs stats).2.chart =
        (p.runParallel merit clock jobs stats).2.chart := by
  obtain ⟨hsound, hkept, hworkers, hchart, hfresh⟩ := hireWorkers_keeps hp
  obtain ⟨hsound', hkept', hworkers', hchart', hfresh'⟩ := hireWorkers_keeps hq
  have habreast : Abreast p.hireWorkers q.hireWorkers :=
    h.next hkept hkept' (by rw [hchart, hchart', h.chart])
  rw [runParallel_eq, runParallel_eq]
  refine habreast.runGroups (by rw [hkept.grammar]; exact hg) hsound hsound' hworkers hworkers'
    (fun _ hgroup => ne_nil_of_mem_groupJobs hgroup)
    (fun group hgroup job hjob => hjobs job (mem_of_mem_groupJobs hgroup hjob))
    (fun group hgroup => ?_) (hclean.of_mem (fun job hjob => ?_) fun h => ⟨hfresh h.1, hfresh' h.2⟩)
    0 stats
  · refine (pairwise_of_mem_groupJobs hgroup).imp_of_mem fun {a b} ha hb hab => ?_
    exact not_inside_of_width_le (hjobs b (mem_of_mem_groupJobs hgroup hb))
      (hjobs a (mem_of_mem_groupJobs hgroup ha)) (UInt16.le_of_eq hab.symm)
  · rw [flatten_groupJobs] at hjob
    exact (sortJobs_perm jobs).mem_iff.1 hjob

theorem Abreast.run (h : Abreast p q) (hg : p.grammar.Coherent) (hp : p.Sound) (hq : q.Sound)
    {jobs : List CellJob} (hjobs : ∀ job ∈ jobs, job.span.within p.chart.size = true)
    (hclean : Clean merit jobs (p.Fresh ∧ q.Fresh)) (stats : ParseStats) :
    (q.run merit clock jobs stats).1 = (p.run merit clock jobs stats).1 ∧
      (q.run merit clock jobs stats).2.chart = (p.run merit clock jobs stats).2.chart := by
  unfold Parser.run
  rw [h.options]
  split_ifs
  · exact h.runParallel hg hp hq hjobs hclean stats
  · exact h.runSerial hg hp hq hjobs hclean 0 stats

/-! ## A sentence taken on by two parsers -/

/-- Two parsers that are set up in the same way. -/
structure Peers (p q : Parser) : Prop where
  grammar : q.grammar = p.grammar
  options : q.options = p.options
  vocabulary : q.vocabulary = p.vocabulary

theorem Peers.rejects?_eq (h : Peers p q) (tokens : List String) :
    q.rejects? tokens = p.rejects? tokens := by
  unfold rejects?
  rw [h.grammar, h.options, h.vocabulary]

theorem Peers.accepts {words : Array UInt32} (h : Peers p q) (hp : p.Accepts tokens words) :
    q.Accepts tokens words := by
  refine ⟨hp.nonempty, ?_, ?_⟩
  · rw [h.options]
    exact hp.length_le
  · rw [h.grammar, h.vocabulary]
    exact hp.words

theorem Peers.jobs_eq (h : Peers p q) (length : Nat) (schedule : Schedule) :
    q.jobs length schedule = p.jobs length schedule := by
  unfold Parser.jobs
  rw [h.options]

theorem Peers.arrange_eq (h : Peers p q) (jobs : List CellJob) :
    q.arrange jobs = p.arrange jobs := by
  unfold arrange
  rw [h.options]

theorem Peers.abreast (h : Peers p q) {words : Array UInt32} (hlength : tokens.length ≤ 65535) :
    Abreast (p.begin tokens words) (q.begin tokens words) where
  grammar := h.grammar
  options := h.options
  words := rfl
  chart := clear_congr _ _ hlength

/-- Under one clock peers fill the same chart and count the same, even if they have to give
the sentence up. Under two clocks they do if neither gives it up. -/
theorem Peers.fillChart_eq (h : Peers p q) (tokens : List String) (schedule : Schedule)
    (hg : p.grammar.Coherent) (hp : p.Sound) (hq : q.Sound)
    (hclean : Clean merit (p.jobs tokens.length schedule).1 (p.Fresh ∧ q.Fresh))
    {clock' : Clock} (hclock : clock' = clock ∨
      (¬GivenUp (p.fillChart tokens schedule merit clock).1 ∧
        ¬GivenUp (q.fillChart tokens schedule merit clock').1)) :
    (q.fillChart tokens schedule merit clock').1 =
        (p.fillChart tokens schedule merit clock).1 ∧
      (q.fillChart tokens schedule merit clock').2.2.chart =
        (p.fillChart tokens schedule merit clock).2.2.chart := by
  have hg' : q.grammar.Coherent := by rw [h.grammar]; exact hg
  cases hreject : p.rejects? tokens with
  | some e =>
    obtain ⟨words, heq⟩ := fillChart_rejected schedule merit clock hreject
    obtain ⟨words', heq'⟩ :=
      fillChart_rejected schedule merit clock' ((h.rejects?_eq tokens).trans hreject)
    rw [heq, heq']
    exact ⟨rfl, clear_congr _ _ (by decide)⟩
  | none =>
    obtain ⟨words, haccepts⟩ := rejects?_eq_none.1 hreject
    have haccepts' := h.accepts haccepts
    rcases hclock with rfl | ⟨hdone, hdone'⟩
    · obtain ⟨hbegin, hfresh⟩ := begin_keeps hp tokens words
      obtain ⟨hbegin', hfresh'⟩ := begin_keeps hq tokens words
      rw [haccepts.fillChart_eq, haccepts'.fillChart_eq, h.jobs_eq]
      exact (h.abreast haccepts.length_le_maximum).run hg hbegin hbegin'
        (jobs_within haccepts.toNat_length)
        (hclean.of_mem (fun _ hjob => hjob) fun h => ⟨hfresh h.1, hfresh' h.2⟩) _
    · obtain ⟨hran, -⟩ := haccepts.fillChart_ran schedule merit clock hg hp
        (hclean.of_mem (fun _ hjob => hjob) And.left)
      obtain ⟨hran', -⟩ := haccepts'.fillChart_ran schedule merit clock' hg' hq
        (by rw [h.jobs_eq]; exact hclean.of_mem (fun _ hjob => hjob) And.right)
      rw [h.grammar, h.options, h.jobs_eq, h.arrange_eq,
        clear_congr _ (p.chart.clear 0) haccepts.length_le_maximum] at hran'
      obtain ⟨houtcome, hchart⟩ := hran.eq_of_not_givenUp hdone
      obtain ⟨houtcome', hchart'⟩ := hran'.eq_of_not_givenUp hdone'
      rw [houtcome, houtcome', hchart, hchart']
      exact ⟨rfl, rfl⟩

/-- What is read off a chart is never that a sentence was given up. -/
theorem givenUp_parseWith (p : Parser) (tokens : List String) (schedule : Schedule)
    (merit : Merit) (clock : Clock) (h : GivenUp (p.fillChart tokens schedule merit clock).1) :
    GivenUp (p.parseWith tokens schedule merit clock).1 := by
  obtain ⟨elapsed, h⟩ := h
  refine ⟨elapsed, ?_⟩
  rw [parseWith_fst, h]
  rfl

/-! ## A parser that has been used and a new one -/

/-- Nothing is left that the next sentence could find. -/
theorem Reached.peers {g : Grammar} (hg : g.Coherent) (hp : Reached g (· = .inside) p)
    (threads : Nat) :
    let unused := Parser.new g p.options p.vocabulary threads
    Peers p unused ∧ (p.Sound ∧ p.Fresh) ∧ unused.Sound ∧ unused.Fresh := by
  have hunused (options : ParserOptions) (vocabulary : Vocabulary) :
      Reached g (· = .inside) (Parser.new g options vocabulary threads) := .new _ _ _
  have hgrounded : ∀ merit : Merit, merit = .inside → merit.Grounded := by
    rintro _ rfl
    exact Merit.grounded_inside
  exact ⟨⟨(hp.sound hg).1.symm, rfl, rfl⟩, ⟨(hp.sound hg).2, hp.fresh hg hgrounded⟩,
    ((hunused _ _).sound hg).2, (hunused _ _).fresh hg hgrounded⟩

/-- The outcome, the counts and the chart of a sentence that is parsed after others are those
of the sentence alone. -/
theorem Reached.parseWith_eq {g : Grammar} (hg : g.Coherent) (hp : Reached g (· = .inside) p)
    (threads : Nat) (tokens : List String) (schedule : Schedule) {clock clock' : Clock} :
    let unused := Parser.new g p.options p.vocabulary threads
    (clock' = clock ∨ (¬GivenUp (p.parseWith tokens schedule .inside clock).1 ∧
        ¬GivenUp (unused.parseWith tokens schedule .inside clock').1)) →
      (p.parseWith tokens schedule .inside clock).1 =
          (unused.parseWith tokens schedule .inside clock').1 ∧
        (p.fillChart tokens schedule .inside clock).1 =
          (unused.fillChart tokens schedule .inside clock').1 ∧
        (p.parseWith tokens schedule .inside clock).2.2.chart =
          (unused.parseWith tokens schedule .inside clock').2.2.chart := by
  intro unused hclock
  obtain ⟨hpeers, ⟨hsound, hfresh⟩, hsound', hfresh'⟩ := hp.peers hg threads
  have hg' : p.grammar.Coherent := by rw [(hp.sound hg).1]; exact hg
  obtain ⟨houtcome, hchart⟩ := hpeers.fillChart_eq tokens schedule hg'
    hsound hsound' (Or.inr ⟨Merit.grounded_inside, hfresh, hfresh'⟩)
    (hclock.imp_right fun h =>
      ⟨mt (givenUp_parseWith _ _ _ _ _) h.1, mt (givenUp_parseWith _ _ _ _ _) h.2⟩)
  have hkept (r : Parser) (hr : r.Sound) (hg : r.grammar.Coherent) (clock : Clock) :=
    (fillChart_keeps hg hr tokens schedule .inside clock).2.1
  have hgrammar : (unused.fillChart tokens schedule .inside clock').2.2.grammar =
      (p.fillChart tokens schedule .inside clock).2.2.grammar := by
    rw [hkept unused hsound' hg, hkept p hsound hg', hpeers.grammar]
  refine ⟨?_, houtcome.symm, hchart.symm⟩
  rw [parseWith_fst, parseWith_fst, houtcome]
  exact congrArg _ (funext fun stats => (extract_congr hgrammar hchart stats).symm)

theorem parse_fst (p : Parser) (sentence : String) (clock : Clock) :
    (p.parse sentence clock).1 =
      (p.parseWith (Text.tokens sentence) .bottomUp .inside clock).1 := rfl

theorem parse_snd (p : Parser) (sentence : String) (clock : Clock) :
    (p.parse sentence clock).2 =
      (p.parseWith (Text.tokens sentence) .bottomUp .inside clock).2.2 := rfl

/-- A parser that parses a sentence is set up as before. -/
theorem Reached.again {g : Grammar} (hg : g.Coherent) (hp : Reached g (· = .inside) p)
    (sentence : String) (clock : Clock) :
    Reached g (· = .inside) (p.parse sentence clock).2 ∧
      (p.parse sentence clock).2.options = p.options ∧
      (p.parse sentence clock).2.vocabulary = p.vocabulary := by
  obtain ⟨rfl, hsound⟩ := hp.sound hg
  obtain ⟨-, -, hoptions, hvocabulary, -⟩ :=
    fillChart_keeps hg hsound (Text.tokens sentence) .bottomUp .inside clock
  exact ⟨hp.parse _ _ rfl _, hoptions, hvocabulary⟩

/-- The parser after sentences, each with the clock it was parsed under. -/
def after (earlier : List (String × Clock)) (p : Parser) : Parser :=
  earlier.foldl (fun p (sentence, clock) => (p.parse sentence clock).2) p

theorem Reached.after {g : Grammar} (hg : g.Coherent) (hp : Reached g (· = .inside) p)
    (earlier : List (String × Clock)) :
    Reached g (· = .inside) (p.after earlier) ∧ (p.after earlier).options = p.options ∧
      (p.after earlier).vocabulary = p.vocabulary := by
  unfold Parser.after
  induction earlier generalizing p with
  | nil => exact ⟨hp, rfl, rfl⟩
  | cons first earlier ih =>
    obtain ⟨hnext, hoptions, hvocabulary⟩ := hp.again hg first.1 first.2
    obtain ⟨hlast, hoptions', hvocabulary'⟩ := ih hnext
    exact ⟨hlast, hoptions'.trans hoptions, hvocabulary'.trans hvocabulary⟩

theorem Reached.parse_eq {g : Grammar} (hg : g.Coherent) (hp : Reached g (· = .inside) p)
    (threads : Nat) (sentence : String) (clock : Clock) :
    (p.parse sentence clock).1 =
      ((Parser.new g p.options p.vocabulary threads).parse sentence clock).1 :=
  (hp.parseWith_eq hg threads (Text.tokens sentence) .bottomUp (Or.inl rfl)).1

end Parser

/-! ## Batches -/

namespace Batch

open ChartParsing.Parser

variable {g : Grammar} {o : ParserOptions}

/-- The outcome of an item by itself. -/
def alone (g : Grammar) (o : ParserOptions) (threads : Nat) (item : BatchItem) : BatchOutcome :=
  (item.position, ((Parser.new g o .default threads).parse item.sentence item.clock).1)

theorem parseShare_eq (hg : g.Coherent) {p : Parser} (hp : Reached g (· = .inside) p)
    (threads : Nat) (hoptions : p.options = o) (hvocabulary : p.vocabulary = .default)
    (items : List BatchItem) : p.parseShare items = items.map (alone g o threads) := by
  induction items generalizing p with
  | nil => rfl
  | cons item items ih =>
    obtain ⟨hnext, hoptions', hvocabulary'⟩ := hp.again hg item.sentence item.clock
    have hhead := hp.parse_eq hg threads item.sentence item.clock
    rw [hoptions, hvocabulary] at hhead
    unfold parseShare
    rw [List.map_cons, ← ih hnext (hoptions'.trans hoptions) (hvocabulary'.trans hvocabulary)]
    dsimp only
    rw [hhead]
    rfl

/-- Outcomes are put in order whatever order they come in. -/
theorem inOrder_perm {outcomes outcomes' : List BatchOutcome}
    (hperm : outcomes.Perm outcomes') (hsorted : outcomes'.Pairwise fun a b => a.1 < b.1) :
    inOrder outcomes = outcomes'.map (·.2) := by
  have htrans (a b c : BatchOutcome) (hab : decide (a.1 ≤ b.1) = true)
      (hbc : decide (b.1 ≤ c.1) = true) : decide (a.1 ≤ c.1) = true :=
    decide_eq_true (Nat.le_trans (of_decide_eq_true hab) (of_decide_eq_true hbc))
  have htotal (a b : BatchOutcome) : (decide (a.1 ≤ b.1) || decide (b.1 ≤ a.1)) = true := by
    simpa using Nat.le_total a.1 b.1
  have hmerged := (List.mergeSort_perm outcomes fun a b => a.1 ≤ b.1).trans hperm
  unfold inOrder
  rw [hmerged.eq_of_pairwise]
  · intro a b ha hb hab hba
    have hnodup : (outcomes'.map (·.1)).Nodup :=
      (List.pairwise_map.2 hsorted).imp fun h => Nat.ne_of_lt h
    exact List.inj_on_of_nodup_map hnodup (hmerged.mem_iff.1 ha) hb (Nat.le_antisymm hab hba)
  · exact (List.pairwise_mergeSort htrans htotal outcomes).imp fun h => of_decide_eq_true h
  · exact hsorted.imp Nat.le_of_lt

/-- However the items of a batch are shared out, each gets the outcome it has by itself, in
its place. -/
theorem parseShares_eq (hg : g.Coherent) (threads threads' : Nat) {items : List BatchItem}
    (hpositions : items.map (·.position) = List.range items.length)
    {shares : List (List BatchItem)} (hshares : shares.flatten.Perm items) :
    parseShares g o threads shares = items.map fun item =>
      ((Parser.new g o .default threads').parse item.sentence item.clock).1 := by
  have hshare (share : List BatchItem) :
      (Parser.new g o .default threads).parseShare share = share.map (alone g o threads') :=
    parseShare_eq hg (.new _ _ _) threads' rfl rfl share
  unfold parseShares
  simp only [hshare]
  rw [List.flatMap_def, ← List.map_flatten,
    inOrder_perm (hshares.map (alone g o threads')), List.map_map]
  · rfl
  · have hlt : (items.map (·.position)).Pairwise (· < ·) := by
      rw [hpositions]
      exact List.pairwise_lt_range
    rw [List.pairwise_map] at hlt ⊢
    exact hlt

theorem position_items (sentences : List String) :
    (items sentences).map (·.position) = List.range (items sentences).length := by
  unfold items
  rw [List.map_map, List.length_map, List.length_zipIdx, List.range_eq_range']
  exact List.zipIdx_map_snd 0 sentences

theorem parse_eq (hg : g.Coherent) (threads threads' : Nat) (sentences : List String) :
    parse g o threads sentences = sentences.map fun sentence =>
      ((Parser.new g o .default threads').parse sentence .stopped).1 := by
  unfold parse
  dsimp only
  rw [parseShares_eq hg threads threads' (position_items sentences)]
  · have hsentences : sentences = sentences.zipIdx.map (·.1) := by simp
    conv_rhs => rw [hsentences]
    unfold items
    rw [List.map_map, List.map_map]
    rfl
  · by_cases hnil : sentences = []
    · rw [hnil]
      exact List.Perm.of_eq (congrArg List.flatten (chunks_nil _))
    · have hworkers : 0 < max threads 1 := by omega
      rw [flatten_chunks (length_chunks_workers hworkers hnil).1]

end Batch

/-! ## Lines -/

namespace CommandLine

variable {g : Grammar}

/-- The sentences among the lines of the input: those that are not blank, up to the first
line that is no text. -/
def sentencesOf : List ByteArray → List String
  | [] => []
  | line :: lines =>
    match String.fromUTF8? line with
    | none => []
    | some text => if Text.isBlankText text then sentencesOf lines else text :: sentencesOf lines

/-- The line printed for a sentence by itself. -/
def answerAlone (g : Grammar) (o : ParserOptions) (sentence : String) : String :=
  answer ((Parser.new g o .default 1).parse sentence .stopped).1

open ChartParsing.Parser in
theorem answers_eq (hg : g.Coherent) {p : Parser} (hp : Reached g (· = .inside) p)
    (hvocabulary : p.vocabulary = .default) (lines : List ByteArray) :
    (answers lines p).1 = (sentencesOf lines).map (answerAlone g p.options) := by
  induction lines generalizing p with
  | nil => rfl
  | cons line lines ih =>
    unfold answers sentencesOf
    cases String.fromUTF8? line with
    | none => rfl
    | some sentence =>
      dsimp only
      split_ifs
      · exact ih hp hvocabulary
      · obtain ⟨hnext, hoptions, hvocabulary'⟩ := hp.again hg sentence .stopped
        have hhead := hp.parse_eq hg 1 sentence .stopped
        have ih := ih hnext (hvocabulary'.trans hvocabulary)
        rw [hoptions] at ih
        rw [hvocabulary] at hhead
        rw [List.map_cons, ← ih]
        unfold answerAlone
        rw [← hhead]

/-- What a run of the program prints for its input. -/
theorem printed_answerInput (hg : g.Coherent) (o : ParserOptions) (s : Session) :
    ((answerInput Session.surroundings g o).run s).2.printed = s.printed ++
      String.join ((sentencesOf (Text.byteLines s.input)).map (answerAlone g o · ++ "\n")) := by
  have hanswers := answers_eq hg (p := Parser.new g o .default 1) (.new _ _ _) rfl
    (Text.byteLines s.input)
  rw [← Function.comp_def (· ++ "\n"), ← List.map_map]
  refine Eq.trans ?_ (congrArg (fun printed => s.printed ++ String.join (printed.map (· ++ "\n")))
    hanswers)
  change (StateT.run (do
    let answered := answers (Text.byteLines s.input) (Parser.new g o .default 1)
    Session.surroundings.print (String.join (answered.1.map (· ++ "\n")))
    finish Session.surroundings answered.2 : StateM Session Exit) s).2.printed = _
  generalize answers (Text.byteLines s.input) (Parser.new g o .default 1) = answered
  obtain ⟨printed, error⟩ := answered
  cases error with
  | none => rfl
  | some error => rfl

end CommandLine

namespace Parser

/-- A parser that has been used behaves as a new one, whatever sentences it was used for and
however they ended, as long as they were parsed by scores alone. Under one clock the next
sentence has the same outcome, counts and chart, and under two clocks it has if neither gives
it up. So each sentence of a batch has the outcome it has by itself, in its place, however the
batch is shared out, and each line that the program prints depends on one line of its input. -/
theorem reused_eq_unused {source : GrammarSource} {kind : PackingKind} {g : Grammar}
    (hcompile : Grammar.compile source kind = .ok g) :
    (∀ p, Reached g (· = .inside) p → ∀ (threads : Nat) (tokens : List String)
      (schedule : Schedule) (clock clock' : Clock),
      let unused := new g p.options p.vocabulary threads
      (clock' = clock ∨ (¬GivenUp (p.parseWith tokens schedule .inside clock).1 ∧
          ¬GivenUp (unused.parseWith tokens schedule .inside clock').1)) →
        (p.parseWith tokens schedule .inside clock).1 =
            (unused.parseWith tokens schedule .inside clock').1 ∧
          (p.fillChart tokens schedule .inside clock).1 =
            (unused.fillChart tokens schedule .inside clock').1 ∧
          (p.parseWith tokens schedule .inside clock).2.2.chart =
            (unused.parseWith tokens schedule .inside clock').2.2.chart) ∧
    (∀ (o : ParserOptions) (threads threads' : Nat) (items : List BatchItem)
      (shares : List (List BatchItem)),
      items.map (·.position) = List.range items.length → shares.flatten.Perm items →
        Batch.parseShares g o threads shares = items.map fun item =>
          ((new g o .default threads').parse item.sentence item.clock).1) ∧
    (∀ (o : ParserOptions) (threads threads' : Nat) (sentences : List String),
      Batch.parse g o threads sentences = sentences.map fun sentence =>
        ((new g o .default threads').parse sentence .stopped).1) ∧
    ∀ (o : ParserOptions) (s : CommandLine.Session),
      ((CommandLine.answerInput CommandLine.Session.surroundings g o).run s).2.printed =
        s.printed ++ String.join ((CommandLine.sentencesOf (Text.byteLines s.input)).map fun
          sentence => CommandLine.answerAlone g o sentence ++ "\n") := by
  have hg := Grammar.coherent_of_compile hcompile
  refine ⟨?_, ?_, ?_, ?_⟩
  · intro p hp threads tokens schedule clock clock'
    exact hp.parseWith_eq hg threads tokens schedule
  · intro o threads threads' items shares hpositions hshares
    exact Batch.parseShares_eq hg threads threads' hpositions hshares
  · intro o threads threads' sentences
    exact Batch.parse_eq hg threads threads' sentences
  · intro o s
    exact CommandLine.printed_answerInput hg o s

theorem reused_eq_unused_twice : ∃ g, Grammar.compile (.sample true) .shift = .ok g ∧
    let options := { ParserOptions.default with
      beamWidth := some 2, wordBeamWidth := some 1, maxLength := 2, timeLimit := some 5 }
    let unused := new g options .default 1
    let used := unused.after
      [("a a a", .stopped), ("a b", .stopped), ("a a", fun looks => 3 * looks)]
    let items : List BatchItem := [⟨0, "a a", .stopped⟩, ⟨1, "", .stopped⟩, ⟨2, "a", .stopped⟩]
    let shares : List (List BatchItem) :=
      [[⟨2, "a", .stopped⟩], [⟨1, "", .stopped⟩, ⟨0, "a a", .stopped⟩]]
    (used.parse "a a" .stopped).1 = (unused.parse "a a" .stopped).1 ∧
      (used.parse "a a" .stopped).2.chart = (unused.parse "a a" .stopped).2.chart ∧
      Batch.parseShares g options 3 shares =
        items.map fun item => (unused.parse item.sentence item.clock).1 := by
  obtain ⟨g, hcompile, -⟩ := Grammar.exists_sample true
  refine ⟨g, hcompile, ?_⟩
  intro options unused used items shares
  obtain ⟨hused, hoptions, hvocabulary⟩ :=
    Reached.after (Grammar.coherent_of_compile hcompile) (p := unused) (.new _ _ _)
      [("a a a", .stopped), ("a b", .stopped), ("a a", fun looks => 3 * looks)]
  obtain ⟨hreused, hbatch, -⟩ := reused_eq_unused hcompile
  obtain ⟨hresult, -, hchart⟩ :=
    hreused used hused 1 (Text.tokens "a a") .bottomUp .stopped .stopped (Or.inl rfl)
  have hunused : new g used.options used.vocabulary 1 = unused :=
    congrArg₂ (new g · · 1) hoptions hvocabulary
  rw [hunused] at hresult hchart
  have hshares : shares.flatten.Perm items :=
    ((List.Perm.swap _ _ []).cons _).trans ((List.Perm.swap _ _ _).trans
      ((List.Perm.swap _ _ []).cons _))
  rw [parse_fst, parse_fst, parse_snd, parse_snd]
  exact ⟨hresult, hchart, hbatch options 3 1 items shares rfl hshares⟩

end Parser
end ChartParsing

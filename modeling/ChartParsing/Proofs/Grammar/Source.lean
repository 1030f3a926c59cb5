import ChartParsing.Proofs.Grammar.Coherent
import ChartParsing.Proofs.Grammar.LinePattern
import ChartParsing.Proofs.Score.Order
import ChartParsing.Proofs.Text.Backtracking
import Mathlib.Data.List.Forall2

/-!
# What grammar texts say

A grammar text is read line by line, and so is a lexicon text. Here it is said first what a
line states, by its tokens, and what can be wrong with it; then what two texts say together,
and which fault they have. Reading gives the one or the other, and each of the two texts has
only one of them: what all its lines state, or what is wrong with the first line that is wrong.
-/

namespace ChartParsing

namespace GrammarSource

/-- The lines that a text is laid out as, numbered from one. -/
structure Laid (text : String) (lines : List NumberedLine) : Prop where
  lined : Text.Lined text.toList (lines.map (·.text.toList))
  numbered : lines.map (·.lineNo) = List.range' 1 lines.length

/-- The tokens of a line. -/
def NumberedLine.tokens (l : NumberedLine) : List String := Text.tokens l.text

/-- The score that a value means: the logarithm of a probability, or a negative number as it
is. A value means nothing if it is no number, zero, or above one. -/
def Means (value : String) (score : Score) : Prop :=
  ∃ x, Numeral.read? value = some x ∧ x.isNaN = false ∧ (x == 0) = false ∧ x ≤ 1 ∧
    score = if 0 < x then Score.ln x else x

/-- A value that means no score. -/
def Meaningless (value : String) : Prop := ∀ score, ¬Means value score

/-- What a line of a grammar text can state. -/
inductive Statement
  | start (label : String)
  | rule (rule : LabelledRule)

namespace Statement

def label? : Statement → Option String
  | start label => some label
  | rule _ => none

def rule? : Statement → Option LabelledRule
  | start _ => none
  | rule r => some r

@[simp] theorem label?_start (label : String) : (start label).label? = some label := rfl

@[simp] theorem label?_rule (r : LabelledRule) : (rule r).label? = none := rfl

@[simp] theorem rule?_start (label : String) : (start label).rule? = none := rfl

@[simp] theorem rule?_rule (r : LabelledRule) : (rule r).rule? = some r := rfl

end Statement

/-- What the tokens of a line state in a grammar text. -/
inductive States : List String → Statement → Prop
  | start (label : String) : States [label] (.start label)
  | unary {parent child value : String} {score : Score} (h : Means value score) :
      States [parent, "->", child, value] (.rule ⟨parent, child, none, score⟩)
  | binary {parent left right value : String} {score : Score} (h : Means value score) :
      States [parent, "->", left, right, value] (.rule ⟨parent, left, some right, score⟩)

/-- What the tokens of a line enter into the lexicon. -/
inductive Enters : List String → LabelledRule → Prop
  | word {parent word value : String} {score : Score} (h : Means value score) :
      Enters [parent, "->", word, value] ⟨parent, word, none, score⟩

/-- What is wrong with a line of a grammar text, given the start symbols before it. -/
inductive StatementFault (declared : List String) (l : NumberedLine) : GrammarError → Prop
  | unaryValue {parent child value : String} (h : l.tokens = [parent, "->", child, value])
      (hvalue : Meaningless value) : StatementFault declared l (.badProbability l.lineNo value)
  | binaryValue {parent left right value : String}
      (h : l.tokens = [parent, "->", left, right, value]) (hvalue : Meaningless value) :
      StatementFault declared l (.badProbability l.lineNo value)
  | again {label : String} (h : l.tokens = [label]) (hdeclared : declared ≠ []) :
      StatementFault declared l (.duplicateStartSymbol l.lineNo l.text)
  | shape (hstart : ∀ label, l.tokens ≠ [label])
      (hunary : ∀ parent child value, l.tokens ≠ [parent, "->", child, value])
      (hbinary : ∀ parent left right value, l.tokens ≠ [parent, "->", left, right, value]) :
      StatementFault declared l (.malformedLine l.lineNo l.text)

/-- What is wrong with a line of a lexicon text. -/
inductive EntryFault (l : NumberedLine) : GrammarError → Prop
  | value {parent word value : String} (h : l.tokens = [parent, "->", word, value])
      (hvalue : Meaningless value) : EntryFault l (.badProbability l.lineNo value)
  | shape (hword : ∀ parent word value, l.tokens ≠ [parent, "->", word, value]) :
      EntryFault l (.malformedLine l.lineNo l.text)

/-- A line without tokens, or whose first token begins with `#` or `//`. -/
def NumberedLine.isSkipped (l : NumberedLine) : Bool :=
  l.tokens.head?.all fun first => first.startsWith "#" || first.startsWith "//"

/-- The lines of a text that are not skipped. -/
def kept (lines : List NumberedLine) : List NumberedLine := lines.filter fun l => !l.isSkipped

/-- All lines state something: these start symbols and these rules, in their order. -/
def StateAll (lines : List NumberedLine) (labels : List String) (rules : List LabelledRule) :
    Prop :=
  ∃ statements, List.Forall₂ (fun l s => States l.tokens s) lines statements ∧
    statements.filterMap Statement.label? = labels ∧ statements.filterMap Statement.rule? = rules

/-- All lines enter a word: these entries, in their order. -/
def EnterAll (lines : List NumberedLine) (entries : List LabelledRule) : Prop :=
  List.Forall₂ (fun l e => Enters l.tokens e) lines entries

/-- What the lines of a grammar text and a lexicon text say together. -/
structure Says (grammar lexicon : List NumberedLine) (source : GrammarSource) : Prop where
  rules : StateAll grammar [source.start] source.rules
  entries : EnterAll lexicon source.lexicon

/-- The fault that the lines of a grammar text and a lexicon text have: that of the first line
at fault, where a start symbol is missed after the whole grammar text. -/
inductive Faulty (grammar lexicon : List NumberedLine) : GrammarError → Prop
  | statement {before after : List NumberedLine} {l : NumberedLine} {labels : List String}
      {rules : List LabelledRule} {e : GrammarError} (hsplit : grammar = before ++ l :: after)
      (hbefore : StateAll before labels rules) (honce : labels.length ≤ 1)
      (h : StatementFault labels l e) : Faulty grammar lexicon e
  | start {rules : List LabelledRule} (h : StateAll grammar [] rules) :
      Faulty grammar lexicon .missingStartSymbol
  | entry {start : String} {rules entries : List LabelledRule} {before after : List NumberedLine}
      {l : NumberedLine} {e : GrammarError} (hgrammar : StateAll grammar [start] rules)
      (hsplit : lexicon = before ++ l :: after) (hbefore : EnterAll before entries)
      (h : EntryFault l e) : Faulty grammar lexicon e

/-! ## Lines and tokens -/

theorem lines_eq (text : String) :
    (Text.lines text).map String.toList = Text.linesOf '\n' '\r' text.toList := by
  rw [Text.lines, List.map_map]
  exact List.map_id'' (fun cs => String.toList_ofList) _

theorem map_text_numbered (text : String) :
    (numbered text).map (·.text) = Text.lines text := by
  simp [numbered, Function.comp_def]

theorem map_lineNo_numbered (text : String) :
    (numbered text).map (·.lineNo) = List.range' 1 (numbered text).length := by
  apply List.ext_getElem
  · simp
  · intro i hi hi'
    simp [numbered, Nat.add_comm]

/-- Every text is laid out in one way, by which its lines are numbered. -/
theorem laid_iff {text : String} {lines : List NumberedLine} :
    Laid text lines ↔ lines = numbered text := by
  constructor
  · rintro ⟨hlined, hnumbered⟩
    rw [Text.lined_iff, ← lines_eq, ← map_text_numbered, List.map_map] at hlined
    have htexts : lines.map (·.text) = (numbered text).map (·.text) := by
      have := congrArg (List.map String.ofList) hlined
      simpa [Function.comp_def] using this
    have hlength : lines.length = (numbered text).length := by
      simpa using congrArg List.length htexts
    have hnumbers : lines.map (·.lineNo) = (numbered text).map (·.lineNo) := by
      rw [hnumbered, map_lineNo_numbered, hlength]
    apply List.ext_getElem hlength
    intro i hi hi'
    have htext := List.getElem_of_eq htexts (by simpa using hi)
    have hnumber := List.getElem_of_eq hnumbers (by simpa using hi)
    simp only [List.getElem_map] at htext hnumber
    cases hline : lines[i]
    cases hline' : (numbered text)[i]
    rw [hline, hline'] at htext hnumber
    dsimp only at htext hnumber
    rw [htext, hnumber]
  · rintro rfl
    refine ⟨?_, map_lineNo_numbered text⟩
    rw [Text.lined_iff, ← lines_eq, ← map_text_numbered, List.map_map]
    rfl

/-- The tokens of a line are those it is laid out as. -/
theorem tokenized_iff_tokens {text : String} {tokens : List String} :
    Text.Tokenized text.toList (tokens.map String.toList) ↔ tokens = Text.tokens text := by
  rw [Text.tokenized_iff, Text.tokens]
  constructor
  · intro h
    rw [← h, List.map_map]
    exact (List.map_id'' (fun s => String.ofList_toList) tokens).symm
  · rintro rfl
    rw [List.map_map]
    exact List.map_id'' (fun cs => String.toList_ofList) _

/-! ## Values -/

theorem not_one_lt {x : Score} (hx : x.isNaN = false) : ¬1 < x ↔ x ≤ 1 :=
  ⟨Score.le_of_not_lt (by decide) hx,
    fun hle hlt => Score.lt_irrefl 1 (Score.lt_of_lt_of_le hlt hle)⟩

theorem logProb?_eq_some {value : String} {score : Score} :
    logProb? value = some score ↔ Means value score := by
  unfold logProb? Means
  cases Numeral.read? value with
  | none => simp
  | some x =>
    simp only [Option.some.injEq, exists_eq_left']
    cases hnan : x.isNaN with
    | true => simp
    | false =>
      cases hzero : x == 0 with
      | true => simp
      | false =>
        by_cases habove : 1 < x
        · have hnot : ¬x ≤ 1 := fun hle => (not_one_lt hnan).2 hle habove
          simp [hnot, habove]
        · have hle : x ≤ 1 := (not_one_lt hnan).1 habove
          by_cases hpos : 0 < x
          · simpa [habove, hle, hpos] using eq_comm (a := Score.ln x)
          · simpa [habove, hle, hpos] using eq_comm (a := x)

theorem logProb?_eq_none {value : String} : logProb? value = none ↔ Meaningless value := by
  unfold Meaningless
  simp only [← logProb?_eq_some, Option.eq_none_iff_forall_ne_some]

/-! ## One line -/

namespace NumberedLine

variable {l : NumberedLine}

theorem rule_of_means {value : String} {score : Score} (h : Means value score)
    (parent left : String) (right : Option String) :
    l.rule parent left right value = .ok ⟨parent, left, right, score⟩ := by
  rw [rule, logProb?_eq_some.2 h]

theorem rule_of_meaningless {value : String} (h : Meaningless value) (parent left : String)
    (right : Option String) :
    l.rule parent left right value = .error (.badProbability l.lineNo value) := by
  rw [rule, logProb?_eq_none.2 h]

section Groups

variable {matcher : Text.Matcher} (h : matcher.Lawful)
include h

theorem groups?_start : matcher.groups? LinePattern.start l.text =
    LinePattern.kept? [.token] l.tokens := by
  rw [LinePattern.start_eq]
  exact LinePattern.groups?_ofFields h .token [] l.text

theorem groups?_unary : matcher.groups? LinePattern.unary l.text =
    LinePattern.kept? [.token, .arrow, .token, .token] l.tokens := by
  rw [LinePattern.unary_eq]
  exact LinePattern.groups?_ofFields h .token [.arrow, .token, .token] l.text

theorem groups?_binary : matcher.groups? LinePattern.binary l.text =
    LinePattern.kept? [.token, .arrow, .token, .token, .token] l.tokens := by
  rw [LinePattern.binary_eq]
  exact LinePattern.groups?_ofFields h .token [.arrow, .token, .token, .token] l.text

end Groups

end NumberedLine

variable {l : NumberedLine} {matcher : Text.Matcher}

/-- A line of a text has no line feed in it, so whether it is skipped shows in its tokens. -/
theorem isMatch_skippable_of_mem (h : matcher.Lawful) {text : String} (hl : l ∈ numbered text) :
    matcher.isMatch LinePattern.skippable l.text = l.isSkipped := by
  have hmem : l.text.toList ∈ Text.linesOf '\n' '\r' text.toList := by
    rw [← lines_eq, ← map_text_numbered]
    exact List.mem_map_of_mem (List.mem_map_of_mem hl)
  exact LinePattern.isMatch_skippable h ((Text.lined_linesOf text.toList).not_mem_line _ hmem)

/-! ## Grammar texts -/

/-- What has been read after one more statement. -/
def RulesSoFar.add (s : RulesSoFar) : Statement → RulesSoFar
  | .start label => { s with start := some label }
  | .rule r => { s with reversed := r :: s.reversed }

theorem RulesSoFar.read_of_skipped (s : RulesSoFar)
    (h : matcher.isMatch LinePattern.skippable l.text = true) : s.read matcher l = .ok s := by
  rw [RulesSoFar.read, if_pos h]

section OneStatement

variable {s : RulesSoFar} (hlawful : matcher.Lawful)
  (hkept : matcher.isMatch LinePattern.skippable l.text = false)
include hlawful hkept

/-- A line is read by its tokens: no other pattern takes a line away from the one that they
fit, whichever is tried first. -/
theorem RulesSoFar.read_of_states {statement : Statement} (h : States l.tokens statement)
    (honce : (s.start.toList ++ statement.label?.toList).length ≤ 1) :
    s.read matcher l = .ok (s.add statement) := by
  rw [RulesSoFar.read, hkept, l.groups?_binary hlawful, l.groups?_unary hlawful,
    l.groups?_start hlawful]
  generalize l.tokens = tokens at h
  cases h with
  | start label =>
    have hnone : s.start = none := by
      cases hstart : s.start with
      | none => rfl
      | some other => simp [hstart] at honce
    simp [LinePattern.kept?, hnone, RulesSoFar.add]
  | unary hvalue => simp [LinePattern.kept?, l.rule_of_means hvalue, RulesSoFar.add, Except.map]
  | binary hvalue => simp [LinePattern.kept?, l.rule_of_means hvalue, RulesSoFar.add, Except.map]

theorem RulesSoFar.read_of_fault {e : GrammarError} (h : StatementFault s.start.toList l e) :
    s.read matcher l = .error e := by
  rw [RulesSoFar.read, hkept, l.groups?_binary hlawful, l.groups?_unary hlawful,
    l.groups?_start hlawful]
  cases h with
  | unaryValue htokens hvalue =>
    simp [htokens, LinePattern.kept?, l.rule_of_meaningless hvalue, Except.map]
  | binaryValue htokens hvalue =>
    simp [htokens, LinePattern.kept?, l.rule_of_meaningless hvalue, Except.map]
  | again htokens hdeclared =>
    obtain ⟨label, hlabel⟩ : ∃ label, s.start = some label := by
      cases hstart : s.start with
      | none => simp [hstart] at hdeclared
      | some label => exact ⟨label, rfl⟩
    simp [htokens, LinePattern.kept?, hlabel]
  | shape hstart hunary hbinary =>
    rw [LinePattern.kept?_start_eq_none hstart, LinePattern.kept?_unary_eq_none hunary,
      LinePattern.kept?_binary_eq_none hbinary]
    rfl

end OneStatement

theorem means_or_meaningless (value : String) :
    (∃ score, Means value score) ∨ Meaningless value := by
  rw [Meaningless, ← not_exists]
  exact Classical.em _

/-- A line states something or is at fault. -/
theorem states_or_fault {declared : List String} (honce : declared.length ≤ 1)
    (l : NumberedLine) :
    (∃ statement, States l.tokens statement ∧
      (declared ++ statement.label?.toList).length ≤ 1) ∨ ∃ e, StatementFault declared l e := by
  by_cases hstart : ∃ label, l.tokens = [label]
  · obtain ⟨label, htokens⟩ := hstart
    cases declared with
    | nil => exact .inl ⟨.start label, htokens ▸ .start label, by simp⟩
    | cons first declared => exact .inr ⟨_, .again htokens (List.cons_ne_nil first declared)⟩
  by_cases hunary : ∃ parent child value, l.tokens = [parent, "->", child, value]
  · obtain ⟨parent, child, value, htokens⟩ := hunary
    rcases means_or_meaningless value with ⟨score, hvalue⟩ | hvalue
    · refine .inl ⟨.rule ⟨parent, child, none, score⟩, ?_, by simpa using honce⟩
      rw [htokens]
      exact .unary hvalue
    · exact .inr ⟨_, .unaryValue htokens hvalue⟩
  by_cases hbinary : ∃ parent left right value, l.tokens = [parent, "->", left, right, value]
  · obtain ⟨parent, left, right, value, htokens⟩ := hbinary
    rcases means_or_meaningless value with ⟨score, hvalue⟩ | hvalue
    · refine .inl ⟨.rule ⟨parent, left, some right, score⟩, ?_, by simpa using honce⟩
      rw [htokens]
      exact .binary hvalue
    · exact .inr ⟨_, .binaryValue htokens hvalue⟩
  · simp only [not_exists] at hstart hunary hbinary
    exact .inr ⟨_, .shape hstart hunary hbinary⟩

/-- Whatever a list should satisfy step by step, either it does or there is a first element
that breaks it. -/
theorem all_or_first {α : Type} {P : List α → Prop} {Q : List α → α → Prop} (hnil : P [])
    (hstep : ∀ xs x, P xs → P (xs ++ [x]) ∨ Q xs x) (xs : List α) :
    P xs ∨ ∃ before x after, xs = before ++ x :: after ∧ Q before x := by
  induction xs using List.reverseRecOn with
  | nil => exact .inl hnil
  | append_singleton xs x ih =>
    rcases ih with hall | ⟨before, y, after, rfl, hfirst⟩
    · rcases hstep xs x hall with hall' | hfirst
      · exact .inl hall'
      · exact .inr ⟨xs, x, [], rfl, hfirst⟩
    · exact .inr ⟨before, y, after ++ [x], by simp, hfirst⟩

/-- Steps that do nothing for skipped lines go over the other lines only. -/
theorem foldlM_kept {β : Type} {step : β → NumberedLine → Except GrammarError β}
    {lines : List NumberedLine} (hskip : ∀ l ∈ lines, l.isSkipped = true → ∀ s, step s l = .ok s)
    (s : β) : lines.foldlM step s = (kept lines).foldlM step s := by
  induction lines generalizing s with
  | nil => rfl
  | cons l lines ih =>
    have ih := ih fun m hm => hskip m (List.mem_cons_of_mem _ hm)
    rw [List.foldlM_cons, kept, List.filter_cons]
    cases hl : l.isSkipped with
    | true =>
      rw [hskip l List.mem_cons_self hl s]
      exact ih s
    | false =>
      have ih := funext ih
      simp only [Bool.not_false, if_true, List.foldlM_cons]
      rw [ih]
      rfl

theorem isMatch_of_mem_kept (h : matcher.Lawful) {text : String} :
    ∀ l ∈ kept (numbered text), matcher.isMatch LinePattern.skippable l.text = false := by
  intro l hl
  obtain ⟨hmem, hkept⟩ := List.mem_filter.1 hl
  rw [isMatch_skippable_of_mem h hmem]
  simpa using hkept

theorem RulesSoFar.label_add {s : RulesSoFar} {statement : Statement}
    (honce : (s.start.toList ++ statement.label?.toList).length ≤ 1) :
    (s.add statement).start.toList = s.start.toList ++ statement.label?.toList := by
  cases statement with
  | start label =>
    cases hstart : s.start with
    | none => rfl
    | some other => simp [hstart] at honce
  | rule r => simp [RulesSoFar.add]

theorem RulesSoFar.rules_add (s : RulesSoFar) (statement : Statement) :
    (s.add statement).reversed.reverse = s.reversed.reverse ++ statement.rule?.toList := by
  cases statement <;> simp [RulesSoFar.add]

/-- Lines that state something are read. -/
theorem foldlM_read (hlawful : matcher.Lawful) {lines : List NumberedLine}
    {statements : List Statement}
    (hkept : ∀ l ∈ lines, matcher.isMatch LinePattern.skippable l.text = false)
    (h : List.Forall₂ (fun l s => States l.tokens s) lines statements) (s : RulesSoFar)
    (honce : (s.start.toList ++ statements.filterMap Statement.label?).length ≤ 1) :
    ∃ s', lines.foldlM (RulesSoFar.read matcher) s = .ok s' ∧
      s'.start.toList = s.start.toList ++ statements.filterMap Statement.label? ∧
      s'.reversed.reverse = s.reversed.reverse ++ statements.filterMap Statement.rule? := by
  induction h generalizing s with
  | nil => exact ⟨s, rfl, by simp, by simp⟩
  | @cons l statement lines statements hstates _ ih =>
    have hfilter {β : Type} (f : Statement → Option β) :
        (statement :: statements).filterMap f = (f statement).toList ++ statements.filterMap f := by
      cases hf : f statement <;> simp [hf]
    rw [hfilter, ← List.append_assoc] at honce
    have hfirst : (s.start.toList ++ statement.label?.toList).length ≤ 1 := by
      rw [List.length_append] at honce
      omega
    have hread := RulesSoFar.read_of_states hlawful (hkept l List.mem_cons_self) hstates hfirst
    obtain ⟨s', hs', hlabels, hrules⟩ := ih (fun m hm => hkept m (List.mem_cons_of_mem _ hm))
      (s.add statement) (by rw [RulesSoFar.label_add hfirst]; exact honce)
    refine ⟨s', ?_, ?_, ?_⟩
    · rw [List.foldlM_cons, hread]
      exact hs'
    · rw [hlabels, RulesSoFar.label_add hfirst, hfilter, List.append_assoc]
    · rw [hrules, RulesSoFar.rules_add, hfilter, List.append_assoc]

theorem stateAll_append {lines : List NumberedLine} {labels : List String}
    {rules : List LabelledRule} {statement : Statement} (h : StateAll lines labels rules)
    (hl : States l.tokens statement) :
    StateAll (lines ++ [l]) (labels ++ statement.label?.toList)
      (rules ++ statement.rule?.toList) := by
  obtain ⟨statements, hstates, rfl, rfl⟩ := h
  refine ⟨statements ++ [statement], List.rel_append hstates (.cons hl .nil), ?_, ?_⟩
  · rw [List.filterMap_append]
    cases hlabel : statement.label? <;> simp [hlabel]
  · rw [List.filterMap_append]
    cases hrule : statement.rule? <;> simp [hrule]

/-- All lines of a grammar text state something, or there is a first one at fault. -/
theorem stateAll_or_fault (lines : List NumberedLine) :
    (∃ labels rules, StateAll lines labels rules ∧ labels.length ≤ 1) ∨
      ∃ before l after, lines = before ++ l :: after ∧ ∃ labels rules e,
        StateAll before labels rules ∧ labels.length ≤ 1 ∧ StatementFault labels l e := by
  refine all_or_first (P := fun lines => ∃ labels rules,
    StateAll lines labels rules ∧ labels.length ≤ 1) ?_ ?_ lines
  · exact ⟨[], [], ⟨[], .nil, rfl, rfl⟩, Nat.zero_le 1⟩
  · rintro lines l ⟨labels, rules, hall, honce⟩
    rcases states_or_fault honce l with ⟨statement, hstates, honce'⟩ | ⟨e, hfault⟩
    · exact .inl ⟨_, _, stateAll_append hall hstates, honce'⟩
    · exact .inr ⟨labels, rules, e, hall, honce, hfault⟩

theorem exists_read_of_stateAll (hlawful : matcher.Lawful) {lines : List NumberedLine}
    {labels : List String} {rules : List LabelledRule}
    (hkept : ∀ l ∈ lines, matcher.isMatch LinePattern.skippable l.text = false)
    (h : StateAll lines labels rules) (honce : labels.length ≤ 1) :
    ∃ s, lines.foldlM (RulesSoFar.read matcher) ⟨none, []⟩ = .ok s ∧ s.start.toList = labels ∧
      s.reversed.reverse = rules := by
  obtain ⟨statements, hstates, rfl, rfl⟩ := h
  exact foldlM_read hlawful hkept hstates ⟨none, []⟩ honce

theorem foldlM_read_of_fault (hlawful : matcher.Lawful) {before after : List NumberedLine}
    {labels : List String} {rules : List LabelledRule} {e : GrammarError}
    (hkept : ∀ m ∈ before ++ l :: after, matcher.isMatch LinePattern.skippable m.text = false)
    (hbefore : StateAll before labels rules) (honce : labels.length ≤ 1)
    (hfault : StatementFault labels l e) :
    (before ++ l :: after).foldlM (RulesSoFar.read matcher) ⟨none, []⟩ = .error e := by
  obtain ⟨s, hs, rfl, -⟩ := exists_read_of_stateAll hlawful
    (fun m hm => hkept m (List.mem_append_left _ hm)) hbefore honce
  rw [List.foldlM_append, hs]
  simp only [bind, Except.bind, List.foldlM_cons,
    RulesSoFar.read_of_fault hlawful (hkept l (by simp)) hfault]

/-! ## Lexicon texts -/

theorem readEntry_of_skipped (h : matcher.isMatch LinePattern.skippable l.text = true)
    (reversed : List LabelledRule) : readEntry matcher reversed l = .ok reversed := by
  rw [readEntry, if_pos h]

section OneEntry

variable (hlawful : matcher.Lawful)
  (hkept : matcher.isMatch LinePattern.skippable l.text = false)
include hlawful hkept

theorem readEntry_of_enters {entry : LabelledRule} (h : Enters l.tokens entry)
    (reversed : List LabelledRule) : readEntry matcher reversed l = .ok (entry :: reversed) := by
  rw [readEntry, hkept, LinePattern.lexical, l.groups?_unary hlawful]
  generalize l.tokens = tokens at h
  cases h with
  | word hvalue => simp [LinePattern.kept?, l.rule_of_means hvalue, Except.map]

theorem readEntry_of_fault {e : GrammarError} (h : EntryFault l e)
    (reversed : List LabelledRule) : readEntry matcher reversed l = .error e := by
  rw [readEntry, hkept, LinePattern.lexical, l.groups?_unary hlawful]
  cases h with
  | value htokens hvalue =>
    simp [htokens, LinePattern.kept?, l.rule_of_meaningless hvalue, Except.map]
  | shape hword =>
    rw [LinePattern.kept?_unary_eq_none hword]
    rfl

end OneEntry

theorem enters_or_fault (l : NumberedLine) :
    (∃ entry, Enters l.tokens entry) ∨ ∃ e, EntryFault l e := by
  by_cases hword : ∃ parent word value, l.tokens = [parent, "->", word, value]
  · obtain ⟨parent, word, value, htokens⟩ := hword
    rcases means_or_meaningless value with ⟨score, hvalue⟩ | hvalue
    · refine .inl ⟨⟨parent, word, none, score⟩, ?_⟩
      rw [htokens]
      exact .word hvalue
    · exact .inr ⟨_, .value htokens hvalue⟩
  · simp only [not_exists] at hword
    exact .inr ⟨_, .shape hword⟩

/-- All lines of a lexicon text enter a word, or there is a first one at fault. -/
theorem enterAll_or_fault (lines : List NumberedLine) :
    (∃ entries, EnterAll lines entries) ∨
      ∃ before l after, lines = before ++ l :: after ∧ ∃ entries e,
        EnterAll before entries ∧ EntryFault l e := by
  refine all_or_first (P := fun lines => ∃ entries, EnterAll lines entries) ⟨[], .nil⟩ ?_ lines
  rintro lines l ⟨entries, hall⟩
  rcases enters_or_fault l with ⟨entry, henters⟩ | ⟨e, hfault⟩
  · exact .inl ⟨entries ++ [entry], List.rel_append hall (.cons henters .nil)⟩
  · exact .inr ⟨entries, e, hall, hfault⟩

theorem foldlM_readEntry (hlawful : matcher.Lawful) {lines : List NumberedLine}
    {entries : List LabelledRule}
    (hkept : ∀ l ∈ lines, matcher.isMatch LinePattern.skippable l.text = false)
    (h : EnterAll lines entries) (reversed : List LabelledRule) :
    lines.foldlM (readEntry matcher) reversed = .ok (entries.reverse ++ reversed) := by
  induction h generalizing reversed with
  | nil => rfl
  | @cons l entry lines entries henters _ ih =>
    rw [List.foldlM_cons, readEntry_of_enters hlawful (hkept l List.mem_cons_self) henters]
    simp only [bind, Except.bind, List.reverse_cons, List.append_assoc, List.singleton_append]
    exact ih (fun m hm => hkept m (List.mem_cons_of_mem _ hm)) _

theorem foldlM_readEntry_of_fault (hlawful : matcher.Lawful) {before after : List NumberedLine}
    {entries : List LabelledRule} {e : GrammarError}
    (hkept : ∀ m ∈ before ++ l :: after, matcher.isMatch LinePattern.skippable m.text = false)
    (hbefore : EnterAll before entries) (hfault : EntryFault l e) :
    (before ++ l :: after).foldlM (readEntry matcher) [] = .error e := by
  rw [List.foldlM_append,
    foldlM_readEntry hlawful (fun m hm => hkept m (List.mem_append_left _ hm)) hbefore]
  simp only [bind, Except.bind, List.foldlM_cons,
    readEntry_of_fault hlawful (hkept l (by simp)) hfault]

/-! ## Both texts -/

section Read

variable (hlawful : matcher.Lawful)
include hlawful

theorem foldlM_read_kept (text : String) (s : RulesSoFar) :
    (numbered text).foldlM (RulesSoFar.read matcher) s =
      (kept (numbered text)).foldlM (RulesSoFar.read matcher) s :=
  foldlM_kept (fun _ hl hskip s =>
    s.read_of_skipped ((isMatch_skippable_of_mem hlawful hl).trans hskip)) s

theorem foldlM_readEntry_kept (text : String) (reversed : List LabelledRule) :
    (numbered text).foldlM (readEntry matcher) reversed =
      (kept (numbered text)).foldlM (readEntry matcher) reversed :=
  foldlM_kept (fun _ hl hskip =>
    readEntry_of_skipped ((isMatch_skippable_of_mem hlawful hl).trans hskip)) reversed

variable {grammar lexicon : String}

theorem readRules_of_stateAll {start : String} {rules : List LabelledRule}
    (h : StateAll (kept (numbered grammar)) [start] rules) :
    readRules matcher grammar = .ok (start, rules) := by
  obtain ⟨s, hs, hstart, hrules⟩ :=
    exists_read_of_stateAll hlawful (isMatch_of_mem_kept hlawful) h (Nat.le_refl 1)
  have hsome : s.start = some start := by simpa using hstart
  rw [readRules, foldlM_read_kept hlawful, hs]
  simp [bind, Except.bind, hsome, hrules]

theorem readLexicon_of_enterAll {entries : List LabelledRule}
    (h : EnterAll (kept (numbered lexicon)) entries) :
    readLexicon matcher lexicon = .ok entries := by
  rw [readLexicon, foldlM_readEntry_kept hlawful,
    foldlM_readEntry hlawful (isMatch_of_mem_kept hlawful) h]
  simp [Except.map]

theorem read_of_said {source : GrammarSource}
    (h : Says (kept (numbered grammar)) (kept (numbered lexicon)) source) :
    read matcher grammar lexicon = .ok source := by
  rw [read, readRules_of_stateAll hlawful h.rules, readLexicon_of_enterAll hlawful h.entries]
  rfl

theorem read_of_faulty {e : GrammarError}
    (h : Faulty (kept (numbered grammar)) (kept (numbered lexicon)) e) :
    read matcher grammar lexicon = .error e := by
  cases h with
  | statement hsplit hbefore honce hfault =>
    have hread := foldlM_read_of_fault hlawful (hsplit ▸ isMatch_of_mem_kept hlawful) hbefore
      honce hfault
    rw [read, readRules, foldlM_read_kept hlawful, hsplit, hread]
    rfl
  | start hall =>
    obtain ⟨s, hs, hstart, -⟩ :=
      exists_read_of_stateAll hlawful (isMatch_of_mem_kept hlawful) hall (Nat.zero_le 1)
    have hnone : s.start = none := by simpa using hstart
    rw [read, readRules, foldlM_read_kept hlawful, hs]
    simp [bind, Except.bind, hnone]
  | entry hgrammar hsplit hbefore hfault =>
    have hread := foldlM_readEntry_of_fault hlawful (hsplit ▸ isMatch_of_mem_kept hlawful) hbefore
      hfault
    rw [read, readRules_of_stateAll hlawful hgrammar, readLexicon,
      foldlM_readEntry_kept hlawful, hsplit, hread]
    rfl

end Read

/-- Two texts say something together or have a fault. -/
theorem says_or_faulty (grammar lexicon : List NumberedLine) :
    (∃ source, Says grammar lexicon source) ∨ ∃ e, Faulty grammar lexicon e := by
  rcases stateAll_or_fault grammar with
    ⟨labels, rules, hall, honce⟩ | ⟨before, l, after, hsplit, labels, rules, e, hall, honce, hfault⟩
  · cases labels with
    | nil => exact .inr ⟨_, .start hall⟩
    | cons start labels =>
      obtain rfl : labels = [] := by
        rw [List.length_cons] at honce
        exact List.length_eq_zero_iff.1 (by omega)
      rcases enterAll_or_fault lexicon with
        ⟨entries, hentries⟩ | ⟨before, l, after, hsplit, entries, e, hbefore, hfault⟩
      · exact .inl ⟨⟨start, rules, entries⟩, hall, hentries⟩
      · exact .inr ⟨e, .entry hall hsplit hbefore hfault⟩
  · exact .inr ⟨e, .statement hsplit hall honce hfault⟩

/-- Texts are read as what their lines say, whichever matcher finds the patterns of lines in
them. Reading succeeds just if every line that is not skipped has one of the forms of its text,
with a value that means something, and there is one start symbol; and then it gives the start
symbol, the rules and the entries that the lines state, in their order. Otherwise it gives the
fault of the first line at fault, with the number of that line. -/
theorem read_eq_iff (matcher : Text.Matcher) (hlawful : matcher.Lawful)
    (grammar lexicon : String) :
    (∀ lines, Laid grammar lines ↔ lines = numbered grammar) ∧
    (∀ lines, Laid lexicon lines ↔ lines = numbered lexicon) ∧
    (∀ (l : NumberedLine) tokens,
      Text.Tokenized l.text.toList (tokens.map String.toList) ↔ tokens = l.tokens) ∧
    (∀ source, read matcher grammar lexicon = .ok source ↔
      Says (kept (numbered grammar)) (kept (numbered lexicon)) source) ∧
    ∀ e, read matcher grammar lexicon = .error e ↔
      Faulty (kept (numbered grammar)) (kept (numbered lexicon)) e := by
  refine ⟨fun _ => laid_iff, fun _ => laid_iff, fun _ _ => tokenized_iff_tokens, ?_, ?_⟩
  · refine fun source => ⟨fun hread => ?_, read_of_said hlawful⟩
    rcases says_or_faulty (kept (numbered grammar)) (kept (numbered lexicon)) with
      ⟨source', hsaid⟩ | ⟨e, hfaulty⟩
    · obtain rfl := Except.ok.inj (hread.symm.trans (read_of_said hlawful hsaid))
      exact hsaid
    · cases hread.symm.trans (read_of_faulty hlawful hfaulty)
  · refine fun e => ⟨fun hread => ?_, read_of_faulty hlawful⟩
    rcases says_or_faulty (kept (numbered grammar)) (kept (numbered lexicon)) with
      ⟨source, hsaid⟩ | ⟨e', hfaulty⟩
    · cases hread.symm.trans (read_of_said hlawful hsaid)
    · obtain rfl := Except.error.inj (hread.symm.trans (read_of_faulty hlawful hfaulty))
      exact hfaulty

/-- Labels may look like arrows and comments. -/
theorem read_eq_iff_sample :
    Text.Matcher.backtracking.Lawful ∧
    read .backtracking "S\r\n\t// x\n\n-> -> # A -2\nA -> -> -1" "A -> // -0.5\n" =
      .ok ⟨"S", [⟨"->", "#", some "A", -2⟩, ⟨"A", "->", none, -1⟩], [⟨"A", "//", none, -0.5⟩]⟩ ∧
    read .backtracking "S\n\n-> -> -1\nS" "# A" = .error (.malformedLine 3 "-> -> -1") := by
  refine ⟨Text.Matcher.lawful_backtracking, ?_, ?_⟩
  · have hgrammar : kept (numbered "S\r\n\t// x\n\n-> -> # A -2\nA -> -> -1") =
        [⟨1, "S"⟩, ⟨4, "-> -> # A -2"⟩, ⟨5, "A -> -> -1"⟩] := by decide +kernel
    have hlexicon : kept (numbered "A -> // -0.5\n") = [⟨1, "A -> // -0.5"⟩] := by decide +kernel
    refine ((read_eq_iff .backtracking Text.Matcher.lawful_backtracking _ _).2.2.2.1 _).2 ?_
    rw [hgrammar, hlexicon]
    have hvalue {value : String} {score : Score} (h : logProb? value = some score) :
        Means value score := logProb?_eq_some.1 h
    have hstates : List.Forall₂ (fun l s => States (NumberedLine.tokens l) s)
        [⟨1, "S"⟩, ⟨4, "-> -> # A -2"⟩, ⟨5, "A -> -> -1"⟩]
        [.start "S", .rule ⟨"->", "#", some "A", -2⟩, .rule ⟨"A", "->", none, -1⟩] :=
      .cons (.start "S") (.cons (.binary (hvalue rfl)) (.cons (.unary (hvalue rfl)) .nil))
    exact ⟨⟨_, hstates, rfl, rfl⟩, .cons (.word (hvalue rfl)) .nil⟩
  · have hgrammar : kept (numbered "S\n\n-> -> -1\nS") =
        [⟨1, "S"⟩, ⟨3, "-> -> -1"⟩, ⟨4, "S"⟩] := by decide +kernel
    refine ((read_eq_iff .backtracking Text.Matcher.lawful_backtracking _ _).2.2.2.2 _).2 ?_
    rw [hgrammar]
    have hbefore : List.Forall₂ (fun l s => States (NumberedLine.tokens l) s)
        [⟨1, "S"⟩] [.start "S"] := .cons (.start "S") .nil
    have htokens : (NumberedLine.mk 3 "-> -> -1").tokens = ["->", "->", "-1"] := rfl
    exact .statement rfl ⟨_, hbefore, rfl, rfl⟩ (Nat.le_refl 1)
      (.shape (by simp [htokens]) (by simp [htokens]) (by simp [htokens]))

end GrammarSource
end ChartParsing

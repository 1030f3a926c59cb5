import ChartParsing.Proofs.Grammar.Numbering
import ChartParsing.Proofs.Grammar.Source
import ChartParsing.Proofs.Grammar.Views
import ChartParsing.Proofs.Score.Bounded

/-!
# Scores of grammars that are read

A value in a text is a probability or a negative number, so no rule that is read has a score
above zero. Rules that are listed more than once can make a score above zero together, as no
probability would; but however often they are listed, the scores stay bounded.
-/

namespace ChartParsing

namespace GrammarSource

/-- No rule and no entry has a score above zero. -/
structure Lowered (s : GrammarSource) : Prop where
  rules : ∀ r ∈ s.rules, r.logProb ≤ 0
  lexicon : ∀ e ∈ s.lexicon, e.logProb ≤ 0

theorem Means.le_zero {value : String} {score : Score} (h : Means value score) : score ≤ 0 := by
  obtain ⟨x, -, hnumber, -, -, rfl⟩ := h
  split_ifs with hpos
  · exact Score.ln_le_zero x
  · exact Score.le_of_not_lt rfl hnumber hpos

theorem NumberedLine.logProb_le_zero {l : NumberedLine} {parent left value : String}
    {right : Option String} {r : LabelledRule} (h : l.rule parent left right value = .ok r) :
    r.logProb ≤ 0 := by
  unfold rule at h
  cases hvalue : logProb? value with
  | none =>
    rw [hvalue] at h
    cases h
  | some score =>
    rw [hvalue] at h
    obtain rfl := Except.ok.inj h
    exact (logProb?_eq_some.1 hvalue).le_zero

variable {matcher : Text.Matcher}

/-- Whatever a matcher finds in it, a line adds at most a rule, with no score above zero. -/
theorem RulesSoFar.read_lowered {s s' : RulesSoFar} {l : NumberedLine}
    (h : s.read matcher l = .ok s') (hs : ∀ r ∈ s.reversed, r.logProb ≤ 0) :
    ∀ r ∈ s'.reversed, r.logProb ≤ 0 := by
  have hrule {parent left value : String} {right : Option String}
      (h : (l.rule parent left right value).map
        (fun r => { s with reversed := r :: s.reversed }) = .ok s') :
      ∀ r ∈ s'.reversed, r.logProb ≤ 0 := by
    cases hr : l.rule parent left right value with
    | error e =>
      rw [hr] at h
      cases h
    | ok r =>
      rw [hr] at h
      obtain rfl := Except.ok.inj h
      exact List.forall_mem_cons.2 ⟨l.logProb_le_zero hr, hs⟩
  unfold RulesSoFar.read at h
  split_ifs at h
  · obtain rfl := Except.ok.inj h
    exact hs
  · split at h
    · exact hrule h
    · split at h
      · exact hrule h
      · split at h
        · split at h
          · cases h
          · obtain rfl := Except.ok.inj h
            exact hs
        · cases h

theorem readEntry_lowered {reversed entries : List LabelledRule} {l : NumberedLine}
    (h : readEntry matcher reversed l = .ok entries) (hs : ∀ e ∈ reversed, e.logProb ≤ 0) :
    ∀ e ∈ entries, e.logProb ≤ 0 := by
  unfold readEntry at h
  split_ifs at h
  · obtain rfl := Except.ok.inj h
    exact hs
  · split at h
    · rename_i parent word value _
      cases he : l.rule parent word none value with
      | error e =>
        rw [he] at h
        cases h
      | ok e =>
        rw [he] at h
        obtain rfl := Except.ok.inj h
        exact List.forall_mem_cons.2 ⟨l.logProb_le_zero he, hs⟩
    · cases h

theorem lowered_of_read {grammar lexicon : String} {source : GrammarSource}
    (h : read matcher grammar lexicon = .ok source) : source.Lowered := by
  unfold read at h
  rw [bind_eq_ok] at h
  obtain ⟨⟨start, rules⟩, hrules, h⟩ := h
  rw [bind_eq_ok] at h
  obtain ⟨entries, hentries, h⟩ := h
  obtain rfl := Except.ok.inj h
  constructor
  · unfold readRules at hrules
    rw [bind_eq_ok] at hrules
    obtain ⟨s, hs, hrules⟩ := hrules
    have hlow := of_foldlM_eq_ok RulesSoFar.read_lowered hs (by simp)
    split at hrules
    · obtain ⟨-, rfl⟩ := Prod.mk.inj (Except.ok.inj hrules)
      simpa using hlow
    · cases hrules
  · unfold readLexicon at hentries
    cases hs : (numbered lexicon).foldlM (readEntry matcher) [] with
    | error e =>
      rw [hs] at hentries
      cases hentries
    | ok reversed =>
      rw [hs] at hentries
      obtain rfl := Except.ok.inj hentries
      simpa using of_foldlM_eq_ok readEntry_lowered hs (by simp)

end GrammarSource

/-! ## Compiled scores -/

/-- However often a rule is listed, its scores are bounded together. -/
theorem Production.atMost_of_weight? {productions : List Production} {parent : UInt16}
    {expansion : Expansion} {score : Score} (hlow : ∀ p ∈ productions, p.logProb ≤ 0)
    (h : weight? productions parent expansion = some score) : score.AtMost 1 := by
  have hvalues : ∀ value ∈ (productions.filter fun p =>
      p.parent = parent ∧ p.expansion = expansion).map (·.logProb), value.AtMost 1 := by
    intro value hvalue
    obtain ⟨p, hp, rfl⟩ := List.mem_map.1 hvalue
    exact (Score.atMost_of_le_zero (hlow p (List.mem_filter.1 hp).1)).mono (Nat.zero_le 1)
  unfold weight? at h
  cases hlist : (productions.filter fun p =>
      p.parent = parent ∧ p.expansion = expansion).map (·.logProb) with
  | nil =>
    rw [hlist] at h
    cases h
  | cons value values =>
    rw [hlist] at h hvalues
    obtain rfl := Option.some.inj h
    obtain ⟨hvalue, hvalues⟩ := List.forall_mem_cons.1 hvalues
    exact hvalue.foldl_logSum hvalues

namespace Grammar

/-- No binary rule and no tag of a word has a score above the bound. -/
structure Bounded (g : Grammar) : Prop where
  binary : ∀ parent left right score, g.HasBinary parent left right score → score.AtMost 1
  tag : ∀ tag word score, g.HasTag tag word score → score.AtMost 1

variable {source : GrammarSource} {kind : PackingKind} {g : Grammar}

theorem bounded_of_compile (hlow : source.Lowered) (h : compile source kind = .ok g) :
    g.Bounded := by
  rw [compile_eq] at h
  split_ifs at h with hmany
  obtain ⟨-, binary, hmade⟩ := ofProductions_ok h
  have hproductions : ∀ p ∈ productionsOf source (.ofList source.numbering)
      (.ofList source.words), p.logProb ≤ 0 := by
    intro p hp
    rcases List.mem_append.1 hp with hp | hp
    · obtain ⟨entry, hentry, rfl⟩ := List.mem_map.1 hp
      exact hlow.lexicon entry hentry
    · obtain ⟨rule, hrule, rfl⟩ := List.mem_map.1 hp
      exact hlow.rules rule hrule
  exact ⟨fun _ _ _ _ hrule =>
      Production.atMost_of_weight? hproductions (hmade.hasBinary_iff_weight?.1 hrule),
    fun _ _ _ htag => Production.atMost_of_weight? hproductions (hmade.hasTag_iff.1 htag)⟩

theorem compile_of_ofText {matcher : Text.Matcher} {grammar lexicon : String}
    (h : ofText matcher grammar lexicon kind = .ok g) :
    ∃ source, compile source kind = .ok g ∧ source.Lowered := by
  unfold ofText at h
  rw [bind_eq_ok] at h
  obtain ⟨source, hread, hcompile⟩ := h
  exact ⟨source, hcompile, GrammarSource.lowered_of_read hread⟩

end Grammar
end ChartParsing

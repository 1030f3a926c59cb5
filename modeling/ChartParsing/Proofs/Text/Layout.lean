import ChartParsing.Text.Blank
import ChartParsing.Text.Line
import Mathlib.Tactic.SplitIfs

/-!
# How a text is laid out

A text is cut into lines, and a line into tokens. Both cuts are described here by what lies
between the pieces: ends of lines in the one case, runs of blanks in the other. Every text
has exactly one such layout, and it is the one that is computed.
-/

namespace ChartParsing.Text

/-! ## Tokens -/

/-- Blanks and tokens in turn. A token has no blank in it, and a blank or nothing after it. -/
inductive Tokenized : List Char → List (List Char) → Prop
  | blanks {blanks : List Char} (h : ∀ c ∈ blanks, isBlank c = true) : Tokenized blanks []
  | token {blanks token rest : List Char} {tokens : List (List Char)}
      (hblanks : ∀ c ∈ blanks, isBlank c = true) (hne : token ≠ [])
      (htoken : ∀ c ∈ token, isBlank c = false) (hend : ∀ c ∈ rest.head?, isBlank c = true)
      (hrest : Tokenized rest tokens) : Tokenized (blanks ++ token ++ rest) (token :: tokens)

theorem tokenRuns_cons_blank {c : Char} (h : isBlank c = true) (cs : List Char) :
    tokenRuns (c :: cs) = tokenRuns cs := by
  rw [tokenRuns, splitRuns_cons_blank h]
  rfl

theorem tokenRuns_blanks_append {blanks : List Char} (h : ∀ c ∈ blanks, isBlank c = true)
    (cs : List Char) : tokenRuns (blanks ++ cs) = tokenRuns cs := by
  induction blanks with
  | nil => rfl
  | cons c blanks ih =>
    rw [List.cons_append, tokenRuns_cons_blank (h c List.mem_cons_self)]
    exact ih fun d hd => h d (List.mem_cons_of_mem _ hd)

/-- A run in front of a blank, or of nothing, is split off as it is. -/
theorem splitRuns_append {token rest : List Char} (htoken : ∀ c ∈ token, isBlank c = false)
    (hend : ∀ c ∈ rest.head?, isBlank c = true) :
    splitRuns (token ++ rest) = (token, tokenRuns rest) := by
  induction token with
  | nil =>
    cases rest with
    | nil => rfl
    | cons c rest =>
      have hblank := hend c rfl
      rw [List.nil_append, splitRuns_cons_blank hblank, tokenRuns_cons_blank hblank]
  | cons c token ih =>
    rw [List.cons_append, splitRuns_cons_mark (htoken c List.mem_cons_self),
      ih fun d hd => htoken d (List.mem_cons_of_mem _ hd)]

theorem Tokenized.tokenRuns_eq {cs : List Char} {tokens : List (List Char)}
    (h : Tokenized cs tokens) : tokenRuns cs = tokens := by
  induction h with
  | @blanks blanks hblanks =>
    rw [← List.append_nil blanks, tokenRuns_blanks_append hblanks]
    rfl
  | @token blanks token rest tokens hblanks hne htoken hend _ ih =>
    rw [List.append_assoc, tokenRuns_blanks_append hblanks, tokenRuns,
      splitRuns_append htoken hend, ih]
    obtain ⟨c, token, rfl⟩ := List.exists_cons_of_ne_nil hne
    rfl

theorem Tokenized.cons_blank {cs : List Char} {tokens : List (List Char)} {c : Char}
    (hc : isBlank c = true) (h : Tokenized cs tokens) : Tokenized (c :: cs) tokens := by
  cases h with
  | blanks hblanks => exact .blanks (List.forall_mem_cons.2 ⟨hc, hblanks⟩)
  | token hblanks hne htoken hend hrest =>
    exact .token (List.forall_mem_cons.2 ⟨hc, hblanks⟩) hne htoken hend hrest

theorem Tokenized.consRun {run rest : List Char} {tokens : List (List Char)}
    (hrun : ∀ c ∈ run, isBlank c = false) (hend : ∀ c ∈ rest.head?, isBlank c = true)
    (hrest : Tokenized rest tokens) : Tokenized (run ++ rest) (consRun run tokens) := by
  cases run with
  | nil => exact hrest
  | cons c run =>
    have hblanks : ∀ d ∈ ([] : List Char), isBlank d = true := by simp
    exact .token hblanks (List.cons_ne_nil c run) hrun hend hrest

/-- The run that reaches the front is followed by a blank or nothing, and then by the tokens
that were found after it. -/
theorem exists_after_splitRuns (cs : List Char) :
    ∃ rest, cs = (splitRuns cs).1 ++ rest ∧ (∀ c ∈ (splitRuns cs).1, isBlank c = false) ∧
      (∀ c ∈ rest.head?, isBlank c = true) ∧ Tokenized rest (splitRuns cs).2 := by
  induction cs with
  | nil => exact ⟨[], rfl, by simp, by simp, .blanks (by simp)⟩
  | cons c cs ih =>
    obtain ⟨rest, hcs, hrun, hend, hrest⟩ := ih
    cases hc : isBlank c with
    | true =>
      have htokens : Tokenized cs (tokenRuns cs) := by
        have := hrest.consRun hrun hend
        rwa [← hcs] at this
      rw [splitRuns_cons_blank hc]
      exact ⟨c :: cs, rfl, by simp, by simpa using hc, htokens.cons_blank hc⟩
    | false =>
      rw [splitRuns_cons_mark hc]
      exact ⟨rest, congrArg (c :: ·) hcs, List.forall_mem_cons.2 ⟨hc, hrun⟩, hend, hrest⟩

/-- The tokens of a text are those between its blanks. -/
theorem tokenized_iff {cs : List Char} {tokens : List (List Char)} :
    Tokenized cs tokens ↔ tokens = tokenRuns cs := by
  constructor
  · exact fun h => h.tokenRuns_eq.symm
  · rintro rfl
    obtain ⟨rest, hcs, hrun, hend, hrest⟩ := exists_after_splitRuns cs
    have := hrest.consRun hrun hend
    rwa [← hcs] at this

/-! ## Lines -/

/-- Lines with their ends. A line ends at a line feed, to which a carriage return before it
belongs; what is left after the last line feed is a line if it is anything. -/
inductive Lined : List Char → List (List Char) → Prop
  | none : Lined [] []
  | last {line : List Char} (hne : line ≠ []) (hline : '\n' ∉ line) : Lined line [line]
  | feed {line rest : List Char} {lines : List (List Char)} (hline : '\n' ∉ line)
      (hend : line.getLast? ≠ some '\r') (hrest : Lined rest lines) :
      Lined (line ++ '\n' :: rest) (line :: lines)
  | carriageFeed {line rest : List Char} {lines : List (List Char)} (hline : '\n' ∉ line)
      (hrest : Lined rest lines) : Lined (line ++ '\r' :: '\n' :: rest) (line :: lines)

/-- No line has the end of a line in it. -/
theorem Lined.not_mem_line {cs : List Char} {lines : List (List Char)} (h : Lined cs lines) :
    ∀ line ∈ lines, '\n' ∉ line := by
  induction h with
  | none => simp
  | last hne hline => simpa using hline
  | feed hline hend hrest ih => exact List.forall_mem_cons.2 ⟨hline, ih⟩
  | carriageFeed hline hrest ih => exact List.forall_mem_cons.2 ⟨hline, ih⟩

section Pieces

variable {stop : Char} {line : List Char}

theorem pieces_of_not_mem (h : stop ∉ line) : pieces stop line = [line] := by
  induction line with
  | nil => rfl
  | cons c line ih =>
    rw [List.mem_cons, not_or] at h
    obtain ⟨hc, hline⟩ := h
    have ih := ih hline
    unfold pieces at ih ⊢
    rw [List.foldr_cons, ih, if_neg (by simpa using Ne.symm hc)]

theorem pieces_append (h : stop ∉ line) (rest : List Char) :
    pieces stop (line ++ stop :: rest) = line :: pieces stop rest := by
  induction line with
  | nil =>
    unfold pieces
    rw [List.nil_append, List.foldr_cons, if_pos (beq_self_eq_true stop)]
  | cons c line ih =>
    rw [List.mem_cons, not_or] at h
    obtain ⟨hc, hline⟩ := h
    have ih := ih hline
    unfold pieces at ih ⊢
    rw [List.cons_append, List.foldr_cons, ih, if_neg (by simpa using Ne.symm hc)]

theorem pieces_ne_nil (stop : Char) (cs : List Char) : pieces stop cs ≠ [] := by
  by_cases h : stop ∈ cs
  · obtain ⟨line, rest, rfl, hline⟩ := List.eq_append_cons_of_mem h
    rw [pieces_append hline]
    exact List.cons_ne_nil _ _
  · rw [pieces_of_not_mem h]
    exact List.cons_ne_nil _ _

end Pieces

theorem linesOf_append {line : List Char} (h : '\n' ∉ line) (rest : List Char) :
    linesOf '\n' '\r' (line ++ '\n' :: rest) =
      dropTrailing '\r' line :: linesOf '\n' '\r' rest := by
  unfold linesOf
  rw [pieces_append h]
  obtain ⟨piece, more, hpieces⟩ := List.exists_cons_of_ne_nil (pieces_ne_nil '\n' rest)
  rw [hpieces]
  simp only [List.dropLast_cons_cons, List.map_cons, List.cons_append, List.getLastD_cons]

theorem linesOf_of_not_mem {line : List Char} (h : '\n' ∉ line) :
    linesOf '\n' '\r' line = if line.isEmpty then [] else [line] := by
  unfold linesOf
  rw [pieces_of_not_mem h]
  rfl

theorem Lined.linesOf_eq {cs : List Char} {lines : List (List Char)} (h : Lined cs lines) :
    linesOf '\n' '\r' cs = lines := by
  induction h with
  | none => rfl
  | last hne hline =>
    rw [linesOf_of_not_mem hline, if_neg (by simpa using hne)]
  | feed hline hend _ ih =>
    rw [linesOf_append hline, ih, dropTrailing, if_neg (by simpa using hend)]
  | @carriageFeed line rest lines hline _ ih =>
    have hreturn : '\n' ∉ line ++ ['\r'] := by
      rw [List.mem_append, List.mem_singleton]
      exact not_or.2 ⟨hline, by decide⟩
    have hcs : line ++ '\r' :: '\n' :: rest = (line ++ ['\r']) ++ '\n' :: rest := by simp
    rw [hcs, linesOf_append hreturn, ih, dropTrailing, if_pos (by simp), List.dropLast_concat]

theorem lined_linesOf (cs : List Char) : Lined cs (linesOf '\n' '\r' cs) := by
  induction hlength : cs.length using Nat.strongRecOn generalizing cs with
  | ind n ih =>
    by_cases hfeed : '\n' ∈ cs
    · obtain ⟨line, rest, rfl, hline⟩ := List.eq_append_cons_of_mem hfeed
      have hrest := ih rest.length (by rw [← hlength]; simp; omega) rest rfl
      rw [linesOf_append hline, dropTrailing]
      split_ifs with hend
      · obtain ⟨line, rfl⟩ := List.getLast?_eq_some_iff.1 (beq_iff_eq.1 hend)
        rw [List.dropLast_concat, List.append_assoc]
        exact .carriageFeed (fun h => hline (List.mem_append_left _ h)) hrest
      · exact .feed hline (fun h => hend (beq_iff_eq.2 h)) hrest
    · rw [linesOf_of_not_mem hfeed]
      cases cs with
      | nil => exact .none
      | cons c cs => exact .last (List.cons_ne_nil c cs) hfeed

/-- The lines of a text are those between their ends. -/
theorem lined_iff {cs : List Char} {lines : List (List Char)} :
    Lined cs lines ↔ lines = linesOf '\n' '\r' cs := by
  constructor
  · exact fun h => h.linesOf_eq.symm
  · rintro rfl
    exact lined_linesOf cs

end ChartParsing.Text

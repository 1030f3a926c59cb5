import ChartParsing.Grammar.Source
import ChartParsing.Proofs.Text.Pattern

/-!
# Lines by their tokens

The patterns that lines are matched against overlap, and a match could fall in many ways. It
never does: the blanks between two fields of a pattern and the marks in them leave a field no
other text than a whole token. So a pattern of fields matches a line just if its tokens fit
the fields, one by one, and keeps those that are no arrows; and the pattern for lines that are
skipped matches those that have no token or a first one that opens a comment.
-/

namespace ChartParsing.GrammarSource.LinePattern

open Text Text.Pattern

/-- A part of a line between blanks. -/
inductive Field
  /-- Any token. It is kept. -/
  | token
  | arrow

def Field.pattern : Field → Pattern
  | token => LinePattern.token
  | arrow => LinePattern.arrow

/-- The patterns of what comes after a field. -/
def after : List Field → List Pattern
  | [] => [blanks]
  | f :: fs => gap :: f.pattern :: after fs

/-- The pattern of a line with the given fields. -/
def ofFields (f : Field) (fs : List Field) : Pattern := sequence (blanks :: f.pattern :: after fs)

/-- What is kept of tokens that fit some fields. -/
def kept? : List Field → List String → Option (List String)
  | [], [] => some []
  | .token :: fs, t :: ts => (kept? fs ts).map (t :: ·)
  | .arrow :: fs, t :: ts => if t = "->" then kept? fs ts else none
  | _, _ => none

theorem start_eq : start = ofFields .token [] := rfl

theorem unary_eq : unary = ofFields .token [.arrow, .token, .token] := rfl

theorem binary_eq : binary = ofFields .token [.arrow, .token, .token, .token] := rfl

variable {cs : List Char} {found : List (Option (List Char))}

/-! ## Fields -/

theorem matches_blanks :
    blanks.Matches cs found ↔ (∀ c ∈ cs, isBlank c = true) ∧ found = [] := by
  simp [blanks, matches_run, CharClass.has]

theorem matches_gap :
    gap.Matches cs found ↔ (∀ c ∈ cs, isBlank c = true) ∧ cs ≠ [] ∧ found = [] := by
  simp [gap, matches_run, CharClass.has, Nat.one_le_iff_ne_zero]

/-- The texts that tokens are kept as. -/
def keptTexts (tokens : List String) : List (Option (List Char)) :=
  tokens.map fun t => some t.toList

/-- A field is a token of its own. -/
theorem matches_field {f : Field} : f.pattern.Matches cs found ↔
    cs ≠ [] ∧ (∀ c ∈ cs, isBlank c = false) ∧
      ∃ more, kept? [f] [String.ofList cs] = some more ∧ found = keptTexts more := by
  cases f with
  | token =>
    simp only [Field.pattern, token, matches_group, matches_run, kept?, keptTexts, CharClass.has,
      Option.map_some, Option.some.injEq, exists_eq_left', List.map_cons, List.map_nil,
      String.toList_ofList, Bool.not_eq_true', Nat.one_le_iff_ne_zero, ne_eq,
      List.length_eq_zero_iff]
    constructor
    · rintro ⟨kept, ⟨hmarks, hne, rfl⟩, rfl⟩
      exact ⟨hne, hmarks, rfl⟩
    · rintro ⟨hne, hmarks, rfl⟩
      exact ⟨[], ⟨hmarks, hne, rfl⟩, rfl⟩
  | arrow =>
    simp only [Field.pattern, arrow, matches_literal, kept?, Option.ite_none_right_eq_some,
      Option.some.injEq]
    constructor
    · rintro ⟨rfl, rfl⟩
      exact ⟨by decide, by simp [isBlank], [], ⟨String.ofList_toList, rfl⟩, rfl⟩
    · rintro ⟨-, -, more, ⟨harrow, rfl⟩, rfl⟩
      exact ⟨by rw [← harrow, String.toList_ofList], rfl⟩

theorem kept?_cons {f : Field} {fs : List Field} {t : String} {ts kept : List String} :
    kept? (f :: fs) (t :: ts) = some kept ↔
      ∃ first more, kept? [f] [t] = some first ∧ kept? fs ts = some more ∧ kept = first ++ more := by
  cases f with
  | token =>
    simp only [kept?, Option.map_some, Option.some.injEq, Option.map_eq_some_iff]
    constructor
    · rintro ⟨more, hmore, rfl⟩
      exact ⟨[t], more, rfl, hmore, rfl⟩
    · rintro ⟨first, more, rfl, hmore, rfl⟩
      exact ⟨more, hmore, rfl⟩
  | arrow =>
    simp only [kept?, Option.ite_none_right_eq_some, Option.some.injEq]
    constructor
    · rintro ⟨harrow, hkept⟩
      exact ⟨[], kept, ⟨harrow, rfl⟩, hkept, rfl⟩
    · rintro ⟨first, more, ⟨harrow, rfl⟩, hmore, rfl⟩
      exact ⟨harrow, hmore⟩

/-! ## Tokens -/

/-- The tokens of some characters. -/
def tokensOf (cs : List Char) : List String := (tokenRuns cs).map String.ofList

/-- A token in front of a blank or of nothing is the first of the tokens. -/
theorem tokensOf_token {blanks token rest : List Char} (hblanks : ∀ c ∈ blanks, isBlank c = true)
    (hne : token ≠ []) (htoken : ∀ c ∈ token, isBlank c = false)
    (hend : ∀ c ∈ rest.head?, isBlank c = true) :
    tokensOf (blanks ++ (token ++ rest)) = String.ofList token :: tokensOf rest := by
  have htokens : Tokenized (blanks ++ token ++ rest) (token :: tokenRuns rest) :=
    .token hblanks hne htoken hend (tokenized_iff.2 rfl)
  rw [tokensOf, ← List.append_assoc, htokens.tokenRuns_eq]
  rfl

theorem tokensOf_blanks (h : ∀ c ∈ cs, isBlank c = true) : tokensOf cs = [] := by
  rw [tokensOf, (Tokenized.blanks h).tokenRuns_eq]
  rfl

/-- Characters without tokens are blanks, and a first token has blanks before it, and a blank or
nothing after it. -/
theorem tokensOf_cases (cs : List Char) :
    (tokensOf cs = [] ∧ ∀ c ∈ cs, isBlank c = true) ∨
    ∃ blanks token rest, cs = blanks ++ (token ++ rest) ∧ (∀ c ∈ blanks, isBlank c = true) ∧
      token ≠ [] ∧ (∀ c ∈ token, isBlank c = false) ∧ (∀ c ∈ rest.head?, isBlank c = true) ∧
      tokensOf cs = String.ofList token :: tokensOf rest := by
  have htokenized : Tokenized cs (tokenRuns cs) := tokenized_iff.2 rfl
  generalize tokenRuns cs = runs at htokenized
  cases htokenized with
  | blanks hblanks => exact .inl ⟨tokensOf_blanks hblanks, hblanks⟩
  | token hblanks hne htoken hend hrest =>
    exact .inr ⟨_, _, _, List.append_assoc .., hblanks, hne, htoken, hend, by
      rw [List.append_assoc, tokensOf_token hblanks hne htoken hend]⟩

/-- What comes after a field begins with a blank, or is nothing, and is matched just if its
tokens fit the fields. -/
theorem matches_after {fs : List Field} : (sequence (after fs)).Matches cs found ↔
    (∀ c ∈ cs.head?, isBlank c = true) ∧
      ∃ kept, kept? fs (tokensOf cs) = some kept ∧ found = keptTexts kept := by
  induction fs generalizing cs found with
  | nil =>
    rw [after, matches_sequence_singleton, matches_blanks]
    constructor
    · rintro ⟨hblanks, rfl⟩
      refine ⟨fun c hc => hblanks c (List.mem_of_mem_head? hc), [], ?_, rfl⟩
      rw [tokensOf_blanks hblanks]
      rfl
    · rintro ⟨-, kept, hkept, rfl⟩
      rcases tokensOf_cases cs with ⟨hnil, hblanks⟩ | ⟨_, _, _, -, -, -, -, -, htokens⟩
      · rw [hnil] at hkept
        exact ⟨hblanks, by rw [← Option.some.inj hkept]; rfl⟩
      · rw [htokens] at hkept
        cases hkept
  | cons f fs ih =>
    simp only [after, matches_sequence_cons, matches_gap, matches_field]
    constructor
    · rintro ⟨blanks, _, _, _, ⟨hblanks, hne, rfl⟩, ⟨token, rest, _, _,
        ⟨htoken, hmarks, first, hfirst, rfl⟩, hrest, rfl, rfl⟩, rfl, rfl⟩
      obtain ⟨hend, more, hmore, rfl⟩ := ih.1 hrest
      refine ⟨?_, first ++ more, ?_, by simp [keptTexts]⟩
      · obtain ⟨c, blanks, rfl⟩ := List.exists_cons_of_ne_nil hne
        simpa using hblanks c List.mem_cons_self
      · rw [tokensOf_token hblanks htoken hmarks hend]
        exact kept?_cons.2 ⟨first, more, hfirst, hmore, rfl⟩
    · rintro ⟨hhead, kept, hkept, rfl⟩
      rcases tokensOf_cases cs with
        ⟨hnil, -⟩ | ⟨blanks, token, rest, rfl, hblanks, htoken, hmarks, hend, htokens⟩
      · rw [hnil] at hkept
        cases f <;> cases hkept
      · rw [htokens] at hkept
        obtain ⟨first, more, hfirst, hmore, rfl⟩ := kept?_cons.1 hkept
        -- the token cannot reach the front, where a blank is
        have hne : blanks ≠ [] := by
          rintro rfl
          obtain ⟨c, token, rfl⟩ := List.exists_cons_of_ne_nil htoken
          have hblank := hhead c rfl
          rw [hmarks c List.mem_cons_self] at hblank
          cases hblank
        exact ⟨blanks, token ++ rest, [], keptTexts (first ++ more), ⟨hblanks, hne, rfl⟩,
          ⟨token, rest, keptTexts first, keptTexts more, ⟨htoken, hmarks, first, hfirst, rfl⟩,
            ih.2 ⟨hend, more, hmore, rfl⟩, rfl, by simp [keptTexts]⟩, rfl, rfl⟩

/-- A pattern of fields matches just the lines whose tokens fit. -/
theorem matches_ofFields {f : Field} {fs : List Field} : (ofFields f fs).Matches cs found ↔
    ∃ kept, kept? (f :: fs) (tokensOf cs) = some kept ∧ found = keptTexts kept := by
  simp only [ofFields, matches_sequence_cons, matches_blanks, matches_field, matches_after]
  constructor
  · rintro ⟨blanks, _, _, _, ⟨hblanks, rfl⟩, ⟨token, rest, _, _,
      ⟨htoken, hmarks, first, hfirst, rfl⟩, ⟨hend, more, hmore, rfl⟩, rfl, rfl⟩, rfl, rfl⟩
    refine ⟨first ++ more, ?_, by simp [keptTexts]⟩
    rw [tokensOf_token hblanks htoken hmarks hend]
    exact kept?_cons.2 ⟨first, more, hfirst, hmore, rfl⟩
  · rintro ⟨kept, hkept, rfl⟩
    rcases tokensOf_cases cs with
      ⟨hnil, -⟩ | ⟨blanks, token, rest, rfl, hblanks, htoken, hmarks, hend, htokens⟩
    · rw [hnil] at hkept
      cases f <;> cases hkept
    · rw [htokens] at hkept
      obtain ⟨first, more, hfirst, hmore, rfl⟩ := kept?_cons.1 hkept
      exact ⟨blanks, token ++ rest, [], keptTexts (first ++ more), ⟨hblanks, rfl⟩,
        ⟨token, rest, keptTexts first, keptTexts more, ⟨htoken, hmarks, first, hfirst, rfl⟩,
          ⟨hend, more, hmore, rfl⟩, rfl, by simp [keptTexts]⟩, rfl, rfl⟩

/-- A matcher finds in a line of fields what is kept of its tokens. -/
theorem groups?_ofFields {matcher : Matcher} (h : matcher.Lawful) (f : Field) (fs : List Field)
    (line : String) :
    matcher.groups? (ofFields f fs) line = kept? (f :: fs) (Text.tokens line) := by
  change _ = kept? (f :: fs) (tokensOf line.toList)
  rw [Matcher.groups?]
  cases hfound : matcher.captures? (ofFields f fs) line with
  | some found =>
    obtain ⟨kept, hkept, htexts⟩ := matches_ofFields.1 (h.sound _ _ _ hfound)
    rw [hkept, Option.map_some, Option.some.injEq]
    have hback := congrArg (List.map fun text => String.ofList (text.getD [])) htexts
    have htext (x : Option String) : String.ofList ((x.map String.toList).getD []) = x.getD "" := by
      cases x <;> simp
    simpa [keptTexts, Function.comp_def, htext] using hback
  | none =>
    cases hkept : kept? (f :: fs) (tokensOf line.toList) with
    | none => rfl
    | some kept =>
      have hsome := h.complete _ line _ (matches_ofFields.2 ⟨kept, hkept, rfl⟩)
      rw [hfound] at hsome
      cases hsome

theorem kept?_start_eq_none {ts : List String} (h : ∀ label, ts ≠ [label]) :
    kept? [.token] ts = none := by
  match ts with
  | [] | _ :: _ :: _ => rfl
  | [label] => exact absurd rfl (h label)

theorem kept?_unary_eq_none {ts : List String}
    (h : ∀ parent child value, ts ≠ [parent, "->", child, value]) :
    kept? [.token, .arrow, .token, .token] ts = none := by
  match ts with
  | [] | [_] | [_, _] | [_, _, _] | _ :: _ :: _ :: _ :: _ :: _ => simp [kept?]
  | [parent, second, child, value] =>
    have hsecond : second ≠ "->" := fun heq => h parent child value (by rw [heq])
    simp [kept?, hsecond]

theorem kept?_binary_eq_none {ts : List String}
    (h : ∀ parent left right value, ts ≠ [parent, "->", left, right, value]) :
    kept? [.token, .arrow, .token, .token, .token] ts = none := by
  match ts with
  | [] | [_] | [_, _] | [_, _, _] | [_, _, _, _] | _ :: _ :: _ :: _ :: _ :: _ :: _ => simp [kept?]
  | [parent, second, left, right, value] =>
    have hsecond : second ≠ "->" := fun heq => h parent left right value (by rw [heq])
    simp [kept?, hsecond]

/-! ## Lines that are skipped -/

/-- Characters that open a comment. -/
def OpensComment (cs : List Char) : Prop := "#".toList <+: cs ∨ "//".toList <+: cs

theorem exists_matches_comment {text : String} (hline : '\n' ∉ cs) :
    (∃ found, (sequence [literal text, run .inLine 0]).Matches cs found) ↔
      text.toList <+: cs := by
  simp only [exists_matches_pair, matches_literal, matches_run]
  constructor
  · rintro ⟨xs, ys, rfl, ⟨_, rfl, -⟩, -⟩
    exact List.prefix_append _ _
  · rintro ⟨rest, rfl⟩
    refine ⟨_, rest, rfl, ⟨[], rfl, rfl⟩, [], fun c hc => ?_, Nat.zero_le _, rfl⟩
    simp only [CharClass.has, decide_not, Bool.not_eq_true', decide_eq_false_iff_not]
    rintro rfl
    exact hline (List.mem_append_right _ hc)

theorem dropWhile_blanks {blanks rest : List Char} (hblanks : ∀ c ∈ blanks, isBlank c = true)
    (hrest : ∀ c ∈ rest.head?, isBlank c = false) :
    (blanks ++ rest).dropWhile isBlank = rest := by
  rw [List.dropWhile_append_of_pos hblanks]
  cases rest with
  | nil => rfl
  | cons c rest => rw [List.dropWhile_cons_of_neg (by simpa using hrest c rfl)]

theorem exists_matches_skippable (hline : '\n' ∉ cs) : (∃ found, skippable.Matches cs found) ↔
    cs.dropWhile isBlank = [] ∨ OpensComment (cs.dropWhile isBlank) := by
  rw [skippable, exists_matches_pair]
  simp only [exists_matches_optional, exists_matches_group, exists_matches_either, matches_blanks]
  constructor
  · rintro ⟨blanks, rest, rfl, ⟨_, hblanks, -⟩, hrest⟩
    have hin : '\n' ∉ rest := fun h => hline (List.mem_append_right _ h)
    rw [exists_matches_comment hin, exists_matches_comment hin] at hrest
    rw [dropWhile_blanks hblanks]
    · exact hrest
    · rcases hrest with rfl | ⟨more, rfl⟩ | ⟨more, rfl⟩
      · simp
      · rintro c ⟨⟩
        decide
      · rintro c ⟨⟩
        decide
  · intro hbody
    have hin : '\n' ∉ cs.dropWhile isBlank := fun h => hline ((List.dropWhile_sublist _).subset h)
    refine ⟨cs.takeWhile isBlank, cs.dropWhile isBlank, List.takeWhile_append_dropWhile.symm,
      ⟨[], fun c hc => ?_, rfl⟩, ?_⟩
    · exact List.all_eq_true.1 List.all_takeWhile c hc
    · rwa [exists_matches_comment hin, exists_matches_comment hin]

/-- Whether a comment is opened shows in the first token. -/
theorem opensComment_token {token rest : List Char} (hne : token ≠ [])
    (hend : ∀ c ∈ rest.head?, isBlank c = true) :
    OpensComment (token ++ rest) ↔ OpensComment token := by
  obtain ⟨c, token, rfl⟩ := List.exists_cons_of_ne_nil hne
  refine or_congr ?_ ?_
  · simp [List.cons_prefix_cons]
  · cases token with
    | nil =>
      cases rest with
      | nil => rfl
      | cons d rest =>
        have hblank := hend d rfl
        have hd : d ≠ '/' := by
          rintro rfl
          cases hblank
        simp [List.cons_prefix_cons, hd.symm]
    | cons d token => simp [List.cons_prefix_cons]

theorem isMatch_skippable {matcher : Matcher} (h : matcher.Lawful) {line : String}
    (hline : '\n' ∉ line.toList) : matcher.isMatch skippable line =
      (Text.tokens line).head?.all fun first => first.startsWith "#" || first.startsWith "//" := by
  rw [Bool.eq_iff_iff, h.isMatch_iff, exists_matches_skippable hline]
  change _ ↔ (tokensOf line.toList).head?.all _ = true
  rcases tokensOf_cases line.toList with
    ⟨hnil, hblanks⟩ | ⟨blanks, token, rest, hcs, hblanks, htoken, hmarks, hend, htokens⟩
  · have hbody := @dropWhile_blanks _ [] hblanks (by simp)
    rw [List.append_nil] at hbody
    simp [hbody, hnil]
  · have hbody : line.toList.dropWhile isBlank = token ++ rest := by
      rw [hcs, dropWhile_blanks hblanks]
      obtain ⟨c, token, rfl⟩ := List.exists_cons_of_ne_nil htoken
      simpa using hmarks c List.mem_cons_self
    rw [hbody, opensComment_token htoken hend, htokens]
    simp [htoken, OpensComment, String.startsWith_string_iff]

end ChartParsing.GrammarSource.LinePattern

import ChartParsing.Proofs.Text.Layout
import ChartParsing.Text.Pattern

/-!
# What patterns match

The lines that a pattern matches, with the texts that its groups keep, and what is relied on of
a matcher: it finds a match if there is one, and what it finds is a match. Which one it finds
where there are several is left open.
-/

namespace ChartParsing.Text

namespace Pattern

/-- A pattern matches some characters, and its groups keep these texts. -/
inductive Matches : Pattern → List Char → List (Option (List Char)) → Prop
  | literal (text : String) : Matches (.literal text) text.toList []
  | run {chars : CharClass} {least : Nat} {cs : List Char} (hchars : ∀ c ∈ cs, chars.has c = true)
      (hleast : least ≤ cs.length) : Matches (.run chars least) cs []
  | concat {p q : Pattern} {xs ys : List Char} {found more : List (Option (List Char))}
      (hp : Matches p xs found) (hq : Matches q ys more) :
      Matches (.concat p q) (xs ++ ys) (found ++ more)
  | first {p q : Pattern} {xs : List Char} {found : List (Option (List Char))}
      (hp : Matches p xs found) :
      Matches (.either p q) xs (found ++ List.replicate q.groupCount none)
  | second {p q : Pattern} {xs : List Char} {found : List (Option (List Char))}
      (hq : Matches q xs found) :
      Matches (.either p q) xs (List.replicate p.groupCount none ++ found)
  | present {p : Pattern} {xs : List Char} {found : List (Option (List Char))}
      (hp : Matches p xs found) : Matches (.optional p) xs found
  | missing {p : Pattern} : Matches (.optional p) [] (List.replicate p.groupCount none)
  | group {p : Pattern} {xs : List Char} {found : List (Option (List Char))}
      (hp : Matches p xs found) : Matches (.group p) xs (some xs :: found)

variable {p q : Pattern} {cs : List Char} {found : List (Option (List Char))}

theorem matches_literal {text : String} :
    (literal text).Matches cs found ↔ cs = text.toList ∧ found = [] := by
  constructor
  · rintro ⟨⟩
    exact ⟨rfl, rfl⟩
  · rintro ⟨rfl, rfl⟩
    exact .literal text

theorem matches_run {chars : CharClass} {least : Nat} :
    (run chars least).Matches cs found ↔
      (∀ c ∈ cs, chars.has c = true) ∧ least ≤ cs.length ∧ found = [] := by
  constructor
  · rintro ⟨⟩
    exact ⟨‹_›, ‹_›, rfl⟩
  · rintro ⟨hchars, hleast, rfl⟩
    exact .run hchars hleast

theorem matches_concat : (concat p q).Matches cs found ↔
    ∃ xs ys kept more, p.Matches xs kept ∧ q.Matches ys more ∧ cs = xs ++ ys ∧
      found = kept ++ more := by
  constructor
  · intro h
    cases h with
    | concat hp hq => exact ⟨_, _, _, _, hp, hq, rfl, rfl⟩
  · rintro ⟨xs, ys, kept, more, hp, hq, rfl, rfl⟩
    exact .concat hp hq

theorem matches_group :
    (group p).Matches cs found ↔ ∃ kept, p.Matches cs kept ∧ found = some cs :: kept := by
  constructor
  · intro h
    cases h with
    | group hp => exact ⟨_, hp, rfl⟩
  · rintro ⟨kept, hp, rfl⟩
    exact .group hp

theorem matches_sequence_cons {ps : List Pattern} : (sequence (p :: ps)).Matches cs found ↔
    ∃ xs ys kept more, p.Matches xs kept ∧ (sequence ps).Matches ys more ∧ cs = xs ++ ys ∧
      found = kept ++ more :=
  matches_concat

theorem matches_sequence_singleton : (sequence [p]).Matches cs found ↔ p.Matches cs found := by
  rw [matches_sequence_cons]
  constructor
  · rintro ⟨xs, ys, kept, more, hp, hnil, rfl, rfl⟩
    obtain ⟨rfl, rfl⟩ := matches_literal.1 hnil
    simpa using hp
  · intro hp
    exact ⟨cs, [], found, [], hp, matches_literal.2 ⟨rfl, rfl⟩, by simp, by simp⟩

/-! ## Whether there is a match -/

theorem exists_matches_pair : (∃ found, (sequence [p, q]).Matches cs found) ↔
    ∃ xs ys, cs = xs ++ ys ∧ (∃ found, p.Matches xs found) ∧ ∃ found, q.Matches ys found := by
  simp only [@matches_sequence_cons p _ _ [q], matches_sequence_singleton]
  constructor
  · rintro ⟨_, xs, ys, kept, more, hp, hq, rfl, -⟩
    exact ⟨xs, ys, rfl, ⟨kept, hp⟩, more, hq⟩
  · rintro ⟨xs, ys, rfl, ⟨kept, hp⟩, more, hq⟩
    exact ⟨_, xs, ys, kept, more, hp, hq, rfl, rfl⟩

theorem exists_matches_either : (∃ found, (either p q).Matches cs found) ↔
    (∃ found, p.Matches cs found) ∨ ∃ found, q.Matches cs found := by
  constructor
  · rintro ⟨found, h⟩
    cases h with
    | first hp => exact .inl ⟨_, hp⟩
    | second hq => exact .inr ⟨_, hq⟩
  · rintro (⟨found, hp⟩ | ⟨found, hq⟩)
    · exact ⟨_, .first hp⟩
    · exact ⟨_, .second hq⟩

theorem exists_matches_optional : (∃ found, (optional p).Matches cs found) ↔
    cs = [] ∨ ∃ found, p.Matches cs found := by
  constructor
  · rintro ⟨found, h⟩
    cases h with
    | present hp => exact .inr ⟨_, hp⟩
    | missing => exact .inl rfl
  · rintro (rfl | ⟨found, hp⟩)
    · exact ⟨_, .missing⟩
    · exact ⟨_, .present hp⟩

theorem exists_matches_group :
    (∃ found, (group p).Matches cs found) ↔ ∃ found, p.Matches cs found := by
  simp only [matches_group]
  constructor
  · rintro ⟨_, found, hp, -⟩
    exact ⟨found, hp⟩
  · rintro ⟨found, hp⟩
    exact ⟨_, found, hp, rfl⟩

end Pattern

/-- What is known of a library of expressions: a match that it finds is one, and it finds one
where there is one. -/
structure Matcher.Lawful (matcher : Matcher) : Prop where
  sound : ∀ p line found, matcher.captures? p line = some found →
    p.Matches line.toList (found.map (Option.map String.toList))
  complete : ∀ p line found, p.Matches line.toList found →
    (matcher.captures? p line).isSome = true

theorem Matcher.Lawful.isMatch_iff {matcher : Matcher} (h : matcher.Lawful) {p : Pattern}
    {line : String} : matcher.isMatch p line = true ↔ ∃ found, p.Matches line.toList found := by
  rw [Matcher.isMatch]
  constructor
  · intro hsome
    obtain ⟨found, hfound⟩ := Option.isSome_iff_exists.1 hsome
    exact ⟨_, h.sound p line found hfound⟩
  · rintro ⟨found, hmatches⟩
    exact h.complete p line found hmatches

end ChartParsing.Text

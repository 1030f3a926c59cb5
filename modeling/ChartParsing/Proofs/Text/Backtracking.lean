import ChartParsing.Proofs.Text.Pattern
import ChartParsing.Text.Backtracking

/-!
# Backtracking finds matches

Looking for a match by backtracking comes to an end with a match of the front of a line that
its continuation accepts, and finds one if there is any.
-/

namespace ChartParsing.Text

variable {α : Type} {cs : List Char}

/-! ## Runs -/

theorem CharClass.search_sound {chars : CharClass} {next : List Char → Option α} {least : Nat}
    {a : α} (h : chars.search next least cs = some a) :
    ∃ xs rest, cs = xs ++ rest ∧ (∀ c ∈ xs, chars.has c = true) ∧ least ≤ xs.length ∧
      next rest = some a := by
  induction cs generalizing least with
  | nil =>
    cases least with
    | zero => exact ⟨[], [], rfl, by simp, Nat.le_refl 0, h⟩
    | succ least => cases h
  | cons c cs ih =>
    have hlonger {n : Nat} (hc : chars.has c = true) (h : chars.search next n cs = some a) :
        ∃ xs rest, c :: cs = xs ++ rest ∧ (∀ c ∈ xs, chars.has c = true) ∧ n + 1 ≤ xs.length ∧
          next rest = some a := by
      obtain ⟨xs, rest, rfl, hxs, hleast, hnext⟩ := ih h
      exact ⟨c :: xs, rest, rfl, List.forall_mem_cons.2 ⟨hc, hxs⟩, Nat.succ_le_succ hleast, hnext⟩
    cases least with
    | zero =>
      have hnone (h : next (c :: cs) = some a) : ∃ xs rest, c :: cs = xs ++ rest ∧
          (∀ c ∈ xs, chars.has c = true) ∧ 0 ≤ xs.length ∧ next rest = some a :=
        ⟨[], c :: cs, rfl, by simp, Nat.zero_le _, h⟩
      rw [CharClass.search] at h
      split_ifs at h with hc
      · cases hrest : chars.search next 0 cs with
        | some b =>
          rw [hrest] at h
          obtain ⟨xs, rest, hcs, hxs, -, hnext⟩ := hlonger hc (hrest.trans h)
          exact ⟨xs, rest, hcs, hxs, Nat.zero_le _, hnext⟩
        | none =>
          rw [hrest] at h
          exact hnone h
      · exact hnone h
    | succ least =>
      rw [CharClass.search] at h
      split_ifs at h with hc
      exact hlonger hc h

theorem CharClass.search_complete {chars : CharClass} {next : List Char → Option α} {least : Nat}
    {xs rest : List Char} (hxs : ∀ c ∈ xs, chars.has c = true) (hleast : least ≤ xs.length)
    (hnext : (next rest).isSome = true) :
    (chars.search next least (xs ++ rest)).isSome = true := by
  induction xs generalizing least with
  | nil =>
    obtain rfl : least = 0 := Nat.le_zero.1 hleast
    cases rest with
    | nil => exact hnext
    | cons c rest =>
      rw [List.nil_append, CharClass.search]
      split_ifs
      · cases chars.search next 0 rest with
        | some a => rfl
        | none => exact hnext
      · exact hnext
  | cons c xs ih =>
    obtain ⟨hc, hxs⟩ := List.forall_mem_cons.1 hxs
    cases least with
    | zero =>
      have hrest := ih hxs (Nat.zero_le _)
      rw [List.cons_append, CharClass.search, if_pos hc]
      cases hfound : chars.search next 0 (xs ++ rest) with
      | some a => rfl
      | none => simp [hfound] at hrest
    | succ least =>
      rw [List.cons_append, CharClass.search, if_pos hc]
      exact ih hxs (Nat.le_of_succ_le_succ hleast)

/-! ## Patterns -/

namespace Pattern

/-- The texts of parts. -/
def texts (parts : List (Option Part)) : List (Option (List Char)) :=
  parts.map (Option.map Part.text)

@[simp] theorem texts_nil : texts [] = [] := rfl

@[simp] theorem texts_append (parts more : List (Option Part)) :
    texts (parts ++ more) = texts parts ++ texts more := List.map_append

@[simp] theorem texts_unset (p : Pattern) : texts p.unset = List.replicate p.groupCount none := by
  simp [texts, unset]

theorem text_part (xs rest : List Char) : Part.text ⟨xs ++ rest, rest⟩ = xs := by
  simp [Part.text]

/-- What is found is a match of the front, and what comes after it is gone on with. -/
theorem search_sound {p : Pattern} {next : List (Option Part) → List Char → Option α} {a : α}
    (h : p.search next cs = some a) :
    ∃ xs rest parts, cs = xs ++ rest ∧ p.Matches xs (texts parts) ∧ next parts rest = some a := by
  induction p generalizing next cs a with
  | literal text =>
    rw [search] at h
    split_ifs at h with hbegin
    obtain ⟨rest, rfl⟩ := List.isPrefixOf_iff_prefix.1 hbegin
    rw [List.drop_left] at h
    exact ⟨text.toList, rest, [], rfl, .literal text, h⟩
  | run chars least =>
    obtain ⟨xs, rest, rfl, hxs, hleast, hnext⟩ := CharClass.search_sound h
    exact ⟨xs, rest, [], rfl, .run hxs hleast, hnext⟩
  | concat p q ihp ihq =>
    obtain ⟨xs, rest, parts, rfl, hp, hrest⟩ := ihp h
    obtain ⟨ys, rest, more, rfl, hq, hnext⟩ := ihq hrest
    refine ⟨xs ++ ys, rest, parts ++ more, (List.append_assoc ..).symm, ?_, hnext⟩
    rw [texts_append]
    exact .concat hp hq
  | either p q ihp ihq =>
    rw [search] at h
    cases hp : p.search (fun found => next (found ++ q.unset)) cs with
    | some b =>
      rw [hp] at h
      obtain ⟨xs, rest, parts, rfl, hmatches, hnext⟩ := ihp (hp.trans h)
      refine ⟨xs, rest, parts ++ q.unset, rfl, ?_, hnext⟩
      rw [texts_append, texts_unset]
      exact .first hmatches
    | none =>
      rw [hp] at h
      obtain ⟨xs, rest, parts, rfl, hmatches, hnext⟩ := ihq h
      refine ⟨xs, rest, p.unset ++ parts, rfl, ?_, hnext⟩
      rw [texts_append, texts_unset]
      exact .second hmatches
  | optional p ih =>
    rw [search] at h
    cases hp : p.search next cs with
    | some b =>
      rw [hp] at h
      obtain ⟨xs, rest, parts, rfl, hmatches, hnext⟩ := ih (hp.trans h)
      exact ⟨xs, rest, parts, rfl, .present hmatches, hnext⟩
    | none =>
      rw [hp] at h
      refine ⟨[], cs, p.unset, rfl, ?_, h⟩
      rw [texts_unset]
      exact .missing
  | group p ih =>
    obtain ⟨xs, rest, parts, rfl, hmatches, hnext⟩ := ih h
    refine ⟨xs, rest, _, rfl, ?_, hnext⟩
    rw [texts, List.map_cons, Option.map_some, text_part]
    exact .group hmatches

/-- If a front is matched and can be gone on from, something is found. -/
theorem search_complete {p : Pattern} {xs : List Char} {found : List (Option (List Char))}
    (h : p.Matches xs found) (rest : List Char)
    (next : List (Option Part) → List Char → Option α)
    (hnext : ∀ parts, texts parts = found → (next parts rest).isSome = true) :
    (p.search next (xs ++ rest)).isSome = true := by
  induction h generalizing rest next with
  | literal text =>
    rw [search, if_pos (List.isPrefixOf_iff_prefix.2 (List.prefix_append _ _)), List.drop_left]
    exact hnext [] rfl
  | run hchars hleast => exact CharClass.search_complete hchars hleast (hnext [] rfl)
  | concat _ _ ihp ihq =>
    rw [List.append_assoc]
    refine ihp _ _ fun parts hparts => ihq _ _ fun more hmore => hnext _ ?_
    rw [texts_append, hparts, hmore]
  | @first p q xs found _ ih =>
    have hfound := ih rest (fun found => next (found ++ q.unset)) fun parts hparts =>
      hnext _ (by rw [texts_append, hparts, texts_unset])
    obtain ⟨a, ha⟩ := Option.isSome_iff_exists.1 hfound
    simp [search, ha]
  | @second p q xs found _ ih =>
    have hfound := ih rest (fun found => next (p.unset ++ found)) fun parts hparts =>
      hnext _ (by rw [texts_append, hparts, texts_unset])
    obtain ⟨a, ha⟩ := Option.isSome_iff_exists.1 hfound
    simp only [search]
    cases p.search (fun found => next (found ++ q.unset)) (xs ++ rest) with
    | some b => rfl
    | none => simp [ha]
  | present _ ih =>
    obtain ⟨a, ha⟩ := Option.isSome_iff_exists.1 (ih rest next hnext)
    simp [search, ha]
  | @missing p =>
    have hunset := hnext p.unset (texts_unset p)
    rw [List.nil_append, search]
    cases p.search next rest with
    | some b => rfl
    | none => exact hunset
  | @group p xs found _ ih =>
    refine ih rest _ fun parts hparts => hnext _ ?_
    rw [texts, List.map_cons, Option.map_some, text_part]
    exact congrArg _ hparts

end Pattern

/-- Backtracking is lawful. -/
theorem Matcher.lawful_backtracking : backtracking.Lawful := by
  constructor
  case sound =>
    intro p line found h
    obtain ⟨xs, rest, parts, hline, hmatches, hnext⟩ := Pattern.search_sound h
    cases rest with
    | cons c rest => cases hnext
    | nil =>
      obtain rfl := Option.some.inj hnext
      rw [hline, List.append_nil]
      simpa [Pattern.texts, Function.comp_def, Option.map_map] using hmatches
  case complete =>
    intro p line found h
    have hfound := Pattern.search_complete h [] (fun parts rest =>
      if rest.isEmpty then some (parts.map (Option.map fun part => String.ofList part.text))
      else none) fun parts _ => rfl
    rwa [List.append_nil] at hfound

end ChartParsing.Text

import ChartParsing.Beam.Queue
import ChartParsing.Proofs.Score.Order
import Mathlib.Data.List.Sort

/-!
# Rankings

A ranking lists entries by merit, best first. An entry is put after all that are not below it,
so those of equal merit keep the order in which they came. The first entries of a ranking depend
on no others: whatever is done with it can be done with as many of them as are wanted.
-/

namespace ChartParsing

namespace BeamQueue

/-- The ranking with one more entry. -/
def place (x : UInt16 × Score) (xs : List (UInt16 × Score)) : List (UInt16 × Score) :=
  xs.orderedInsert (fun x y => y.2 < x.2) x

/-- The ranking with the merit of a non-terminal raised, or with the non-terminal added if it has
no entry, and whether anything changed. -/
def rerank (nt : UInt16) (merit : Score) (xs : List (UInt16 × Score)) :
    Bool × List (UInt16 × Score) :=
  match xs.find? (·.1 = nt) with
  | some x =>
    if x.2 < merit then (true, place (nt, merit) (xs.eraseP (·.1 = nt))) else (false, xs)
  | none => (true, place (nt, merit) xs)

/-- Entries whose merits are numbers, none above the one before it. -/
structure Ranked (xs : List (UInt16 × Score)) : Prop where
  isNaN : ∀ x ∈ xs, x.2.isNaN = false
  le : xs.Pairwise fun x y => y.2 ≤ x.2

section Ranking

variable {x y : UInt16 × Score} {xs ys : List (UInt16 × Score)} {nt : UInt16} {merit : Score}

@[simp] theorem place_nil : place x [] = [x] := rfl

theorem place_cons : place x (y :: ys) = if y.2 < x.2 then x :: y :: ys else y :: place x ys := rfl

theorem mem_place : y ∈ place x xs ↔ y = x ∨ y ∈ xs := List.mem_orderedInsert _

theorem place_perm : (place x xs).Perm (x :: xs) := List.perm_orderedInsert _ x xs

@[simp] theorem length_place : (place x xs).length = xs.length + 1 :=
  List.orderedInsert_length _ xs x

theorem place_eq_append (h : ∀ y ∈ xs, ¬y.2 < x.2) : place x xs = xs ++ [x] := by
  induction xs with
  | nil => rfl
  | cons y ys ih =>
    rw [place_cons, if_neg (h y List.mem_cons_self), ih fun z hz => h z (List.mem_cons_of_mem _ hz),
      List.cons_append]

/-- What is below an entry stays where it is when the entry is put in front of it. -/
theorem place_append (h : ∀ y ∈ ys, y.2 < x.2) : place x (xs ++ ys) = place x xs ++ ys := by
  induction xs with
  | nil =>
    cases ys with
    | nil => rfl
    | cons y ys => rw [List.nil_append, place_cons, if_pos (h y List.mem_cons_self)]; rfl
  | cons z zs ih =>
    rw [List.cons_append, place_cons, place_cons]
    split_ifs
    · rfl
    · rw [ih, List.cons_append]

/-- The first entries after one is put in are made from the first entries before. -/
theorem take_place (n : Nat) : (place x (xs.take n)).take n = (place x xs).take n := by
  induction xs generalizing n with
  | nil => simp
  | cons y ys ih =>
    cases n with
    | zero => simp
    | succ n =>
      rw [List.take_succ_cons, place_cons, place_cons]
      split_ifs
      · cases n with
        | zero => simp
        | succ n => simp [List.take_take]
      · rw [List.take_succ_cons, List.take_succ_cons, ih]

/-- An entry that none of the first ones is below does not come among them. -/
theorem take_place_of_not_lt {n : Nat} (hn : n ≤ xs.length)
    (h : ∀ y ∈ xs.take n, ¬y.2 < x.2) : (place x xs).take n = xs.take n := by
  rw [← take_place, place_eq_append h, List.take_append_of_le_length]
  · rw [List.take_take, Nat.min_self]
  · rw [List.length_take]
    omega

theorem Ranked.of_sublist (h : Ranked ys) (hsub : xs.Sublist ys) : Ranked xs :=
  ⟨fun x hx => h.isNaN x (hsub.subset hx), h.le.sublist hsub⟩

theorem ranked_nil : Ranked [] := ⟨fun _ hx => (nomatch hx), .nil⟩

theorem ranked_place (h : Ranked xs) (hx : x.2.isNaN = false) : Ranked (place x xs) := by
  refine ⟨fun y hy => ?_, ?_⟩
  · rcases mem_place.1 hy with rfl | hy
    · exact hx
    · exact h.isNaN y hy
  · induction xs with
    | nil => exact List.pairwise_singleton _ _
    | cons y ys ih =>
      have hys := h.of_sublist (List.sublist_cons_self y ys)
      obtain ⟨hle, -⟩ := List.pairwise_cons.1 h.le
      have hy := h.isNaN y List.mem_cons_self
      rw [place_cons]
      split_ifs with hlt
      · refine List.pairwise_cons.2 ⟨fun z hz => ?_, h.le⟩
        rcases List.mem_cons.1 hz with rfl | hz
        · exact Score.le_of_lt hlt
        · exact Score.le_trans (hle z hz) (Score.le_of_lt hlt)
      · refine List.pairwise_cons.2 ⟨fun z hz => ?_, ih hys⟩
        rcases mem_place.1 hz with rfl | hz
        · exact Score.le_of_not_lt hy hx hlt
        · exact hle z hz

/-- The last of a ranking are no better than the first. -/
theorem Ranked.le_of_append (h : Ranked (xs ++ ys)) (hx : x ∈ xs) (hy : y ∈ ys) : y.2 ≤ x.2 :=
  (List.pairwise_append.1 h.le).2.2 x hx y hy

theorem ranked_rerank (h : Ranked xs) (hmerit : merit.isNaN = false) :
    Ranked (rerank nt merit xs).2 := by
  unfold rerank
  split
  · split_ifs
    · exact ranked_place (h.of_sublist List.eraseP_sublist) hmerit
    · exact h
  · exact ranked_place h hmerit

theorem eraseP_eq_filter (hnodup : (xs.map Prod.fst).Nodup) :
    xs.eraseP (·.1 = nt) = xs.filter (·.1 ≠ nt) := by
  induction xs with
  | nil => rfl
  | cons y ys ih =>
    obtain ⟨hnew, hrest⟩ := List.nodup_cons.1 hnodup
    by_cases hy : y.1 = nt
    · rw [List.eraseP_cons_of_pos (by simpa using hy), List.filter_cons_of_neg (by simpa using hy),
        List.filter_eq_self.2]
      intro z hz
      rw [decide_eq_true_iff]
      rintro rfl
      exact hnew (hy ▸ List.mem_map_of_mem hz)
    · rw [List.eraseP_cons_of_neg (by simpa using hy), List.filter_cons_of_pos (by simpa using hy),
        ih hrest]

/-- A non-terminal whose merit is raised has that merit from then on, and no other. -/
theorem rerank_perm (hnodup : (xs.map Prod.fst).Nodup)
    (habove : ∀ x ∈ xs, x.1 = nt → x.2 < merit) :
    (rerank nt merit xs).2.Perm ((nt, merit) :: xs.filter (·.1 ≠ nt)) := by
  unfold rerank
  cases hfind : xs.find? (·.1 = nt) with
  | some x =>
    have hlt := habove x (List.mem_of_find?_eq_some hfind) (by simpa using List.find?_some hfind)
    dsimp only
    rw [if_pos hlt, eraseP_eq_filter hnodup]
    exact place_perm
  | none =>
    rw [List.filter_eq_self.2 fun x hx => by simpa using List.find?_eq_none.1 hfind x hx]
    exact place_perm

/-- The first entries after a merit is raised are made from the first entries before. -/
theorem take_rerank (h : Ranked xs) (n : Nat) :
    (rerank nt merit (xs.take n)).2.take n = (rerank nt merit xs).2.take n := by
  have hsplit := List.take_append_drop n xs
  have hdrop (x : UInt16 × Score) (hx : x ∈ xs.drop n) : (xs.take n).length = n := by
    have hpos := List.length_pos_of_mem hx
    rw [List.length_drop] at hpos
    rw [List.length_take]
    omega
  rw [← hsplit] at h
  unfold rerank
  cases hfirst : (xs.take n).find? (·.1 = nt) with
  | some x =>
    have hmem := List.mem_of_find?_eq_some hfirst
    have hfirst' : xs.find? (·.1 = nt) = some x := by
      rw [← hsplit, List.find?_append, hfirst]
      rfl
    rw [hfirst']
    dsimp only
    split_ifs with habove
    · have hbelow : ∀ y ∈ xs.drop n, y.2 < merit := fun y hy =>
        Score.lt_of_le_of_lt (h.le_of_append hmem hy) habove
      have herase : xs.eraseP (·.1 = nt) = (xs.take n).eraseP (·.1 = nt) ++ xs.drop n := by
        conv_lhs => rw [← hsplit]
        exact List.eraseP_append_left (List.find?_some hfirst) _ hmem
      have hlength : (place (nt, merit) ((xs.take n).eraseP (·.1 = nt))).length =
          (xs.take n).length := by
        have hpos := List.length_pos_of_mem hmem
        rw [length_place, List.length_eraseP_of_mem hmem (List.find?_some hfirst)]
        omega
      rw [herase, place_append (x := (nt, merit)) hbelow]
      cases hrest : xs.drop n with
      | nil => rw [List.append_nil]
      | cons y ys =>
        have hfull := hdrop y (by rw [hrest]; exact List.mem_cons_self)
        exact (List.take_append_of_le_length (by rw [hlength, hfull])).symm
    · rw [List.take_take, Nat.min_self]
  | none =>
    have hfirst' : xs.find? (·.1 = nt) = (xs.drop n).find? (·.1 = nt) := by
      conv_lhs => rw [← hsplit]
      rw [List.find?_append, hfirst]
      rfl
    rw [hfirst']
    dsimp only
    cases hlater : (xs.drop n).find? (·.1 = nt) with
    | none => exact take_place n
    | some y =>
      have hmem := List.mem_of_find?_eq_some hlater
      have hlength := hdrop y hmem
      dsimp only
      split_ifs with habove
      · have herase : (xs.eraseP (·.1 = nt)).take n = xs.take n := by
          conv_lhs => rw [← hsplit]
          rw [List.eraseP_append_right _ (by simpa using hfirst), List.take_append_of_le_length
            (Nat.le_of_eq hlength.symm), List.take_of_length_le (Nat.le_of_eq hlength)]
        rw [← herase]
        exact take_place n
      · -- the entry is not raised, and none before it is below the merit
        rw [take_place_of_not_lt (Nat.le_of_eq hlength.symm)]
        · rw [List.take_take, Nat.min_self]
        · intro x hx hlt
          exact habove (Score.lt_of_le_of_lt (h.le_of_append (List.mem_of_mem_take hx) hmem) hlt)

end Ranking

end BeamQueue
end ChartParsing

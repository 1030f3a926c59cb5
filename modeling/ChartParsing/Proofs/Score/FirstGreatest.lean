import ChartParsing.Proofs.Score.Order

/-!
# The first of the greatest

A table keeps one of the things that are offered for a place: a later one takes the place only
if its score is above that of the one before. What is left of a list of offers is said here by
its place in the list, so that where the list comes from can be told apart from how it is gone
through. A score that is no number is neither above nor below another one.
-/

namespace ChartParsing

variable {α β : Type} {score : α → Score} {xs ys : List α} {x y : α}

/-- Keeps what there is, unless something with a score above it comes. -/
def keepGreater (score : α → Score) : Option α → α → Option α
  | none, y => some y
  | some x, y => if score x < score y then some y else some x

/-- A member of a list such that none is above it, and none before it is as high. -/
def FirstGreatest (score : α → Score) (xs : List α) (x : α) : Prop :=
  ∃ before after, xs = before ++ x :: after ∧
    (∀ y ∈ before, ¬score x ≤ score y) ∧ ∀ y ∈ after, ¬score x < score y

namespace FirstGreatest

theorem mem (h : FirstGreatest score xs x) : x ∈ xs := by
  obtain ⟨before, after, rfl, -⟩ := h
  simp

theorem not_lt (h : FirstGreatest score xs x) (hy : y ∈ xs) : ¬score x < score y := by
  obtain ⟨before, after, rfl, hbefore, hafter⟩ := h
  rcases List.mem_append.1 hy with hy | hy
  · exact fun hlt => hbefore y hy (Score.le_of_lt hlt)
  · rcases List.mem_cons.1 hy with rfl | hy
    · exact Score.lt_irrefl _
    · exact hafter y hy

theorem singleton (score : α → Score) (x : α) : FirstGreatest score [x] x :=
  ⟨[], [], rfl, by simp, by simp⟩

/-- In two lists one after the other, the first of the greatest is that of the one or the other. -/
theorem append_iff : FirstGreatest score (xs ++ ys) x ↔
    (FirstGreatest score xs x ∧ ∀ y ∈ ys, ¬score x < score y) ∨
      (FirstGreatest score ys x ∧ ∀ y ∈ xs, ¬score x ≤ score y) := by
  constructor
  · rintro ⟨before, after, heq, hbefore, hafter⟩
    rw [List.append_eq_append_iff] at heq
    rcases heq with ⟨rest, rfl, rfl⟩ | ⟨rest, rfl, heq⟩
    · refine Or.inr ⟨⟨rest, after, rfl, fun y hy => ?_, hafter⟩, fun y hy => ?_⟩
      · exact hbefore y (List.mem_append_right _ hy)
      · exact hbefore y (List.mem_append_left _ hy)
    · cases rest with
      | nil =>
        rw [List.nil_append] at heq
        subst heq
        refine Or.inr ⟨⟨[], after, rfl, by simp, hafter⟩, fun y hy => hbefore y ?_⟩
        simpa using hy
      | cons z rest =>
        obtain ⟨rfl, rfl⟩ := List.cons.inj heq
        refine Or.inl ⟨⟨before, rest, rfl, hbefore, fun y hy => ?_⟩, fun y hy => ?_⟩
        · exact hafter y (List.mem_append_left _ hy)
        · exact hafter y (List.mem_append_right _ hy)
  · rintro (⟨⟨before, after, rfl, hbefore, hafter⟩, hys⟩ |
      ⟨⟨before, after, rfl, hbefore, hafter⟩, hxs⟩)
    · refine ⟨before, after ++ ys, by simp, hbefore, fun y hy => ?_⟩
      exact (List.mem_append.1 hy).elim (hafter y) (hys y)
    · refine ⟨xs ++ before, after, by simp, fun y hy => ?_, hafter⟩
      exact (List.mem_append.1 hy).elim (hxs y) (hbefore y)

/-- The first of the greatest of several lists is in one of them; the lists before that one have
nothing as high, and those after it nothing above. -/
theorem of_flatMap {parts : β → List α} {bs : List β}
    (h : FirstGreatest score (bs.flatMap parts) x) :
    ∃ before b after, bs = before ++ b :: after ∧ FirstGreatest score (parts b) x ∧
      (∀ c ∈ before, ∀ y ∈ parts c, ¬score x ≤ score y) ∧
      ∀ c ∈ after, ∀ y ∈ parts c, ¬score x < score y := by
  induction bs with
  | nil => exact absurd h.mem List.not_mem_nil
  | cons b bs ih =>
    rw [List.flatMap_cons, append_iff] at h
    rcases h with ⟨h, hrest⟩ | ⟨h, hfirst⟩
    · refine ⟨[], b, bs, rfl, h, by simp, fun c hc y hy => hrest y ?_⟩
      exact List.mem_flatMap.2 ⟨c, hc, hy⟩
    · obtain ⟨before, c, after, rfl, hc, hbefore, hafter⟩ := ih h
      refine ⟨b :: before, c, after, rfl, hc, fun d hd => ?_, hafter⟩
      rcases List.mem_cons.1 hd with rfl | hd
      · exact hfirst
      · exact hbefore d hd

/-- Among numbers there is one first greatest. -/
theorem unique (hnumbers : ∀ y ∈ xs, (score y).isNaN = false) (hx : FirstGreatest score xs x)
    (hy : FirstGreatest score xs y) : x = y := by
  induction xs with
  | nil => exact absurd hx.mem List.not_mem_nil
  | cons z xs ih =>
    have hcons {w : α} (hw : FirstGreatest score (z :: xs) w) :
        (w = z ∧ ∀ v ∈ xs, ¬score z < score v) ∨
          (FirstGreatest score xs w ∧ ¬score w ≤ score z) := by
      rw [← List.singleton_append, append_iff] at hw
      rcases hw with ⟨hw, hrest⟩ | ⟨hw, hfirst⟩
      · obtain rfl := List.mem_singleton.1 hw.mem
        exact Or.inl ⟨rfl, hrest⟩
      · exact Or.inr ⟨hw, hfirst z (by simp)⟩
    -- what comes later and is not reached by `z` is above it
    have hlater {w : α} (hw : FirstGreatest score xs w) (hnot : ¬score w ≤ score z) :
        score z < score w := by
      by_contra hlt
      exact hnot (Score.le_of_not_lt (hnumbers z List.mem_cons_self)
        (hnumbers w (List.mem_cons_of_mem _ hw.mem)) hlt)
    rcases hcons hx with ⟨rfl, hxrest⟩ | ⟨hx', hxz⟩
    · rcases hcons hy with ⟨rfl, -⟩ | ⟨hy', hyz⟩
      · rfl
      · exact absurd (hlater hy' hyz) (hxrest y hy'.mem)
    · rcases hcons hy with ⟨rfl, hyrest⟩ | ⟨hy', -⟩
      · exact absurd (hlater hx' hxz) (hyrest x hx'.mem)
      · exact ih (fun w hw => hnumbers w (List.mem_cons_of_mem _ hw)) hx' hy'

/-- One more offer. -/
theorem keep (h : FirstGreatest score xs x) (y : α) :
    ∃ z, keepGreater score (some x) y = some z ∧ FirstGreatest score (xs ++ [y]) z := by
  unfold keepGreater
  dsimp only
  split_ifs with hlt
  · refine ⟨y, rfl, append_iff.2 (Or.inr ⟨singleton score y, fun w hw hle => ?_⟩)⟩
    exact h.not_lt hw (Score.lt_of_lt_of_le hlt hle)
  · refine ⟨x, rfl, append_iff.2 (Or.inl ⟨h, fun w hw => ?_⟩)⟩
    rwa [List.mem_singleton.1 hw]

/-- More offers, one after the other. -/
theorem foldl_keep (h : FirstGreatest score xs x) (ys : List α) :
    ∃ z, ys.foldl (keepGreater score) (some x) = some z ∧ FirstGreatest score (xs ++ ys) z := by
  induction ys generalizing xs x with
  | nil => exact ⟨x, rfl, by rwa [List.append_nil]⟩
  | cons y ys ih =>
    obtain ⟨z, hz, h⟩ := h.keep y
    rw [List.foldl_cons, hz, List.append_cons]
    exact ih h

end FirstGreatest

/-- What is left of a list of offers is the first of the greatest. -/
theorem firstGreatest_of_foldl (h : xs.foldl (keepGreater score) none = some x) :
    FirstGreatest score xs x := by
  cases xs with
  | nil => cases h
  | cons y ys =>
    obtain ⟨z, hz, hfirst⟩ := (FirstGreatest.singleton score y).foldl_keep ys
    rw [List.foldl_cons, keepGreater, hz] at h
    rwa [← Option.some.inj h]

theorem foldl_keepGreater_eq_none : xs.foldl (keepGreater score) none = none ↔ xs = [] := by
  cases xs with
  | nil => simp
  | cons y ys =>
    obtain ⟨z, hz, -⟩ := (FirstGreatest.singleton score y).foldl_keep ys
    rw [List.foldl_cons, keepGreater, hz]
    simp

/-- Of offers that are numbers the first of the greatest is left. -/
theorem foldl_keepGreater_eq_some (hnumbers : ∀ y ∈ xs, (score y).isNaN = false) :
    xs.foldl (keepGreater score) none = some x ↔ FirstGreatest score xs x := by
  refine ⟨firstGreatest_of_foldl, fun h => ?_⟩
  cases hz : xs.foldl (keepGreater score) none with
  | none =>
    rw [foldl_keepGreater_eq_none.1 hz] at h
    exact absurd h.mem List.not_mem_nil
  | some z => rw [h.unique hnumbers (firstGreatest_of_foldl hz)]

/-! ## Named offers

Offers that come under names, so that of equal ones the name decides. -/

/-- The greatest of the scores that are offered, under the least name that it has. -/
structure IsBest (offered : β → Score → Prop) (rank : β → Nat) (b : β) (x : Score) : Prop where
  attained : offered b x
  greatest : ∀ c y, offered c y → y ≤ x
  first : ∀ c y, offered c y → x ≤ y → rank b ≤ rank c

variable {offered : β → Score → Prop} {rank : β → Nat} {b c : β} {u v : Score}

theorem IsBest.rank_eq (hb : IsBest offered rank b u) (hc : IsBest offered rank c v) :
    rank b = rank c :=
  Nat.le_antisymm (hb.first c v hc.attained (hc.greatest b u hb.attained))
    (hc.first b u hb.attained (hb.greatest c v hc.attained))

/-- What is kept of offers that come name by name is the best, if the names go up. -/
theorem FirstGreatest.isBest {parts : β → List α} {bs : List β}
    (h : FirstGreatest score (bs.flatMap parts) x)
    (hparts : ∀ b y, offered b y ↔ b ∈ bs ∧ ∃ a ∈ parts b, score a = y)
    (hnumbers : ∀ b y, offered b y → y.isNaN = false)
    (hrank : ∀ before b after, bs = before ++ b :: after →
      ∀ c ∈ bs, c ∉ before → rank b ≤ rank c) :
    ∃ b ∈ bs, x ∈ parts b ∧ IsBest offered rank b (score x) := by
  obtain ⟨before, b, after, hbs, hpart, hbefore, -⟩ := h.of_flatMap
  have hb : b ∈ bs := by
    rw [hbs]
    simp
  have hoffered := (hparts b _).2 ⟨hb, x, hpart.mem, rfl⟩
  refine ⟨b, hb, hpart.mem, hoffered, fun c y hc => ?_, fun c y hc hle => ?_⟩
  · obtain ⟨hcs, a, ha, rfl⟩ := (hparts c y).1 hc
    exact Score.le_of_not_lt (hnumbers b _ hoffered) (hnumbers c _ hc)
      (h.not_lt (List.mem_flatMap.2 ⟨c, hcs, ha⟩))
  · obtain ⟨hcs, a, ha, rfl⟩ := (hparts c y).1 hc
    exact hrank before b after hbs c hcs fun hmem => hbefore c hmem a ha hle

end ChartParsing

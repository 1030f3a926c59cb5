import ChartParsing.Chart.PairTable
import ChartParsing.Proofs.Chart.Scratch

/-!
# Tables of child pairs

A valid table lists exactly the keys that have a pair. Clearing it gives the new table
back, and updating it with pairs keeps one of the best for each key.
-/

namespace ChartParsing

/-- A pair of children that a span offers: its key, the sum of the children's scores and
the place of the split. -/
structure PairOffer where
  key : UInt32
  score : Score
  midpoint : UInt16

namespace PairTable

/-- A table with `count` places that lists the keys which have a pair. -/
structure Valid (count : Nat) (t : PairTable) : Prop where
  scores_size : t.scores.size = count
  midpoints_size : t.midpoints.size = count
  listed : ∀ key ∈ t.populated.toList, t.midpoint key ≠ 0
  rest : ∀ i < count, (∀ key ∈ t.populated.toList, key.toNat ≠ i) →
    t.scores[i]? = some Score.absent ∧ t.midpoints[i]? = some 0

theorem valid_new (count : Nat) : (new count).Valid count := by
  constructor
  · exact Array.size_replicate
  · exact Array.size_replicate
  · simp [new]
  · intro i hi _
    simp [new, hi]

variable {count : Nat} {t : PairTable}

/-- The listed keys are those with a midpoint. -/
theorem Valid.mem (h : t.Valid count) (key : UInt32) :
    key ∈ t.populated.toList ↔ t.midpoint key ≠ 0 := by
  refine ⟨h.listed key, fun hne => ?_⟩
  by_contra hmem
  unfold midpoint at hne
  rw [Array.getD_eq_getD_getElem?] at hne
  rcases Nat.lt_or_ge key.toNat count with hlt | hge
  · have hrest := (h.rest key.toNat hlt fun key' hkey' heq =>
      hmem (UInt32.toNat_inj.1 heq ▸ hkey')).2
    rw [hrest] at hne
    exact hne rfl
  · rw [Array.getElem?_eq_none (by rw [h.midpoints_size]; exact hge)] at hne
    exact hne rfl

theorem Valid.isEmpty_iff (h : t.Valid count) :
    t.isEmpty = true ↔ ∀ key, t.midpoint key = 0 := by
  rw [isEmpty, Array.isEmpty_iff, ← Array.toList_eq_nil_iff, List.eq_nil_iff_forall_not_mem]
  simp only [h.mem, ne_eq, not_not]

/-- Setting the places of keys to one value, key by key. -/
theorem getElem?_foldl_set {α : Type} (keys : List UInt32) (xs : Array α) (x : α) (i : Nat) :
    (keys.foldl (fun xs key => xs.setIfInBounds key.toNat x) xs)[i]? =
      if (∃ key ∈ keys, key.toNat = i) ∧ i < xs.size then some x else xs[i]? := by
  induction keys generalizing xs with
  | nil => simp
  | cons key keys ih =>
    rw [List.foldl_cons, ih, Array.size_setIfInBounds, Array.getElem?_setIfInBounds]
    by_cases hkey : key.toNat = i
    · by_cases hlt : i < xs.size
      · simp [hkey, hlt]
      · simp [hkey, hlt]
    · simp [hkey]

/-- Clearing touches only what is listed, and leaves nothing. -/
theorem Valid.clear_eq (h : t.Valid count) : t.clear = new count := by
  have hfold {α : Type} (xs : Array α) (x : α) (hsize : xs.size = count)
      (hrest : ∀ i < count, (∀ key ∈ t.populated.toList, key.toNat ≠ i) → xs[i]? = some x) :
      t.populated.foldl (fun xs key => xs.setIfInBounds key.toNat x) xs
        = Array.replicate count x := by
    rw [← Array.foldl_toList]
    apply Array.ext_getElem?
    intro i
    rw [getElem?_foldl_set, Array.getElem?_replicate, hsize]
    by_cases hi : i < count
    · rw [if_pos hi]
      by_cases hkey : ∃ key ∈ t.populated.toList, key.toNat = i
      · rw [if_pos ⟨hkey, hi⟩]
      · rw [if_neg fun hset => hkey hset.1]
        exact hrest i hi fun key hmem heq => hkey ⟨key, hmem, heq⟩
    · rw [if_neg hi, if_neg fun hset => hi hset.2]
      exact Array.getElem?_eq_none (by omega)
  unfold clear new
  rw [hfold t.scores Score.absent h.scores_size fun i hi hkeys => (h.rest i hi hkeys).1,
    hfold t.midpoints 0 h.midpoints_size fun i hi hkeys => (h.rest i hi hkeys).2]

theorem getD_set {α : Type} (xs : Array α) {i : UInt32} (hi : i.toNat < xs.size) (x d : α)
    (j : UInt32) :
    (xs.setIfInBounds i.toNat x).getD j.toNat d = if j = i then x else xs.getD j.toNat d := by
  rw [Array.getD_eq_getD_getElem?, Array.getElem?_setIfInBounds, Array.getD_eq_getD_getElem?]
  by_cases hj : j = i
  · subst hj
    simp [hi]
  · have hj' : i.toNat ≠ j.toNat := fun h => hj (UInt32.toNat_inj.1 h.symm)
    simp [hj, hj']

/-- Updating with an offer. -/
def offer (t : PairTable) (o : PairOffer) : PairTable := t.update o.key o.score o.midpoint

/-- Whether an offer is taken. -/
def takes (t : PairTable) (o : PairOffer) : Prop :=
  t.midpoint o.key = 0 ∨ t.score o.key < o.score

instance (t : PairTable) (o : PairOffer) : Decidable (t.takes o) :=
  inferInstanceAs (Decidable (_ ∨ _))

theorem Valid.get_offer (h : t.Valid count) {o : PairOffer} (hlt : o.key.toNat < count)
    (key : UInt32) :
    ((t.offer o).midpoint key = if key = o.key ∧ t.takes o then o.midpoint else t.midpoint key) ∧
      ((t.offer o).score key = if key = o.key ∧ t.takes o then o.score else t.score key) := by
  have hmidpoint := getD_set t.midpoints (by rw [h.midpoints_size]; exact hlt) o.midpoint 0 key
  have hscore := getD_set t.scores (by rw [h.scores_size]; exact hlt) o.score Score.absent key
  unfold offer update takes
  dsimp only
  by_cases hzero : t.midpoint o.key = 0
  · rw [if_pos hzero]
    simp only [hzero, true_or, and_true]
    exact ⟨hmidpoint, hscore⟩
  · rw [if_neg hzero]
    by_cases habove : t.score o.key < o.score
    · rw [if_pos habove]
      simp only [habove, or_true, and_true]
      exact ⟨hmidpoint, hscore⟩
    · rw [if_neg habove]
      simp only [hzero, habove, or_self, and_false, if_false, and_self]

theorem Valid.offer (h : t.Valid count) {o : PairOffer} (hlt : o.key.toNat < count)
    (hmid : o.midpoint ≠ 0) : (t.offer o).Valid count := by
  have hget := h.get_offer hlt
  have hlisted : ∀ key, key ∈ (t.offer o).populated.toList ↔
      key ∈ t.populated.toList ∨ key = o.key := by
    intro key
    unfold PairTable.offer update
    dsimp only
    split_ifs with hzero habove
    · simp
    · have := (h.mem o.key).2 hzero
      constructor
      · exact Or.inl
      · rintro (hmem | rfl)
        · exact hmem
        · exact this
    · have := (h.mem o.key).2 hzero
      constructor
      · exact Or.inl
      · rintro (hmem | rfl)
        · exact hmem
        · exact this
  refine ⟨?_, ?_, fun key hkey => ?_, fun i hi hkeys => ?_⟩
  · unfold PairTable.offer update
    dsimp only
    split_ifs <;> simp [h.scores_size]
  · unfold PairTable.offer update
    dsimp only
    split_ifs <;> simp [h.midpoints_size]
  · rw [(hget key).1]
    split_ifs with htaken
    · exact hmid
    · rcases (hlisted key).1 hkey with hmem | rfl
      · exact h.listed key hmem
      · intro hzero
        exact htaken ⟨rfl, Or.inl hzero⟩
  · have hne : o.key.toNat ≠ i := hkeys o.key ((hlisted _).2 (Or.inr rfl))
    have hrest := h.rest i hi fun key hmem => hkeys key ((hlisted _).2 (Or.inl hmem))
    unfold PairTable.offer update
    dsimp only
    split_ifs
    · simp only [Array.getElem?_setIfInBounds_ne hne]
      exact hrest
    · simp only [Array.getElem?_setIfInBounds_ne hne]
      exact hrest
    · exact hrest

/-- Updating with offers, one after the other. -/
def offerAll (offers : List PairOffer) (t : PairTable) : PairTable := offers.foldl offer t

theorem offerAll_cons (o : PairOffer) (offers : List PairOffer) (t : PairTable) :
    offerAll (o :: offers) t = offerAll offers (t.offer o) := rfl

/-- Offers that a table of `count` keys can take. -/
def Fit (count : Nat) (offers : List PairOffer) : Prop :=
  ∀ o ∈ offers, o.key.toNat < count ∧ o.midpoint ≠ 0

theorem Fit.tail {o : PairOffer} {offers : List PairOffer} (h : Fit count (o :: offers)) :
    Fit count offers := fun o' ho' => h o' (List.mem_cons_of_mem _ ho')

theorem Valid.offerAll (h : t.Valid count) {offers : List PairOffer} (hfit : Fit count offers) :
    (PairTable.offerAll offers t).Valid count := by
  induction offers generalizing t with
  | nil => exact h
  | cons o offers ih =>
    obtain ⟨hlt, hmid⟩ := hfit o List.mem_cons_self
    exact ih (h.offer hlt hmid) hfit.tail

/-- A pair that a table has after offers was there before or is one of them. -/
theorem Valid.pair_of_offerAll (h : t.Valid count) {offers : List PairOffer}
    (hfit : Fit count offers) {key : UInt32}
    (hne : (PairTable.offerAll offers t).midpoint key ≠ 0) :
    (t.midpoint key = (PairTable.offerAll offers t).midpoint key ∧
        t.score key = (PairTable.offerAll offers t).score key) ∨
      ⟨key, (PairTable.offerAll offers t).score key, (PairTable.offerAll offers t).midpoint key⟩
        ∈ offers := by
  induction offers generalizing t with
  | nil => exact Or.inl ⟨rfl, rfl⟩
  | cons o offers ih =>
    obtain ⟨hlt, hmid⟩ := hfit o List.mem_cons_self
    have hget := h.get_offer hlt key
    rw [offerAll_cons] at hne ⊢
    rcases ih (h.offer hlt hmid) hfit.tail hne with ⟨hm, hs⟩ | hmem
    · by_cases htaken : key = o.key ∧ t.takes o
      · rw [if_pos htaken, if_pos htaken] at hget
        rw [← hm, ← hs, hget.1, hget.2, htaken.1]
        exact Or.inr List.mem_cons_self
      · rw [if_neg htaken, if_neg htaken] at hget
        rw [← hm, ← hs, hget.1, hget.2]
        exact Or.inl ⟨rfl, rfl⟩
    · exact Or.inr (List.mem_cons_of_mem _ hmem)

/-- All scores of a table are numbers. -/
def Numbers (t : PairTable) : Prop := ∀ key, (t.score key).isNaN = false

theorem Valid.numbers_offer (h : t.Valid count) (ht : t.Numbers) {o : PairOffer}
    (hlt : o.key.toNat < count) (hnumber : o.score.isNaN = false) : (t.offer o).Numbers := by
  intro key
  rw [(h.get_offer hlt key).2]
  split_ifs
  · exact hnumber
  · exact ht key

theorem Valid.le_offer (h : t.Valid count) (ht : t.Numbers) {o : PairOffer}
    (hlt : o.key.toNat < count) (hmid : o.midpoint ≠ 0) (hnumber : o.score.isNaN = false) :
    (∀ key, t.midpoint key ≠ 0 →
      (t.offer o).midpoint key ≠ 0 ∧ t.score key ≤ (t.offer o).score key) ∧
      (t.offer o).midpoint o.key ≠ 0 ∧ o.score ≤ (t.offer o).score o.key := by
  have hget := h.get_offer hlt
  constructor
  · intro key hne
    obtain ⟨hm, hs⟩ := hget key
    rw [hm, hs]
    split_ifs with htaken
    · obtain ⟨rfl, hzero | habove⟩ := htaken
      · exact absurd hzero hne
      · exact ⟨hmid, Score.le_of_lt habove⟩
    · exact ⟨hne, Score.le_self (ht key)⟩
  · obtain ⟨hm, hs⟩ := hget o.key
    rw [hm, hs]
    split_ifs with htaken
    · exact ⟨hmid, Score.le_self hnumber⟩
    · refine ⟨fun hzero => htaken ⟨rfl, Or.inl hzero⟩, ?_⟩
      exact Score.le_of_not_lt (ht o.key) hnumber fun habove => htaken ⟨rfl, Or.inr habove⟩

/-- Offers leave a pair for each of their keys, with a score that is no lower. -/
theorem Valid.best_offerAll (h : t.Valid count) (ht : t.Numbers) {offers : List PairOffer}
    (hfit : Fit count offers) (hnumbers : ∀ o ∈ offers, o.score.isNaN = false) :
    (∀ key, t.midpoint key ≠ 0 → (PairTable.offerAll offers t).midpoint key ≠ 0 ∧
      t.score key ≤ (PairTable.offerAll offers t).score key) ∧
    ∀ o ∈ offers, (PairTable.offerAll offers t).midpoint o.key ≠ 0 ∧
      o.score ≤ (PairTable.offerAll offers t).score o.key := by
  induction offers generalizing t with
  | nil => exact ⟨fun key hne => ⟨hne, Score.le_self (ht key)⟩, by simp⟩
  | cons o offers ih =>
    obtain ⟨hlt, hmid⟩ := hfit o List.mem_cons_self
    have hnumber := hnumbers o List.mem_cons_self
    obtain ⟨hkeep, hraise⟩ := h.le_offer ht hlt hmid hnumber
    obtain ⟨hkeep', hraise'⟩ := ih (h.offer hlt hmid) (h.numbers_offer ht hlt hnumber) hfit.tail
      fun o' ho' => hnumbers o' (List.mem_cons_of_mem _ ho')
    constructor
    · intro key hne
      obtain ⟨hne', hle⟩ := hkeep key hne
      obtain ⟨hne'', hle'⟩ := hkeep' key hne'
      exact ⟨hne'', Score.le_trans hle hle'⟩
    · intro o' ho'
      rcases List.mem_cons.1 ho' with rfl | ho'
      · obtain ⟨hne', hle'⟩ := hkeep' _ hraise.1
        exact ⟨hne', Score.le_trans hraise.2 hle'⟩
      · exact hraise' o' ho'

theorem midpoint_new (count : Nat) (key : UInt32) : (new count).midpoint key = 0 := by
  unfold midpoint new
  dsimp only
  rw [Array.getD_eq_getD_getElem?, Array.getElem?_replicate]
  split_ifs <;> rfl

theorem numbers_new (count : Nat) : (new count).Numbers := by
  intro key
  have hscore : (new count).score key = Score.absent := by
    unfold score new
    dsimp only
    rw [Array.getD_eq_getD_getElem?, Array.getElem?_replicate]
    split_ifs <;> rfl
  rw [hscore, Score.isNaN_absent]

end PairTable
end ChartParsing

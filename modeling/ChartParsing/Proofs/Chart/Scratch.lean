import ChartParsing.Chart.Scratch
import ChartParsing.Proofs.Chart.Cell
import ChartParsing.Proofs.Score.Order

/-!
# Scratch tables

A valid table lists exactly the non-terminals that have a score. Two tables agree if
they list the same non-terminals with the same entries; what lies in the places that are
not listed makes no difference to anything that is done with a table.
-/

namespace ChartParsing

namespace Scratch

/-- A table with `count` places that lists what it holds. -/
structure Valid (count : Nat) (s : Scratch) : Prop where
  inside_size : s.inside.size = count
  children_size : s.children.size = count
  midpoints_size : s.midpoints.size = count
  nodup : s.populated.toList.Nodup
  mem : ∀ nt, nt ∈ s.populated.toList ↔ s.insideOf nt ≠ Score.absent

theorem bne_absent {x : Score} : (x != Score.absent) = true ↔ x ≠ Score.absent := by
  rw [bne, Bool.not_eq_true', ← Bool.not_eq_true, Score.beq_absent]

theorem entryOf?_eq_some {s : Scratch} {nt : UInt16} {e : ChartEntry} :
    s.entryOf? nt = some e ↔ s.insideOf nt ≠ Score.absent ∧ s.place nt = e := by
  unfold entryOf?
  split_ifs with h
  · rw [bne_absent] at h
    simp [h]
  · rw [bne_absent] at h
    simp [h]

theorem entryOf?_eq_none {s : Scratch} {nt : UInt16} :
    s.entryOf? nt = none ↔ s.insideOf nt = Score.absent := by
  unfold entryOf?
  split_ifs with h
  · rw [bne_absent] at h
    simp [h]
  · rw [bne_absent] at h
    simpa using h

theorem nt_of_entryOf? {s : Scratch} {nt : UInt16} {e : ChartEntry} (h : s.entryOf? nt = some e) :
    e.nt = nt := by
  rw [← (entryOf?_eq_some.1 h).2]
  rfl

theorem inside_of_entryOf? {s : Scratch} {nt : UInt16} {e : ChartEntry}
    (h : s.entryOf? nt = some e) : e.inside = s.insideOf nt := by
  rw [← (entryOf?_eq_some.1 h).2]
  rfl

theorem present_of_entryOf? {s : Scratch} {nt : UInt16} {e : ChartEntry}
    (h : s.entryOf? nt = some e) : e.inside ≠ Score.absent := by
  rw [inside_of_entryOf? h]
  exact (entryOf?_eq_some.1 h).1

variable {count : Nat} {s : Scratch}

theorem Valid.mem_iff (h : s.Valid count) (nt : UInt16) :
    nt ∈ s.populated.toList ↔ ∃ e, s.entryOf? nt = some e := by
  rw [h.mem, ← Option.isSome_iff_exists, ← Option.ne_none_iff_isSome, ne_eq, ne_eq,
    entryOf?_eq_none]

theorem Valid.entryOf?_of_empty (h : s.Valid count) (hempty : s.populated = #[]) (nt : UInt16) :
    s.entryOf? nt = none := by
  rw [Option.eq_none_iff_forall_not_mem]
  intro e he
  have hmem := (h.mem_iff nt).2 ⟨e, he⟩
  rw [hempty] at hmem
  cases hmem

theorem Valid.lt (h : s.Valid count) {nt : UInt16} (hmem : nt ∈ s.populated.toList) :
    nt.toNat < count := by
  rw [h.mem, insideOf, Array.getD_eq_getD_getElem?] at hmem
  by_contra hge
  rw [Array.getElem?_eq_none (by rw [h.inside_size]; omega)] at hmem
  exact hmem rfl

theorem insideOf_new (count : Nat) (nt : UInt16) : (new count).insideOf nt = Score.absent := by
  unfold insideOf new
  dsimp only
  rw [Array.getD_eq_getD_getElem?, Array.getElem?_replicate]
  split_ifs <;> rfl

theorem valid_new (count : Nat) : (new count).Valid count := by
  constructor
  · exact Array.size_replicate
  · exact Array.size_replicate
  · exact Array.size_replicate
  · exact List.nodup_nil
  · intro nt
    rw [insideOf_new]
    simp [new]

/-- Setting places to one value, place by place. -/
theorem getD_foldl_set {α : Type} (nts : List UInt16) (xs : Array α) (x : α) (nt : UInt16) (d : α) :
    (nts.foldl (fun xs nt => xs.setIfInBounds nt.toNat x) xs).getD nt.toNat d =
      if nt ∈ nts ∧ nt.toNat < xs.size then x else xs.getD nt.toNat d := by
  induction nts generalizing xs with
  | nil => simp
  | cons m nts ih =>
    rw [List.foldl_cons, ih, Array.size_setIfInBounds, Array.getD_eq_getD_getElem?,
      Array.getElem?_setIfInBounds, Array.getD_eq_getD_getElem?]
    by_cases hm : m = nt
    · subst hm
      by_cases hlt : m.toNat < xs.size
      · simp [hlt]
      · simp [hlt]
    · have hm' : m.toNat ≠ nt.toNat := fun h => hm (UInt16.toNat_inj.1 h)
      have hm'' : nt ≠ m := fun h => hm h.symm
      simp [hm', hm'']

theorem size_foldl_set {α : Type} (nts : List UInt16) (xs : Array α) (x : α) :
    (nts.foldl (fun xs nt => xs.setIfInBounds nt.toNat x) xs).size = xs.size := by
  induction nts generalizing xs with
  | nil => rfl
  | cons m nts ih => rw [List.foldl_cons, ih, Array.size_setIfInBounds]

/-- A reset table has no entries, whatever is left in its places. -/
theorem Valid.reset (h : s.Valid count) :
    s.reset.Valid count ∧ s.reset.populated = #[] ∧ ∀ nt, s.reset.insideOf nt = Score.absent := by
  have hinside (nt : UInt16) : s.reset.insideOf nt = Score.absent := by
    unfold insideOf Scratch.reset
    dsimp only
    rw [← Array.foldl_toList, getD_foldl_set]
    split_ifs with hset
    · rfl
    · by_contra hne
      have hmem := (h.mem nt).2 hne
      exact hset ⟨hmem, by rw [h.inside_size]; exact h.lt hmem⟩
  refine ⟨⟨?_, h.children_size, ?_, List.nodup_nil, fun nt => ?_⟩, rfl, hinside⟩
  · unfold Scratch.reset
    dsimp only
    rw [← Array.foldl_toList, size_foldl_set, h.inside_size]
  · unfold Scratch.reset
    dsimp only
    rw [← Array.foldl_toList, size_foldl_set, h.midpoints_size]
  · rw [hinside]
    simp [Scratch.reset]

theorem getD_set {α : Type} (xs : Array α) {i : UInt16} (hi : i.toNat < xs.size) (x d : α)
    (j : UInt16) :
    (xs.setIfInBounds i.toNat x).getD j.toNat d = if j = i then x else xs.getD j.toNat d := by
  rw [Array.getD_eq_getD_getElem?, Array.getElem?_setIfInBounds, Array.getD_eq_getD_getElem?]
  by_cases hj : j = i
  · subst hj
    simp [hi]
  · have hj' : i.toNat ≠ j.toNat := fun h => hj (UInt16.toNat_inj.1 h.symm)
    simp [hj, hj']

/-- A written entry is found, and all others stay. -/
theorem Valid.place_write (h : s.Valid count) {e : ChartEntry} (hlt : e.nt.toNat < count)
    (nt : UInt16) : (s.write e).place nt = if nt = e.nt then e else s.place nt := by
  unfold place insideOf write
  dsimp only
  rw [getD_set _ (by rw [h.inside_size]; exact hlt),
    getD_set _ (by rw [h.children_size]; exact hlt),
    getD_set _ (by rw [h.midpoints_size]; exact hlt)]
  split_ifs with heq
  · rw [heq]
  · rfl

theorem Valid.insideOf_write (h : s.Valid count) {e : ChartEntry} (hlt : e.nt.toNat < count)
    (nt : UInt16) :
    (s.write e).insideOf nt = if nt = e.nt then e.inside else s.insideOf nt := by
  have hplace := congrArg ChartEntry.inside (h.place_write hlt nt)
  change (s.write e).insideOf nt = _ at hplace
  rw [hplace]
  split_ifs <;> rfl

/-- The non-terminals listed after a write. -/
theorem populated_write (s : Scratch) (e : ChartEntry) :
    (s.write e).populated.toList =
      if (s.entryOf? e.nt).isSome then s.populated.toList
      else s.populated.toList ++ [e.nt] := by
  unfold write entryOf?
  dsimp only
  split_ifs <;> simp_all

theorem Valid.write (h : s.Valid count) {e : ChartEntry} (hlt : e.nt.toNat < count)
    (hne : e.inside ≠ Score.absent) : (s.write e).Valid count := by
  have hinside := h.insideOf_write hlt
  refine ⟨?_, ?_, ?_, ?_, fun nt => ?_⟩
  · simpa [Scratch.write] using h.inside_size
  · simpa [Scratch.write] using h.children_size
  · simpa [Scratch.write] using h.midpoints_size
  · rw [populated_write]
    split_ifs with hsome
    · exact h.nodup
    · rw [List.nodup_append]
      refine ⟨h.nodup, by simp, ?_⟩
      intro a ha b hb hab
      rw [List.mem_singleton.1 hb] at hab
      rw [hab, h.mem_iff, ← Option.isSome_iff_exists] at ha
      exact hsome ha
  · rw [populated_write, hinside]
    by_cases heq : nt = e.nt
    · rw [if_pos heq, heq]
      split_ifs with hsome
      · rw [h.mem_iff, ← Option.isSome_iff_exists]
        simp [hsome, hne]
      · simp [hne]
    · rw [if_neg heq, ← h.mem]
      split_ifs with hsome
      · rfl
      · simp [heq]

/-- The entries after a write. -/
theorem Valid.entryOf?_write (h : s.Valid count) {e : ChartEntry} (hlt : e.nt.toNat < count)
    (hne : e.inside ≠ Score.absent) (nt : UInt16) :
    (s.write e).entryOf? nt = if nt = e.nt then some e else s.entryOf? nt := by
  have hplace := h.place_write hlt nt
  have hinside := h.insideOf_write hlt nt
  unfold entryOf?
  rw [hplace, hinside]
  by_cases heq : nt = e.nt
  · simp only [if_pos heq]
    rw [if_pos (bne_absent.2 hne)]
  · simp only [if_neg heq]

/-! ## Updates -/

theorem update_eq (s : Scratch) (e : ChartEntry) :
    (s.update e).2 = if s.insideOf e.nt < e.inside then s.write e else s := by
  unfold update
  split_ifs <;> rfl

theorem set_eq (s : Scratch) (e : ChartEntry) :
    s.set e = if e.inside = Score.absent then s else s.write e := by
  unfold Scratch.set
  split_ifs with h h' h'
  · rfl
  · exact absurd (Score.beq_absent.1 h) h'
  · exact absurd (Score.beq_absent.2 h') h
  · rfl

theorem Valid.update (h : s.Valid count) {e : ChartEntry} (hlt : e.nt.toNat < count) :
    (s.update e).2.Valid count := by
  rw [update_eq]
  split_ifs with habove
  · exact h.write hlt (Score.ne_absent_of_lt habove)
  · exact h

theorem Valid.set (h : s.Valid count) {e : ChartEntry} (hlt : e.nt.toNat < count) :
    (s.set e).Valid count := by
  rw [set_eq]
  split_ifs with habsent
  · exact h
  · exact h.write hlt habsent

/-- Updates with a list of entries, one after the other. -/
def updateAll (entries : List ChartEntry) (s : Scratch) : Scratch :=
  entries.foldl (fun s e => (s.update e).2) s

theorem Valid.updateAll (h : s.Valid count) {entries : List ChartEntry}
    (hlt : ∀ e ∈ entries, e.nt.toNat < count) : (updateAll entries s).Valid count := by
  induction entries generalizing s with
  | nil => exact h
  | cons e entries ih =>
    exact ih (h.update (hlt e List.mem_cons_self)) fun e' he' =>
      hlt e' (List.mem_cons_of_mem _ he')

theorem Valid.entryOf?_update (h : s.Valid count) {e : ChartEntry} (hlt : e.nt.toNat < count)
    (nt : UInt16) : (s.update e).2.entryOf? nt =
      if nt = e.nt ∧ s.insideOf e.nt < e.inside then some e else s.entryOf? nt := by
  rw [update_eq]
  by_cases habove : s.insideOf e.nt < e.inside
  · rw [if_pos habove, h.entryOf?_write hlt (Score.ne_absent_of_lt habove)]
    simp only [habove, and_true]
  · simp only [habove, and_false, if_false]

theorem Valid.insideOf_update (h : s.Valid count) {e : ChartEntry} (hlt : e.nt.toNat < count)
    (nt : UInt16) : (s.update e).2.insideOf nt =
      if nt = e.nt ∧ s.insideOf e.nt < e.inside then e.inside else s.insideOf nt := by
  rw [update_eq]
  by_cases habove : s.insideOf e.nt < e.inside
  · rw [if_pos habove, h.insideOf_write hlt]
    simp only [habove, and_true]
  · simp only [habove, and_false, if_false]

/-- What stands in a table after updates stood there before, or was among them and
improved on what stood there. -/
theorem Valid.entry_of_updateAll (h : s.Valid count) {entries : List ChartEntry}
    (hlt : ∀ e ∈ entries, e.nt.toNat < count) {nt : UInt16} {e : ChartEntry}
    (he : (Scratch.updateAll entries s).entryOf? nt = some e) :
    s.entryOf? nt = some e ∨ (e ∈ entries ∧ s.insideOf nt < e.inside) := by
  induction entries generalizing s with
  | nil => exact Or.inl he
  | cons d entries ih =>
    have hd := hlt d List.mem_cons_self
    have hstep := ih (h.update hd) (fun e' he' => hlt e' (List.mem_cons_of_mem _ he')) he
    rw [h.entryOf?_update hd, h.insideOf_update hd] at hstep
    by_cases hchange : nt = d.nt ∧ s.insideOf d.nt < d.inside
    · simp only [if_pos hchange] at hstep
      obtain ⟨rfl, habove⟩ := hchange
      rcases hstep with hstep | ⟨hmem, hlt'⟩
      · rw [← Option.some.inj hstep]
        exact Or.inr ⟨List.mem_cons_self, habove⟩
      · exact Or.inr ⟨List.mem_cons_of_mem _ hmem, Score.lt_trans habove hlt'⟩
    · simp only [if_neg hchange] at hstep
      rcases hstep with hstep | ⟨hmem, hlt'⟩
      · exact Or.inl hstep
      · exact Or.inr ⟨List.mem_cons_of_mem _ hmem, hlt'⟩

/-- Every score that a table holds is above that of what is absent. -/
def Present (s : Scratch) : Prop :=
  ∀ nt, s.insideOf nt ≠ Score.absent → Score.absent < s.insideOf nt

theorem present_of_absent (h : ∀ nt, s.insideOf nt = Score.absent) : s.Present :=
  fun nt hne => absurd (h nt) hne

theorem Valid.present_update (h : s.Valid count) (hs : s.Present) {e : ChartEntry}
    (hlt : e.nt.toNat < count) : (s.update e).2.Present := by
  intro nt hne
  rw [h.insideOf_update hlt] at hne ⊢
  split_ifs at hne ⊢ with hchange
  · exact Score.present_of_lt hchange.2
  · exact hs nt hne

/-- An update never lowers a score, and leaves none below its own. -/
theorem Valid.le_update (h : s.Valid count) (hs : s.Present) {e : ChartEntry}
    (hlt : e.nt.toNat < count) :
    (∀ nt, s.insideOf nt ≠ Score.absent → s.insideOf nt ≤ (s.update e).2.insideOf nt) ∧
      (Score.absent < e.inside → e.inside ≤ (s.update e).2.insideOf e.nt) := by
  constructor
  · intro nt hne
    rw [h.insideOf_update hlt]
    split_ifs with hchange
    · rw [hchange.1]
      exact Score.le_of_lt hchange.2
    · exact Score.le_self (Score.isNaN_of_present (hs nt hne))
  · intro hpresent
    rw [h.insideOf_update hlt]
    by_cases habove : s.insideOf e.nt < e.inside
    · rw [if_pos ⟨rfl, habove⟩]
      exact Score.le_self (Score.isNaN_of_present hpresent)
    · rw [if_neg fun hchange => habove hchange.2]
      have hne : s.insideOf e.nt ≠ Score.absent := by
        intro habsent
        rw [habsent] at habove
        exact habove hpresent
      exact Score.le_of_not_lt (Score.isNaN_of_present (hs _ hne))
        (Score.isNaN_of_present hpresent) habove

/-- Updates keep the best score of each non-terminal. -/
theorem Valid.best_updateAll (h : s.Valid count) (hs : s.Present) {entries : List ChartEntry}
    (hlt : ∀ e ∈ entries, e.nt.toNat < count) :
    (Scratch.updateAll entries s).Present ∧
    (∀ nt, s.insideOf nt ≠ Score.absent →
      s.insideOf nt ≤ (Scratch.updateAll entries s).insideOf nt) ∧
    ∀ e ∈ entries, Score.absent < e.inside →
      e.inside ≤ (Scratch.updateAll entries s).insideOf e.nt := by
  induction entries generalizing s with
  | nil => exact ⟨hs, fun nt hne => Score.le_self (Score.isNaN_of_present (hs nt hne)), by simp⟩
  | cons d entries ih =>
    have hd := hlt d List.mem_cons_self
    obtain ⟨hkeep, hraise⟩ := h.le_update hs hd
    obtain ⟨hpresent, hkeep', hraise'⟩ := ih (h.update hd) (h.present_update hs hd)
      fun e' he' => hlt e' (List.mem_cons_of_mem _ he')
    refine ⟨hpresent, fun nt hne => ?_, fun e he hpos => ?_⟩
    · have hle := hkeep nt hne
      refine Score.le_trans hle (hkeep' nt ?_)
      exact Score.ne_absent_of_lt (Score.lt_of_lt_of_le (hs nt hne) hle)
    · rcases List.mem_cons.1 he with rfl | he
      · have hle := hraise hpos
        refine Score.le_trans hle (hkeep' _ ?_)
        exact Score.ne_absent_of_lt (Score.lt_of_lt_of_le hpos hle)
      · exact hraise' e he hpos

/-! ## Finished cells -/

theorem sorted_perm (s : Scratch) : s.sorted.Perm s.populated.toList := List.mergeSort_perm _ _

theorem Valid.sorted_lt (h : s.Valid count) :
    s.sorted.Pairwise fun m n => m.toNat < n.toNat := by
  have hle : s.sorted.Pairwise fun m n => decide (m ≤ n) = true := by
    apply List.pairwise_mergeSort
    · intro a b c
      simp only [decide_eq_true_iff]
      exact UInt16.le_trans
    · intro a b
      simpa using UInt16.le_total a b
  have hne : s.sorted.Nodup := s.sorted_perm.nodup_iff.2 h.nodup
  refine (hle.and hne).imp fun {m n} hmn => ?_
  obtain ⟨hle, hne⟩ := hmn
  rw [decide_eq_true_iff, UInt16.le_iff_toNat_le] at hle
  exact Nat.lt_of_le_of_ne hle fun heq => hne (UInt16.toNat_inj.1 heq)

theorem Valid.sort (h : s.Valid count) : s.sort.Valid count := by
  refine ⟨h.inside_size, h.children_size, h.midpoints_size, ?_, fun nt => ?_⟩
  · exact s.sorted_perm.nodup_iff.2 h.nodup
  · exact (s.sorted_perm.mem_iff).trans (h.mem nt)

/-- A table with a single entry. -/
theorem exists_single {e : ChartEntry} (hlt : e.nt.toNat < count)
    (hne : e.inside ≠ Score.absent) : ∃ s : Scratch, s.Valid count ∧
      s.sort.populated.toList = [e.nt] ∧ s.entryOf? e.nt = some e ∧
      ∀ nt d, s.entryOf? nt = some d → d = e := by
  have hnew := valid_new count
  have hentry := hnew.entryOf?_write hlt hne
  simp only [hnew.entryOf?_of_empty rfl] at hentry
  refine ⟨(new count).write e, hnew.write hlt hne, ?_, ?_, fun nt d hd => ?_⟩
  · have hlist := populated_write (new count) e
    rw [if_neg (by rw [hnew.entryOf?_of_empty rfl]; simp)] at hlist
    unfold sort sorted
    dsimp only
    rw [hlist]
    simp [new]
  · rw [hentry, if_pos rfl]
  · rw [hentry] at hd
    split_ifs at hd
    exact (Option.some.inj hd).symm

/-- The finished cell holds the entries in order, whatever cell it is written over. -/
theorem toList_finalizeInto (s : Scratch) (cell : Cell) :
    (s.finalizeInto cell).1.toList = s.sorted.map s.place := by
  have hfold (nts : List UInt16) (c : Cell) :
      (nts.foldl (fun cell nt => cell.push (s.place nt)) c).toList
        = c.toList ++ nts.map s.place := by
    induction nts generalizing c with
    | nil => simp
    | cons nt nts ih => simp [ih]
  unfold finalizeInto
  dsimp only
  rw [hfold, Cell.clear_eq_empty]
  rfl

theorem size_finalizeInto (s : Scratch) (cell : Cell) : (s.finalizeInto cell).1.size = s.size := by
  rw [← Cell.length_toList, toList_finalizeInto, List.length_map, s.sorted_perm.length_eq,
    Array.length_toList, size]

theorem Valid.ordered_finalizeInto (h : s.Valid count) (cell : Cell) :
    (s.finalizeInto cell).1.Ordered := by
  unfold Cell.Ordered
  rw [toList_finalizeInto, List.pairwise_map]
  exact h.sorted_lt

/-- The entries of the finished cell are those of the table. -/
theorem Valid.mem_finalizeInto (h : s.Valid count) {cell : Cell} {e : ChartEntry} :
    e ∈ (s.finalizeInto cell).1.toList ↔ s.entryOf? e.nt = some e := by
  rw [toList_finalizeInto, List.mem_map, entryOf?_eq_some]
  constructor
  · rintro ⟨nt, hnt, rfl⟩
    rw [s.sorted_perm.mem_iff, h.mem] at hnt
    exact ⟨hnt, rfl⟩
  · rintro ⟨hne, hplace⟩
    exact ⟨e.nt, s.sorted_perm.mem_iff.2 ((h.mem _).2 hne), hplace⟩

theorem Valid.get?_finalizeInto (h : s.Valid count) (cell : Cell) (nt : UInt16) :
    (s.finalizeInto cell).1.get? nt = s.entryOf? nt := by
  apply Option.ext
  intro e
  rw [(h.ordered_finalizeInto cell).get?_eq_some, h.mem_finalizeInto]
  constructor
  · rintro ⟨he, rfl⟩
    exact he
  · intro he
    obtain rfl := nt_of_entryOf? he
    exact ⟨he, rfl⟩

/-- Tables with the same entries list them in the same order when sorted. -/
theorem Valid.sorted_congr {t : Scratch} (hs : s.Valid count) (ht : t.Valid count)
    (h : ∀ nt, s.entryOf? nt = t.entryOf? nt) : s.sorted = t.sorted := by
  have hperm : s.sorted.Perm t.sorted := by
    refine s.sorted_perm.trans (List.Perm.trans ?_ t.sorted_perm.symm)
    rw [List.perm_ext_iff_of_nodup hs.nodup ht.nodup]
    intro nt
    rw [hs.mem_iff, ht.mem_iff, h]
  refine hperm.eq_of_pairwise (fun m n _ _ hmn hnm => ?_) hs.sorted_lt ht.sorted_lt
  omega

/-- Tables with the same entries give the same cell. -/
theorem Valid.finalizeInto_congr {t : Scratch} (hs : s.Valid count) (ht : t.Valid count)
    (h : ∀ nt, s.entryOf? nt = t.entryOf? nt) (c d : Cell) :
    (s.finalizeInto c).1 = (t.finalizeInto d).1 := by
  have hlist : (s.finalizeInto c).1.toList = (t.finalizeInto d).1.toList := by
    rw [toList_finalizeInto, toList_finalizeInto, hs.sorted_congr ht h]
    apply List.map_congr_left
    intro nt hnt
    rw [t.sorted_perm.mem_iff, ht.mem_iff] at hnt
    obtain ⟨e, he⟩ := hnt
    rw [(entryOf?_eq_some.1 he).2]
    rw [← h] at he
    exact (entryOf?_eq_some.1 he).2
  cases hc : (s.finalizeInto c).1
  cases hd : (t.finalizeInto d).1
  rw [hc, hd] at hlist
  exact congrArg Cell.mk (Array.toList_inj.1 hlist)

/-! ## Agreement -/

/-- Two tables list the same non-terminals with the same entries. -/
structure Agree (s t : Scratch) : Prop where
  populated : s.populated = t.populated
  entry : ∀ nt, s.entryOf? nt = t.entryOf? nt

variable {t : Scratch}

theorem Agree.insideOf (h : Agree s t) (nt : UInt16) : s.insideOf nt = t.insideOf nt := by
  have hentry := h.entry nt
  cases hs : s.entryOf? nt with
  | none =>
    rw [hs] at hentry
    rw [entryOf?_eq_none.1 hs, entryOf?_eq_none.1 hentry.symm]
  | some e =>
    rw [hs] at hentry
    rw [← inside_of_entryOf? hs, ← inside_of_entryOf? hentry.symm]

theorem Agree.write (h : Agree s t) (hs : s.Valid count) (ht : t.Valid count) {e : ChartEntry}
    (hlt : e.nt.toNat < count) (hne : e.inside ≠ Score.absent) :
    Agree (s.write e) (t.write e) := by
  constructor
  · rw [← Array.toList_inj, populated_write, populated_write, h.entry, h.populated]
  · intro nt
    rw [hs.entryOf?_write hlt hne, ht.entryOf?_write hlt hne, h.entry]

theorem Agree.update (h : Agree s t) (hs : s.Valid count) (ht : t.Valid count) {e : ChartEntry}
    (hlt : e.nt.toNat < count) : Agree (s.update e).2 (t.update e).2 := by
  rw [update_eq, update_eq, h.insideOf]
  split_ifs with habove
  · exact h.write hs ht hlt (Score.ne_absent_of_lt habove)
  · exact h

theorem Agree.set (h : Agree s t) (hs : s.Valid count) (ht : t.Valid count) {e : ChartEntry}
    (hlt : e.nt.toNat < count) : Agree (s.set e) (t.set e) := by
  rw [set_eq, set_eq]
  split_ifs with habsent
  · exact h
  · exact h.write hs ht hlt habsent

theorem Agree.updateAll (h : Agree s t) (hs : s.Valid count) (ht : t.Valid count)
    {entries : List ChartEntry} (hlt : ∀ e ∈ entries, e.nt.toNat < count) :
    Agree (Scratch.updateAll entries s) (Scratch.updateAll entries t) := by
  induction entries generalizing s t with
  | nil => exact h
  | cons e entries ih =>
    have he := hlt e List.mem_cons_self
    exact ih (h.update hs ht he) (hs.update he) (ht.update he)
      fun e' he' => hlt e' (List.mem_cons_of_mem _ he')

theorem Agree.sort (h : Agree s t) : Agree s.sort t.sort := by
  constructor
  · unfold Scratch.sort sorted
    rw [h.populated]
  · intro nt
    exact h.entry nt

/-- All empty tables agree. -/
theorem Valid.agree_of_empty (hs : s.Valid count) (ht : t.Valid count)
    (hempty : s.populated = #[]) (hempty' : t.populated = #[]) : Agree s t := by
  constructor
  · rw [hempty, hempty']
  · intro nt
    rw [hs.entryOf?_of_empty hempty, ht.entryOf?_of_empty hempty']

/-- All reset tables agree. -/
theorem Valid.agree_reset (hs : s.Valid count) (ht : t.Valid count) : Agree s.reset t.reset :=
  hs.reset.1.agree_of_empty ht.reset.1 rfl rfl

end Scratch
end ChartParsing

import ChartParsing.Proofs.Chart.PairTable
import ChartParsing.Proofs.Score.FirstGreatest

/-!
# What a table keeps

After a run of updates a place holds the first of the greatest among what was offered for it.
The offers for one place are the run without the others, since an update of one place leaves
all others as they are.
-/

namespace ChartParsing

namespace Scratch

variable {count : Nat} {s : Scratch} {entries : List ChartEntry} {nt : UInt16} {e : ChartEntry}

/-- The entries of a list that are offered for a non-terminal and present. -/
def offeredFor (nt : UInt16) (entries : List ChartEntry) : List ChartEntry :=
  entries.filter fun e => e.nt = nt ∧ Score.absent < e.inside

theorem mem_offeredFor : e ∈ offeredFor nt entries ↔
    e ∈ entries ∧ e.nt = nt ∧ Score.absent < e.inside := by
  simp [offeredFor]

/-- What a place holds after updates is what was there or offered first of the greatest. -/
theorem Valid.entryOf?_updateAll (h : s.Valid count) (hlt : ∀ e ∈ entries, e.nt.toNat < count)
    (nt : UInt16) : (Scratch.updateAll entries s).entryOf? nt =
      (offeredFor nt entries).foldl (keepGreater (·.inside)) (s.entryOf? nt) := by
  induction entries generalizing s with
  | nil => rfl
  | cons e entries ih =>
    have he := hlt e List.mem_cons_self
    have hrest := ih (h.update he) fun d hd => hlt d (List.mem_cons_of_mem _ hd)
    -- whether an update writes is decided by the entry that stands in its place
    have hstep : (s.update e).2.entryOf? nt =
        if e.nt = nt ∧ Score.absent < e.inside then keepGreater (·.inside) (s.entryOf? nt) e
        else s.entryOf? nt := by
      rw [h.entryOf?_update he]
      by_cases hnt : e.nt = nt
      · subst hnt
        cases hentry : s.entryOf? e.nt with
        | none => simp [entryOf?_eq_none.1 hentry, keepGreater]
        | some d =>
          rw [← inside_of_entryOf? hentry]
          by_cases habove : d.inside < e.inside
          · simp [habove, Score.present_of_lt habove, keepGreater]
          · simp [habove, keepGreater]
      · rw [if_neg fun hchange => hnt hchange.1.symm, if_neg fun hchange => hnt hchange.1]
    change (Scratch.updateAll entries (s.update e).2).entryOf? nt = _
    rw [hrest, hstep]
    unfold offeredFor
    rw [List.filter_cons]
    by_cases hoffered : e.nt = nt ∧ Score.absent < e.inside
    · rw [if_pos hoffered, if_pos (decide_eq_true hoffered), List.foldl_cons]
    · rw [if_neg hoffered, if_neg (by simpa using hoffered)]

theorem isNaN_of_mem_offeredFor (h : e ∈ offeredFor nt entries) : e.inside.isNaN = false :=
  Score.isNaN_of_present (mem_offeredFor.1 h).2.2

/-- In a table that was empty a place holds the first of the greatest offers. -/
theorem Valid.entryOf?_updateAll_of_none (h : s.Valid count)
    (hlt : ∀ e ∈ entries, e.nt.toNat < count) (hnone : s.entryOf? nt = none) :
    (Scratch.updateAll entries s).entryOf? nt = some e ↔
      FirstGreatest (·.inside) (offeredFor nt entries) e := by
  rw [h.entryOf?_updateAll hlt, hnone]
  exact foldl_keepGreater_eq_some fun _ => isNaN_of_mem_offeredFor

end Scratch

namespace PairTable

variable {count : Nat} {t : PairTable} {offers : List PairOffer} {key : UInt32} {o : PairOffer}

/-- The pair of a key. -/
def pair? (t : PairTable) (key : UInt32) : Option PairOffer :=
  if t.midpoint key = 0 then none else some ⟨key, t.score key, t.midpoint key⟩

theorem pair?_eq_some : t.pair? key = some o ↔
    t.midpoint key ≠ 0 ∧ ⟨key, t.score key, t.midpoint key⟩ = o := by
  unfold pair?
  split_ifs with hzero
  · simp [hzero]
  · simp [hzero]

theorem pair?_eq_none : t.pair? key = none ↔ t.midpoint key = 0 := by
  unfold pair?
  split_ifs with hzero <;> simp [hzero]

theorem pair?_new (count : Nat) (key : UInt32) : (new count).pair? key = none :=
  pair?_eq_none.2 (midpoint_new count key)

/-- The offers of a list that are for a key. -/
def offeredFor (key : UInt32) (offers : List PairOffer) : List PairOffer :=
  offers.filter fun o => o.key = key

theorem mem_offeredFor : o ∈ offeredFor key offers ↔ o ∈ offers ∧ o.key = key := by
  simp [offeredFor]

theorem Valid.pair?_offer (h : t.Valid count) (hlt : o.key.toNat < count) (hmid : o.midpoint ≠ 0)
    (key : UInt32) : (t.offer o).pair? key =
      if o.key = key then keepGreater (·.score) (t.pair? key) o else t.pair? key := by
  have hget := h.get_offer hlt key
  by_cases hkey : o.key = key
  · subst hkey
    rw [if_pos rfl]
    simp only [true_and] at hget
    unfold takes at hget
    unfold pair?
    rw [hget.1, hget.2]
    by_cases hzero : t.midpoint o.key = 0
    · simp [hzero, hmid, keepGreater]
    · by_cases habove : t.score o.key < o.score
      · simp [hzero, habove, hmid, keepGreater]
      · simp [hzero, habove, keepGreater]
  · rw [if_neg fun htaken => hkey htaken.1.symm, if_neg fun htaken => hkey htaken.1.symm] at hget
    rw [if_neg hkey]
    unfold pair?
    rw [hget.1, hget.2]

/-- What a key has after offers is what it had or the first of the greatest offered. -/
theorem Valid.pair?_offerAll (h : t.Valid count) (hfit : Fit count offers) (key : UInt32) :
    (PairTable.offerAll offers t).pair? key =
      (offeredFor key offers).foldl (keepGreater (·.score)) (t.pair? key) := by
  induction offers generalizing t with
  | nil => rfl
  | cons o offers ih =>
    obtain ⟨hlt, hmid⟩ := hfit o List.mem_cons_self
    rw [offerAll_cons, ih (h.offer hlt hmid) hfit.tail, h.pair?_offer hlt hmid]
    unfold offeredFor
    rw [List.filter_cons]
    by_cases hkey : o.key = key
    · rw [if_pos hkey, if_pos (decide_eq_true hkey), List.foldl_cons]
    · rw [if_neg hkey, if_neg (by simpa using hkey)]

theorem Valid.nodup_offer (h : t.Valid count) (ht : t.populated.toList.Nodup) (o : PairOffer) :
    (t.offer o).populated.toList.Nodup := by
  unfold PairTable.offer update
  dsimp only
  split_ifs with hzero
  · have hnew : o.key ∉ t.populated.toList := fun hmem => (h.mem o.key).1 hmem hzero
    rw [Array.toList_push, List.nodup_append]
    refine ⟨ht, by simp, fun key hkey key' hkey' heq => hnew ?_⟩
    rwa [← List.mem_singleton.1 hkey', ← heq]
  · exact ht
  · exact ht

/-- Each key is listed once, however many pairs are offered for it. -/
theorem Valid.nodup_offerAll (h : t.Valid count) (ht : t.populated.toList.Nodup)
    (hfit : Fit count offers) : (PairTable.offerAll offers t).populated.toList.Nodup := by
  induction offers generalizing t with
  | nil => exact ht
  | cons o offers ih =>
    obtain ⟨hlt, hmid⟩ := hfit o List.mem_cons_self
    exact ih (h.offer hlt hmid) (h.nodup_offer ht o) hfit.tail

end PairTable
end ChartParsing

import ChartParsing.Proofs.Beam.Queue
import ChartParsing.Proofs.Beam.Ranking

/-!
# Queues hold rankings as far as they have places

The entries of a queue lie in its arrays from the head to the tail, best first. Here every
operation of a queue is shown to do to these entries what is done to a ranking, of which it then
holds as many entries as it has places left. A full queue refuses an entry only for entries that
are not below it.
-/

namespace ChartParsing

namespace BeamQueue

/-! ## The entries of a queue -/

/-- The ends of a queue are in order, and its arrays have all its places. -/
structure Sound (q : BeamQueue) : Prop extends Roomy q where
  head_le : q.head ≤ q.tail
  tail_le : q.tail ≤ q.maxTail

variable {q : BeamQueue} {i n : Nat} {nt : UInt16} {merit : Score}

/-- Every place before the last is in both arrays. -/
theorem Sound.lt_size (h : q.Sound) (hi : i < q.maxTail) :
    i < q.nts.size ∧ i < q.merits.size :=
  ⟨Nat.lt_of_lt_of_le hi h.nts, Nat.lt_of_lt_of_le hi h.merits⟩

theorem Sound.lt_maxTail (h : q.Sound) (hi : i < q.tail) : i < q.maxTail :=
  Nat.lt_of_lt_of_le hi h.tail_le

/-- The entries at indices one after another. -/
def slots (q : BeamQueue) (i n : Nat) : List (UInt16 × Score) := (List.range' i n).map q.slot

theorem toList_eq (q : BeamQueue) : q.toList = q.slots q.head (q.tail - q.head) := rfl

theorem slots_add (q : BeamQueue) (i m n : Nat) :
    q.slots i (m + n) = q.slots i m ++ q.slots (i + m) n := by
  unfold slots
  rw [← List.map_append, List.range'_append_1]

theorem slots_one (q : BeamQueue) (i : Nat) : q.slots i 1 = [q.slot i] := rfl

theorem slots_congr {r : BeamQueue} (h : ∀ j, i ≤ j → j < i + n → q.slot j = r.slot j) :
    q.slots i n = r.slots i n := by
  refine List.map_congr_left fun j hj => ?_
  rw [List.mem_range'_1] at hj
  exact h j hj.1 hj.2

/-- The entries before an index, the one there and those after it. -/
theorem slots_split (q : BeamQueue) {j : Nat} (hij : i ≤ j) (n : Nat) :
    q.slots i (j - i + 1 + n) = q.slots i (j - i) ++ q.slot j :: q.slots (j + 1) n := by
  rw [Nat.add_assoc, slots_add, slots_add, slots_one, Nat.add_sub_cancel' hij,
    List.singleton_append]

@[simp] theorem length_toList (q : BeamQueue) : q.toList.length = q.tail - q.head := by
  rw [toList_eq, slots, List.length_map, List.length_range']

theorem head_swapUp (q : BeamQueue) (i : Nat) : (q.swapUp i).head = q.head := rfl

theorem slot_swapUp (hnts : i + 1 < q.nts.size) (hmerits : i + 1 < q.merits.size) (j : Nat) :
    (q.swapUp (i + 1)).slot j =
      if j = i then q.slot (i + 1) else if j = i + 1 then q.slot i else q.slot j := by
  unfold slot swapUp
  dsimp only
  simp only [Array.getD_eq_getD_getElem?]
  rw [Nat.add_sub_cancel, getElem?_swap (by omega) hnts, getElem?_swap (by omega) hmerits]
  split_ifs <;> rfl

theorem slots_swapUp (hnts : i + 1 < q.nts.size) (hmerits : i + 1 < q.merits.size) {j : Nat}
    (hj : j ≤ i) (n : Nat) :
    (q.swapUp (i + 1)).slots j (i - j) = q.slots j (i - j) ∧
      (q.swapUp (i + 1)).slot i = q.slot (i + 1) ∧
      (q.swapUp (i + 1)).slots (i + 1) (n + 1) = q.slot i :: q.slots (i + 2) n := by
  have hslot := slot_swapUp hnts hmerits
  refine ⟨slots_congr fun k _ hk => ?_, ?_, ?_⟩
  · rw [hslot, if_neg (by omega), if_neg (by omega)]
  · rw [hslot, if_pos rfl]
  · rw [Nat.add_comm n 1, slots_add, slots_one, hslot, if_neg (by omega), if_pos rfl,
      List.singleton_append]
    exact congrArg _ (slots_congr fun k hk _ => by rw [hslot, if_neg (by omega), if_neg (by omega)])

/-- Two queues have the same ends, and arrays of the same size. -/
structure Level (q r : BeamQueue) : Prop where
  head : q.head = r.head
  tail : q.tail = r.tail
  maxTail : q.maxTail = r.maxTail
  nts : q.nts.size = r.nts.size
  merits : q.merits.size = r.merits.size

theorem level_sortUp (q : BeamQueue) (i : Nat) : (q.sortUp i).Level q := by
  induction i generalizing q with
  | zero => exact ⟨rfl, rfl, rfl, rfl, rfl⟩
  | succ i ih =>
    rw [sortUp]
    split_ifs
    · have h := ih (q.swapUp (i + 1))
      exact ⟨h.head, h.tail, h.maxTail, h.nts.trans (by simp [swapUp]),
        h.merits.trans (by simp [swapUp])⟩
    · exact ⟨rfl, rfl, rfl, rfl, rfl⟩

/-- Moving an entry up only changes the order. -/
theorem perm_sortUp (hhead : q.head ≤ i) (hnts : i < q.nts.size) (hmerits : i < q.merits.size)
    (n : Nat) :
    ((q.sortUp i).slots q.head (i - q.head + 1 + n)).Perm
      (q.slots q.head (i - q.head + 1 + n)) := by
  induction i generalizing q n with
  | zero => exact .refl _
  | succ i ih =>
    rw [sortUp]
    split_ifs with hswap
    · obtain ⟨hbefore, hself, hafter⟩ := slots_swapUp hnts hmerits hswap.1 n
      have hstep := ih (q := q.swapUp (i + 1)) hswap.1 (by simp [swapUp]; omega)
        (by simp [swapUp]; omega) (n + 1)
      have hcount : i + 1 - q.head + 1 + n = i - q.head + 1 + (n + 1) := by
        have := hswap.1
        omega
      rw [head_swapUp] at hstep
      rw [hcount]
      refine hstep.trans ?_
      rw [slots_split _ hswap.1, slots_split _ hswap.1, hbefore, hself, hafter]
      rw [Nat.add_comm n 1, slots_add, slots_one]
      exact .append_left _ (.swap _ _ _)
    · exact .refl _

/-- An entry that is moved up comes after all that are not below it. -/
theorem slots_sortUp (hhead : q.head ≤ i) (hnts : i < q.nts.size) (hmerits : i < q.merits.size)
    (hranked : Ranked (q.slots q.head (i - q.head))) (hmerit : (q.slot i).2.isNaN = false)
    (n : Nat) :
    (q.sortUp i).slots q.head (i - q.head + 1 + n) =
      place (q.slot i) (q.slots q.head (i - q.head)) ++ q.slots (i + 1) n := by
  induction i generalizing q n with
  | zero =>
    rw [sortUp, slots_split q hhead, Nat.zero_sub]
    rfl
  | succ i ih =>
    rw [sortUp]
    have hlast (hle : q.head ≤ i) :
        q.slots q.head (i + 1 - q.head) = q.slots q.head (i - q.head) ++ [q.slot i] := by
      rw [Nat.sub_add_comm hle]
      exact slots_split q hle 0
    split_ifs with hswap
    · obtain ⟨hbefore, hself, hafter⟩ := slots_swapUp hnts hmerits hswap.1 n
      rw [hlast hswap.1] at hranked ⊢
      have hstep := ih (q := q.swapUp (i + 1)) hswap.1 (by simp [swapUp]; omega)
        (by simp [swapUp]; omega)
        (by
          change Ranked ((q.swapUp (i + 1)).slots q.head (i - q.head))
          rw [hbefore]
          exact hranked.of_sublist (List.sublist_append_left _ _))
        (by rw [hself]; exact hmerit) (n + 1)
      have hcount : i + 1 - q.head + 1 + n = i - q.head + 1 + (n + 1) := by
        have := hswap.1
        omega
      rw [head_swapUp] at hstep
      rw [hcount, hstep, hbefore, hself, hafter, @place_append _ _ [q.slot i] fun y hy => ?_]
      · rw [List.append_assoc, List.singleton_append]
      · rw [List.mem_singleton.1 hy]
        exact hswap.2
    · rw [slots_split q hhead, place_eq_append, List.append_assoc, List.singleton_append]
      intro y hy
      by_cases hle : q.head ≤ i
      · -- the entry is not above the one before it, so above none before that
        rw [hlast hle] at hranked hy
        have hnot : ¬(q.slot i).2 < (q.slot (i + 1)).2 := fun hlt => hswap ⟨hle, hlt⟩
        have hge : (q.slot (i + 1)).2 ≤ (q.slot i).2 :=
          Score.le_of_not_lt (hranked.isNaN _ (by simp)) hmerit hnot
        rcases List.mem_append.1 hy with hy | hy
        · exact Score.not_lt_of_le
            (Score.le_trans hge (hranked.le_of_append hy (List.mem_singleton_self _)))
        · rw [List.mem_singleton.1 hy]
          exact hnot
      · rw [show i + 1 - q.head = 0 by omega] at hy
        cases hy

/-! ## Putting an entry in -/

/-- Writing an entry and moving it to its place changes neither the ends nor the arrays' size. -/
theorem level_put (q : BeamQueue) (i : Nat) (nt : UInt16) (merit : Score) :
    (q.put i nt merit).Level q := by
  have h := level_sortUp { q with
    nts := q.nts.setIfInBounds i nt, merits := q.merits.setIfInBounds i merit } i
  exact ⟨h.head, h.tail, h.maxTail, h.nts.trans Array.size_setIfInBounds,
    h.merits.trans Array.size_setIfInBounds⟩

section Put

variable (hhead : q.head ≤ i) (hnts : i < q.nts.size) (hmerits : i < q.merits.size)

/-- The queue with an entry written at an index. -/
def write (q : BeamQueue) (i : Nat) (nt : UInt16) (merit : Score) : BeamQueue :=
  { q with nts := q.nts.setIfInBounds i nt, merits := q.merits.setIfInBounds i merit }

theorem head_write (q : BeamQueue) (i : Nat) (nt : UInt16) (merit : Score) :
    (q.write i nt merit).head = q.head := rfl

include hnts hmerits

theorem slot_write (nt : UInt16) (merit : Score) (j : Nat) :
    (q.write i nt merit).slot j = if j = i then (nt, merit) else q.slot j := by
  unfold slot write
  dsimp only
  simp only [Array.getD_eq_getD_getElem?, Array.getElem?_setIfInBounds]
  by_cases hj : j = i
  · simp [hj, hnts, hmerits]
  · rw [if_neg hj, if_neg (Ne.symm hj), if_neg (Ne.symm hj)]

theorem slots_write (nt : UInt16) (merit : Score) :
    (q.write i nt merit).slots q.head (i - q.head) = q.slots q.head (i - q.head) ∧
      (q.write i nt merit).slot i = (nt, merit) ∧
      i < (q.write i nt merit).nts.size ∧ i < (q.write i nt merit).merits.size := by
  have hslot := slot_write hnts hmerits nt merit
  refine ⟨slots_congr fun j _ hj => ?_, ?_, by simpa [write] using hnts,
    by simpa [write] using hmerits⟩
  · rw [hslot, if_neg (by omega)]
  · rw [hslot, if_pos rfl]

include hhead

/-- The entries up to the one that is put in. -/
theorem perm_put (nt : UInt16) (merit : Score) : ((q.put i nt merit).slots q.head (i - q.head + 1)).Perm
    ((nt, merit) :: q.slots q.head (i - q.head)) := by
  obtain ⟨hbefore, hself, hnts', hmerits'⟩ := slots_write hnts hmerits nt merit
  refine (perm_sortUp (q := q.write i nt merit) hhead hnts' hmerits' 0).trans ?_
  rw [head_write, slots_split _ hhead, hbefore, hself]
  exact List.perm_append_singleton _ _

theorem slots_put (hranked : Ranked (q.slots q.head (i - q.head))) (nt : UInt16)
    (hmerit : merit.isNaN = false) :
    (q.put i nt merit).slots q.head (i - q.head + 1) =
      place (nt, merit) (q.slots q.head (i - q.head)) := by
  obtain ⟨hbefore, hself, hnts', hmerits'⟩ := slots_write hnts hmerits nt merit
  have hstep := slots_sortUp (q := q.write i nt merit) hhead hnts' hmerits'
    (by rw [head_write, hbefore]; exact hranked) (by rw [hself]; exact hmerit) 0
  rw [head_write, hbefore, hself] at hstep
  exact hstep.trans (List.append_nil _)

end Put

/-- A queue without room for one more entry. -/
def Full (q : BeamQueue) : Prop := q.tail = q.maxTail

/-- What has not changed after something was put in a queue, and that no place was lost. -/
structure Extends (q r : BeamQueue) : Prop where
  sound : r.Sound
  head : r.head = q.head
  tail_le : q.tail ≤ r.tail
  maxTail : r.maxTail = q.maxTail

theorem Extends.capacity {r : BeamQueue} (h : Extends q r) : r.capacity = q.capacity := by
  unfold BeamQueue.capacity
  rw [h.head, h.maxTail]

theorem Sound.extends_self (h : q.Sound) : Extends q q := ⟨h, rfl, Nat.le_refl _, rfl⟩

theorem Full.extends {r : BeamQueue} (h : q.Full) (hr : Extends q r) : r.Full := by
  have := hr.sound.tail_le
  have := hr.tail_le
  have := hr.maxTail
  unfold Full at h ⊢
  omega

theorem Full.length (hfull : q.Full) : q.toList.length = q.capacity := by
  rw [length_toList, hfull, capacity]

theorem Sound.length_le (h : q.Sound) : q.toList.length ≤ q.capacity := by
  rw [length_toList, capacity]
  have := h.tail_le
  omega

/-- A queue with room takes an entry at its tail. -/
theorem insert_of_room (hroom : ¬q.Full) (nt : UInt16) (merit : Score) :
    q.insert nt merit = (true, { q with tail := q.tail + 1 }.put q.tail nt merit) :=
  if_neg hroom

theorem insert_of_full (hfull : q.Full) (nt : UInt16) (merit : Score) :
    q.insert nt merit =
      if q.tail = q.head ∨ merit ≤ q.meritAt (q.tail - 1) then (false, q)
      else (true, q.put (q.tail - 1) nt merit) := if_pos hfull

theorem Sound.insert_extends (h : q.Sound) (nt : UInt16) (merit : Score) :
    Extends q (q.insert nt merit).2 := by
  have hhead := h.head_le
  have htail := h.tail_le
  have hnts := h.nts
  have hmerits := h.merits
  by_cases hfull : q.Full
  · rw [insert_of_full hfull]
    split_ifs
    · exact h.extends_self
    · obtain ⟨h1, h2, h3, h4, h5⟩ := level_put q (q.tail - 1) nt merit
      dsimp only
      exact ⟨⟨⟨by omega, by omega⟩, by omega, by omega⟩, h1, by omega, h3⟩
  · have hlt : q.tail < q.maxTail := Nat.lt_of_le_of_ne htail hfull
    rw [insert_of_room hfull]
    obtain ⟨h1, h2, h3, h4, h5⟩ := level_put { q with tail := q.tail + 1 } q.tail nt merit
    dsimp only at h1 h2 h3 h4 h5 ⊢
    exact ⟨⟨⟨by omega, by omega⟩, by omega, by omega⟩, h1, by omega, h3⟩

/-- Where there is room nothing is lost. -/
theorem Sound.perm_insert (h : q.Sound) (hroom : ¬q.Full) (nt : UInt16) (merit : Score) :
    (q.insert nt merit).2.toList.Perm ((nt, merit) :: q.toList) := by
  obtain ⟨hnts, hmerits⟩ := h.lt_size (Nat.lt_of_le_of_ne h.tail_le hroom)
  have hperm := perm_put (q := { q with tail := q.tail + 1 }) h.head_le hnts hmerits nt merit
  have hlevel := level_put { q with tail := q.tail + 1 } q.tail nt merit
  rw [insert_of_room hroom, toList_eq, hlevel.head, hlevel.tail]
  dsimp only at hperm ⊢
  rwa [Nat.sub_add_comm h.head_le]

/-- What is in a queue after an entry is put in was there or was put in. -/
theorem Sound.mem_insert (h : q.Sound) {x : UInt16 × Score}
    (hx : x ∈ (q.insert nt merit).2.toList) : x = (nt, merit) ∨ x ∈ q.toList := by
  by_cases hfull : q.Full
  · rw [insert_of_full hfull] at hx
    split_ifs at hx with hrefused
    · exact Or.inr hx
    · have hne : q.tail ≠ q.head := fun heq => hrefused (Or.inl heq)
      have hhead := h.head_le
      have htail := h.tail_le
      obtain ⟨hnts, hmerits⟩ := h.lt_size (i := q.tail - 1) (by omega)
      have hlevel := level_put q (q.tail - 1) nt merit
      have hperm := perm_put (q := q) (i := q.tail - 1) (by omega) hnts hmerits nt merit
      dsimp only at hx
      rw [toList_eq, hlevel.head, hlevel.tail, show q.tail - q.head = q.tail - 1 - q.head + 1 by omega,
        hperm.mem_iff, List.mem_cons] at hx
      refine hx.imp_right fun hx => ?_
      rw [toList_eq, show q.tail - q.head = q.tail - 1 - q.head + 1 by omega, slots_add]
      exact List.mem_append_left _ hx
  · rwa [(h.perm_insert hfull nt merit).mem_iff, List.mem_cons] at hx

/-- The worst entry of a queue is its last. -/
theorem Sound.toList_eq_append (h : q.Sound) (hne : q.tail ≠ q.head) :
    q.toList = q.slots q.head (q.tail - 1 - q.head) ++ [q.slot (q.tail - 1)] := by
  have hle := h.head_le
  have hcount : q.tail - q.head = q.tail - 1 - q.head + 1 + 0 := by omega
  rw [toList_eq, hcount, slots_split q (by omega)]
  rfl

/-- A queue with room takes an entry into its ranking. -/
theorem Sound.toList_insert_of_room (h : q.Sound) (hroom : ¬q.Full) (hranked : Ranked q.toList)
    (hmerit : merit.isNaN = false) :
    (q.insert nt merit).2.toList = place (nt, merit) q.toList := by
  have hle := h.head_le
  obtain ⟨hnts, hmerits⟩ := h.lt_size (Nat.lt_of_le_of_ne h.tail_le hroom)
  have hlevel := level_put { q with tail := q.tail + 1 } q.tail nt merit
  have hput := slots_put (q := { q with tail := q.tail + 1 }) (i := q.tail) hle hnts hmerits
    hranked nt hmerit
  rw [insert_of_room hroom, toList_eq, hlevel.head, hlevel.tail]
  dsimp only at hput ⊢
  rw [Nat.sub_add_comm hle, hput]
  rfl

/-- A full queue takes an entry into its ranking in place of the worst. -/
theorem Sound.toList_put_last (h : q.Sound) (hne : q.tail ≠ q.head) (hranked : Ranked q.toList)
    (hmerit : merit.isNaN = false) :
    (q.put (q.tail - 1) nt merit).toList =
      place (nt, merit) (q.slots q.head (q.tail - 1 - q.head)) := by
  have hle := h.head_le
  have htail := h.tail_le
  obtain ⟨hnts, hmerits⟩ := h.lt_size (i := q.tail - 1) (by omega)
  have hlevel := level_put q (q.tail - 1) nt merit
  have hput := slots_put (q := q) (i := q.tail - 1) (by omega) hnts hmerits
    (by rw [h.toList_eq_append hne] at hranked; exact hranked.of_sublist (by simp)) nt hmerit
  rw [toList_eq, hlevel.head, hlevel.tail, ← hput, show q.tail - q.head = q.tail - 1 - q.head + 1 by omega]

/-- A full queue only refuses what is below none of its entries. -/
theorem Sound.refused_iff (h : q.Sound) (hranked : Ranked q.toList) :
    (q.tail = q.head ∨ merit ≤ q.meritAt (q.tail - 1)) ↔ ∀ x ∈ q.toList, merit ≤ x.2 := by
  by_cases hempty : q.tail = q.head
  · have hnil : q.toList = [] := List.eq_nil_of_length_eq_zero (by rw [length_toList]; omega)
    simp [hempty, hnil]
  · have hsplit := h.toList_eq_append hempty
    constructor
    · intro hrefused x hx
      have hle : merit ≤ (q.slot (q.tail - 1)).2 := hrefused.resolve_left hempty
      rw [hsplit] at hx hranked
      rcases List.mem_append.1 hx with hx | hx
      · exact Score.le_trans hle (hranked.le_of_append hx (List.mem_singleton_self _))
      · rw [List.mem_singleton.1 hx]
        exact hle
    · intro hbelow
      exact Or.inr (hbelow (q.slot (q.tail - 1)) (by rw [hsplit]; simp))

/-- A queue holds as much of the ranking with one more entry as it has places for. -/
theorem Sound.toList_insert (h : q.Sound) (nt : UInt16) (hranked : Ranked q.toList)
    (hmerit : merit.isNaN = false) :
    (q.insert nt merit).2.toList = (place (nt, merit) q.toList).take q.capacity := by
  by_cases hfull : q.Full
  · have hlength := hfull.length
    rw [insert_of_full hfull]
    split_ifs with hrefused
    · rw [h.refused_iff hranked] at hrefused
      have hsame : (place (nt, merit) q.toList).take q.capacity = q.toList.take q.capacity :=
        take_place_of_not_lt (by rw [hlength]) fun x hx =>
          Score.not_lt_of_le (hrefused x (List.mem_of_mem_take hx))
      rw [hsame, List.take_of_length_le (by rw [hlength])]
    · obtain ⟨hne, hnot⟩ := not_or.1 hrefused
      have hsplit := h.toList_eq_append hne
      have hnumber : (q.slot (q.tail - 1)).2.isNaN = false :=
        hranked.isNaN (q.slot (q.tail - 1)) (by rw [hsplit]; simp)
      have hworst : (q.slot (q.tail - 1)).2 < merit := by
        by_contra hnlt
        exact hnot (Score.le_of_not_lt hnumber hmerit hnlt)
      dsimp only
      rw [h.toList_put_last hne hranked hmerit, ← hlength, hsplit,
        place_append (by simpa using hworst)]
      exact (List.take_left' (by simp)).symm
  · have hlt : q.tail < q.maxTail := Nat.lt_of_le_of_ne h.tail_le hfull
    have hle := h.head_le
    rw [h.toList_insert_of_room hfull hranked hmerit, List.take_of_length_le]
    rw [length_place, length_toList, capacity]
    omega

/-- An entry is not taken only by a queue full of entries that are not below it. -/
theorem Sound.insert_fst (h : q.Sound) (hranked : Ranked q.toList) (nt : UInt16)
    (merit : Score) :
    ((q.insert nt merit).1 = false ↔ q.Full ∧ ∀ x ∈ q.toList, merit ≤ x.2) ∧
      ((q.insert nt merit).1 = false → (q.insert nt merit).2 = q) := by
  by_cases hfull : q.Full
  · rw [insert_of_full hfull]
    split_ifs with hrefused
    · exact ⟨⟨fun _ => ⟨hfull, (h.refused_iff hranked).1 hrefused⟩, fun _ => rfl⟩, fun _ => rfl⟩
    · rw [h.refused_iff hranked] at hrefused
      exact ⟨⟨fun hfalse => (nomatch hfalse), fun hall => absurd hall.2 hrefused⟩,
        fun hfalse => nomatch hfalse⟩
  · rw [insert_of_room hfull]
    simp [hfull]

/-! ## Raising an entry -/

theorem find?_toList (q : BeamQueue) (nt : UInt16) :
    q.toList.find? (·.1 = nt) = (q.find? nt).map q.slot := List.find?_map

/-- The first entry of a non-terminal, those before it and those after it. -/
theorem split_of_find? (h : q.find? nt = some i) :
    q.head ≤ i ∧ i < q.tail ∧ (q.slot i).1 = nt ∧
      (∀ x ∈ q.slots q.head (i - q.head), x.1 ≠ nt) ∧
      q.toList = q.slots q.head (i - q.head) ++ q.slot i :: q.slots (i + 1) (q.tail - (i + 1)) := by
  unfold find? at h
  obtain ⟨hnt, k, hk, hget, hfirst⟩ := List.find?_eq_some_iff_getElem.1 h
  rw [List.length_range'] at hk
  unfold size at hk
  rw [List.getElem_range', Nat.one_mul] at hget
  refine ⟨by omega, by omega, of_decide_eq_true hnt, fun x hx => ?_, ?_⟩
  · obtain ⟨j, hj, rfl⟩ := List.mem_map.1 hx
    rw [List.mem_range'_1] at hj
    have hother := hfirst (j - q.head) (by omega)
    rw [List.getElem_range', Nat.one_mul, Nat.add_sub_cancel' hj.1] at hother
    rwa [Bool.not_eq_true', decide_eq_false_iff_not] at hother
  · rw [toList_eq, ← slots_split q (by omega)]
    congr 1
    omega

/-- The queue with another merit at an index. -/
def remerit (q : BeamQueue) (i : Nat) (merit : Score) : BeamQueue :=
  { q with merits := q.merits.setIfInBounds i merit }

theorem slot_remerit (hi : i < q.merits.size) (merit : Score) (j : Nat) :
    (q.remerit i merit).slot j = if j = i then ((q.slot i).1, merit) else q.slot j := by
  unfold slot remerit
  dsimp only
  simp only [Array.getD_eq_getD_getElem?, Array.getElem?_setIfInBounds]
  by_cases hj : j = i
  · rw [if_pos hj, if_pos hj.symm, if_pos (by omega), hj]
    rfl
  · rw [if_neg hj, if_neg (Ne.symm hj)]

theorem level_raise (q : BeamQueue) (i : Nat) (merit : Score) :
    ((q.remerit i merit).sortUp i).Level q := by
  have h := level_sortUp (q.remerit i merit) i
  exact ⟨h.head, h.tail, h.maxTail, h.nts, h.merits.trans Array.size_setIfInBounds⟩

theorem Level.extends {r : BeamQueue} (hlevel : r.Level q) (h : q.Sound) : Extends q r := by
  have := h.head_le
  have := h.tail_le
  have := h.nts
  have := h.merits
  obtain ⟨h1, h2, h3, h4, h5⟩ := hlevel
  exact ⟨⟨⟨by omega, by omega⟩, by omega, by omega⟩, h1, by omega, h3⟩

section Raise

variable (h : q.Sound) (hfind : q.find? nt = some i)
include h hfind

theorem slots_remerit (merit : Score) :
    (q.remerit i merit).slots q.head (i - q.head) = q.slots q.head (i - q.head) ∧
      (q.remerit i merit).slot i = (nt, merit) ∧
      (q.remerit i merit).slots (i + 1) (q.tail - (i + 1)) =
        q.slots (i + 1) (q.tail - (i + 1)) := by
  obtain ⟨hhead, htail, hnt, -⟩ := split_of_find? hfind
  have hslot := slot_remerit (h.lt_size (h.lt_maxTail htail)).2 merit
  refine ⟨slots_congr fun j _ hj => ?_, ?_, slots_congr fun j hj _ => ?_⟩
  · rw [hslot, if_neg (by omega)]
  · rw [hslot, if_pos rfl, hnt]
  · rw [hslot, if_neg (by omega)]

theorem perm_raise (merit : Score) :
    ((q.remerit i merit).sortUp i).toList.Perm
      (q.slots q.head (i - q.head) ++ (nt, merit) :: q.slots (i + 1) (q.tail - (i + 1))) := by
  obtain ⟨hhead, htail, -⟩ := split_of_find? hfind
  obtain ⟨hbefore, hself, hafter⟩ := slots_remerit h hfind merit
  have hlevel := level_raise q i merit
  obtain ⟨hnts, hmerits⟩ := h.lt_size (h.lt_maxTail htail)
  have hperm := perm_sortUp (q := q.remerit i merit) hhead hnts
    (by unfold remerit; rwa [Array.size_setIfInBounds])
    (q.tail - (i + 1))
  change (((q.remerit i merit).sortUp i).slots q.head (i - q.head + 1 + (q.tail - (i + 1)))).Perm
    ((q.remerit i merit).slots q.head (i - q.head + 1 + (q.tail - (i + 1)))) at hperm
  rw [slots_split (q.remerit i merit) hhead, hbefore, hself, hafter] at hperm
  rw [toList_eq, hlevel.head, hlevel.tail]
  rwa [show q.tail - q.head = i - q.head + 1 + (q.tail - (i + 1)) by omega]

theorem toList_raise (hranked : Ranked q.toList) (hmerit : merit.isNaN = false)
    (habove : (q.slot i).2 < merit) :
    ((q.remerit i merit).sortUp i).toList = place (nt, merit) (q.toList.eraseP (·.1 = nt)) := by
  obtain ⟨hhead, htail, hnt, hnone, hsplit⟩ := split_of_find? hfind
  obtain ⟨hbefore, hself, hafter⟩ := slots_remerit h hfind merit
  have hlevel := level_raise q i merit
  rw [hsplit] at hranked
  have hranked' := hranked.of_sublist
    (List.sublist_append_left _ (q.slot i :: q.slots (i + 1) (q.tail - (i + 1))))
  obtain ⟨hnts, hmerits⟩ := h.lt_size (h.lt_maxTail htail)
  have hraise := slots_sortUp (q := q.remerit i merit) hhead hnts
    (by unfold remerit; rwa [Array.size_setIfInBounds])
    (by change Ranked ((q.remerit i merit).slots q.head (i - q.head)); rwa [hbefore])
    (by rw [hself]; exact hmerit) (q.tail - (i + 1))
  change ((q.remerit i merit).sortUp i).slots q.head (i - q.head + 1 + (q.tail - (i + 1))) =
    place ((q.remerit i merit).slot i) ((q.remerit i merit).slots q.head (i - q.head)) ++ _
    at hraise
  rw [hbefore, hself, hafter] at hraise
  have hcount : q.tail - q.head = i - q.head + 1 + (q.tail - (i + 1)) := by omega
  rw [hsplit, toList_eq, hlevel.head, hlevel.tail, hcount, hraise,
    List.eraseP_append_right _ (by simpa using hnone), List.eraseP_cons_of_pos (by simpa using hnt),
    place_append]
  intro y hy
  have hle := (List.pairwise_cons.1 (List.pairwise_append.1 hranked.le).2.1).1 y hy
  exact Score.lt_of_le_of_lt hle habove

end Raise

/-! ## Raising or adding an entry -/

theorem replace_of_find? (hfind : q.find? nt = some i) (merit : Score) :
    q.replace nt merit = if (q.slot i).2 < merit then (true, (q.remerit i merit).sortUp i)
      else (false, q) := by
  unfold BeamQueue.replace
  rw [hfind]
  rfl

theorem replace_of_none (hfind : q.find? nt = none) (merit : Score) :
    q.replace nt merit = q.insert nt merit := by
  unfold BeamQueue.replace
  rw [hfind]

theorem Sound.replace_extends (h : q.Sound) (nt : UInt16) (merit : Score) :
    Extends q (q.replace nt merit).2 := by
  cases hfind : q.find? nt with
  | none =>
    rw [replace_of_none hfind]
    exact h.insert_extends nt merit
  | some i =>
    rw [replace_of_find? hfind]
    split_ifs
    · exact (level_raise q i merit).extends h
    · exact h.extends_self

/-- Where there is room, every non-terminal of a queue stays in it. -/
theorem Sound.kept_of_replace (h : q.Sound) (hroom : ¬q.Full) {x : UInt16 × Score}
    (hx : x ∈ q.toList) : ∃ y ∈ (q.replace nt merit).2.toList, y.1 = x.1 := by
  cases hfind : q.find? nt with
  | none =>
    rw [replace_of_none hfind]
    exact ⟨x, (h.perm_insert hroom nt merit).mem_iff.2 (List.mem_cons_of_mem _ hx), rfl⟩
  | some i =>
    rw [replace_of_find? hfind]
    split_ifs
    · have hperm := perm_raise h hfind merit
      obtain ⟨-, -, hnt, -, hsplit⟩ := split_of_find? hfind
      rw [hsplit, List.mem_append, List.mem_cons] at hx
      rcases hx with hx | rfl | hx
      · exact ⟨x, hperm.mem_iff.2 (List.mem_append_left _ hx), rfl⟩
      · exact ⟨(nt, merit), hperm.mem_iff.2 (by simp), hnt.symm⟩
      · exact ⟨x, hperm.mem_iff.2 (List.mem_append_right _ (List.mem_cons_of_mem _ hx)), rfl⟩
    · exact ⟨x, hx, rfl⟩

/-- Something was put in a queue, and nothing was lost unless it is full now. -/
structure Retains (q r : BeamQueue) : Prop extends Extends q r where
  kept : ¬r.Full → ∀ x ∈ q.toList, ∃ y ∈ r.toList, y.1 = x.1

theorem Sound.retains_self (h : q.Sound) : Retains q q :=
  ⟨h.extends_self, fun _ x hx => ⟨x, hx, rfl⟩⟩

theorem Retains.trans {r p : BeamQueue} (h : Retains q r) (h' : Retains r p) : Retains q p := by
  refine ⟨⟨h'.sound, h'.head.trans h.head, Nat.le_trans h.tail_le h'.tail_le,
    h'.maxTail.trans h.maxTail⟩, fun hroom x hx => ?_⟩
  obtain ⟨y, hy, hxy⟩ := h.kept (fun hfull => hroom (hfull.extends h'.toExtends)) x hx
  obtain ⟨z, hz, hyz⟩ := h'.kept hroom y hy
  exact ⟨z, hz, hyz.trans hxy⟩

theorem Sound.insert_retains (h : q.Sound) (nt : UInt16) (merit : Score) :
    Retains q (q.insert nt merit).2 := by
  have hextends := h.insert_extends nt merit
  refine ⟨hextends, fun hroom x hx => ⟨x, ?_, rfl⟩⟩
  rw [(h.perm_insert (fun hfull => hroom (hfull.extends hextends)) nt merit).mem_iff]
  exact List.mem_cons_of_mem _ hx

theorem Sound.replace_retains (h : q.Sound) (nt : UInt16) (merit : Score) :
    Retains q (q.replace nt merit).2 := by
  have hextends := h.replace_extends nt merit
  exact ⟨hextends, fun hroom _ hx =>
    h.kept_of_replace (fun hfull => hroom (hfull.extends hextends)) hx⟩

theorem Sound.mem_replace (h : q.Sound) {x : UInt16 × Score}
    (hx : x ∈ (q.replace nt merit).2.toList) : x = (nt, merit) ∨ x ∈ q.toList := by
  cases hfind : q.find? nt with
  | none =>
    rw [replace_of_none hfind] at hx
    exact h.mem_insert hx
  | some i =>
    rw [replace_of_find? hfind] at hx
    split_ifs at hx
    · obtain ⟨-, -, -, -, hsplit⟩ := split_of_find? hfind
      rw [(perm_raise h hfind merit).mem_iff, List.mem_append, List.mem_cons] at hx
      rw [hsplit, List.mem_append, List.mem_cons]
      tauto
    · exact Or.inr hx

/-- Raising the merit of a non-terminal, or adding it, is done in the ranking of a queue; the queue
holds what it has places for. -/
theorem Sound.toList_replace (h : q.Sound) (hranked : Ranked q.toList)
    (hmerit : merit.isNaN = false) :
    (q.replace nt merit).2.toList = (rerank nt merit q.toList).2.take q.capacity := by
  have hfirst := find?_toList q nt
  have hlength := h.length_le
  unfold rerank
  cases hfind : q.find? nt with
  | some i =>
    rw [hfind, Option.map_some] at hfirst
    rw [hfirst, replace_of_find? hfind]
    dsimp only
    split_ifs with habove
    · dsimp only
      rw [toList_raise h hfind hranked hmerit habove, List.take_of_length_le]
      have hmem := List.mem_of_find?_eq_some hfirst
      have hpos := List.length_pos_of_mem hmem
      rw [length_place, List.length_eraseP_of_mem hmem (List.find?_some hfirst)]
      omega
    · exact (List.take_of_length_le hlength).symm
  | none =>
    rw [hfind, Option.map_none] at hfirst
    rw [hfirst, replace_of_none hfind, h.toList_insert nt hranked hmerit]

/-- Nothing changes if the non-terminal has a merit that is not lower, or if the queue is full of
entries that are not below the merit. -/
theorem Sound.replace_unchanged (h : q.Sound) (hranked : Ranked q.toList)
    (hunchanged : (q.replace nt merit).1 = false) :
    (q.replace nt merit).2 = q ∧ ((∃ x ∈ q.toList, x.1 = nt ∧ ¬x.2 < merit) ∨
      q.Full ∧ ∀ x ∈ q.toList, merit ≤ x.2) := by
  have hfirst := find?_toList q nt
  cases hfind : q.find? nt with
  | none =>
    rw [replace_of_none hfind] at hunchanged ⊢
    obtain ⟨hiff, hsame⟩ := h.insert_fst hranked nt merit
    exact ⟨hsame hunchanged, Or.inr (hiff.1 hunchanged)⟩
  | some i =>
    rw [hfind, Option.map_some] at hfirst
    rw [replace_of_find? hfind] at hunchanged ⊢
    split_ifs at hunchanged ⊢ with habove
    exact ⟨rfl, Or.inl ⟨q.slot i, List.mem_of_find?_eq_some hfirst,
      (split_of_find? hfind).2.2.1, habove⟩⟩

/-- A full queue of entries that are not below a merit does not change for it. -/
theorem Sound.replace_refused (h : q.Sound) (hranked : Ranked q.toList) (hfull : q.Full)
    (hall : ∀ x ∈ q.toList, merit ≤ x.2) : q.replace nt merit = (false, q) := by
  have hfirst := find?_toList q nt
  cases hfind : q.find? nt with
  | none =>
    rw [replace_of_none hfind]
    obtain ⟨hiff, hsame⟩ := h.insert_fst hranked nt merit
    have hrefused := hiff.2 ⟨hfull, hall⟩
    exact Prod.ext hrefused (hsame hrefused)
  | some i =>
    rw [hfind, Option.map_some] at hfirst
    rw [replace_of_find? hfind,
      if_neg (Score.not_lt_of_le (hall (q.slot i) (List.mem_of_find?_eq_some hfirst)))]

/-- A full queue only changes for a merit above that of an entry. -/
theorem Sound.replace_changed (h : q.Sound) (hranked : Ranked q.toList)
    (hmerit : merit.isNaN = false) (hchanged : (q.replace nt merit).1 = true)
    (hfull : q.Full) : ∃ x ∈ q.toList, x.2 < merit := by
  cases hfind : q.find? nt with
  | none =>
    rw [replace_of_none hfind] at hchanged
    by_contra hnone
    have hall : ∀ x ∈ q.toList, merit ≤ x.2 := fun x hx =>
      Score.le_of_not_lt (hranked.isNaN x hx) hmerit fun hlt => hnone ⟨x, hx, hlt⟩
    rw [(h.insert_fst hranked nt merit).1.2 ⟨hfull, hall⟩] at hchanged
    cases hchanged
  | some i =>
    rw [replace_of_find? hfind] at hchanged
    split_ifs at hchanged with habove
    have hfirst := find?_toList q nt
    rw [hfind, Option.map_some] at hfirst
    exact ⟨q.slot i, List.mem_of_find?_eq_some hfirst, habove⟩

/-! ## Taking an entry out -/

/-- A queue hands out the first of its entries, and with it a place. -/
theorem Sound.pop?_eq (h : q.Sound) : (q.pop? = none ∧ q.toList = []) ∨
    ∃ x r, q.pop? = some (x, r) ∧ q.toList = x :: r.toList ∧ r.Sound ∧
      r.head = q.head + 1 ∧ r.tail = q.tail ∧ r.maxTail = q.maxTail := by
  have hle := h.head_le
  unfold BeamQueue.pop? head? isEmpty
  by_cases hempty : q.head = q.tail
  · left
    simp [hempty, toList_eq, slots]
  · right
    refine ⟨q.slot q.head, { q with head := q.head + 1 }, by simp [hempty], ?_, ?_, rfl, rfl, rfl⟩
    · rw [toList_eq, toList_eq, show q.tail - q.head = 1 + (q.tail - (q.head + 1)) by omega,
        slots_add, slots_one]
      rfl
    · exact ⟨⟨h.nts, h.merits⟩, by dsimp only; omega, h.tail_le⟩

theorem Sound.of_pop?_eq_none (h : q.Sound) (hpop : q.pop? = none) : q.toList = [] := by
  rcases h.pop?_eq with ⟨-, hnil⟩ | ⟨x, r, hpop', -⟩
  · exact hnil
  · rw [hpop] at hpop'
    cases hpop'

theorem Sound.of_pop?_eq_some (h : q.Sound) {x : UInt16 × Score} {r : BeamQueue}
    (hpop : q.pop? = some (x, r)) : q.toList = x :: r.toList ∧ r.Sound ∧
      r.capacity = q.capacity - 1 ∧ (q.Full ↔ r.Full) := by
  rcases h.pop?_eq with ⟨hpop', -⟩ | ⟨x', r', hpop', hlist, hsound, hhead, htail, hmax⟩
  · rw [hpop] at hpop'
    cases hpop'
  · rw [hpop] at hpop'
    cases hpop'
    refine ⟨hlist, hsound, ?_, ?_⟩
    · unfold capacity
      omega
    · unfold Full
      rw [htail, hmax]

/-! ## Empty queues -/

theorem sound_clear (q : BeamQueue) (size : Nat) : (q.clear size).Sound :=
  ⟨roomy_clear q size, Nat.le_refl _, Nat.zero_le _⟩

/-- Limiting a queue to the places it has changes nothing. -/
theorem Sound.setMaxSize_capacity (h : q.Sound) : q.setMaxSize q.capacity = q := by
  have hhead := h.head_le
  have htail := h.tail_le
  have hmax : q.head + (q.maxTail - q.head) = q.maxTail := by omega
  unfold setMaxSize capacity
  dsimp only
  rw [hmax, Nat.min_eq_left htail, h.toRoomy.reserve_eq]

end BeamQueue
end ChartParsing

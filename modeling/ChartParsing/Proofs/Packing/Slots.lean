import ChartParsing.Proofs.Packing.PairHash

/-!
# Slots of hashed pairs

The right children of a left child fall into different slots, so that no pair is written
over by another. Every pair is found again under its key, and the keys count the pairs in
increasing order.
-/

namespace ChartParsing

namespace Interval

theorem mem_toList {r : Interval} {n : UInt16} : n ∈ r.toList ↔ r.contains n = true := by
  refine ⟨fun h => ?_, fun h => List.mem_of_getElem? (getElem?_toList h)⟩
  have hstop := r.stop.toNat_lt
  have hsize : r.size = r.stop.toNat - r.start.toNat := rfl
  obtain ⟨m, hm, rfl⟩ := List.mem_map.1 h
  rw [List.mem_range'_1] at hm
  have hm' : (UInt16.ofNat m).toNat = m := Nat.mod_eq_of_lt (by omega)
  simp only [contains, Bool.and_eq_true, decide_eq_true_iff, UInt16.le_iff_toNat_le,
    UInt16.lt_iff_toNat_lt, hm']
  omega

end Interval

namespace PairHash

/-- The right children of each left child are those it is paired with. -/
theorem mem_siblings {pairs : List (UInt16 × UInt16)} {left right : UInt16} :
    right ∈ (siblings pairs).getD left [] ↔ (left, right) ∈ pairs := by
  have hfold (pairs : List (UInt16 × UInt16)) (m : Std.HashMap UInt16 (List UInt16)) :
      right ∈ (pairs.foldl (fun m pair => m.insert pair.1 (pair.2 :: m.getD pair.1 [])) m).getD
        left [] ↔ right ∈ m.getD left [] ∨ (left, right) ∈ pairs := by
    induction pairs generalizing m with
    | nil => simp
    | cons pair pairs ih =>
      obtain ⟨left', right'⟩ := pair
      rw [List.foldl_cons, ih, Std.HashMap.getD_insert]
      by_cases heq : left' = left
      · simp [heq, or_assoc, or_left_comm]
      · simp [heq, Ne.symm heq]
  exact (hfold pairs ∅).trans (by simp)

/-- The slots of the pairs of a left child hold these pairs. -/
def Finds (d : Draft) (left : UInt16) (block : LeftBlock) : Prop :=
  ∀ (k : Nat) right, d.pairs[k]? = some (left, right) →
    d.slots[(block.offset + SlotTable.slotOf block.shift block.mask right).toNat]? =
      some (some ⟨right, UInt32.ofNat k⟩)

theorem pairs_enterAll (block : LeftBlock) (left : UInt16) (rights : List UInt16) (d : Draft) :
    (rights.foldl (Draft.enter block left) d).pairs.toList =
      d.pairs.toList ++ rights.map (left, ·) := by
  induction rights generalizing d with
  | nil => simp
  | cons right rights ih =>
    rw [List.foldl_cons, ih]
    simp [Draft.enter]

theorem blocks_enterAll (block : LeftBlock) (left : UInt16) (rights : List UInt16) (d : Draft) :
    (rights.foldl (Draft.enter block left) d).blocks = d.blocks := by
  induction rights generalizing d with
  | nil => rfl
  | cons right rights ih => exact ih _

theorem Finds.enter_other {d : Draft} {left left' : UInt16} {block block' : LeftBlock}
    (h : Finds d left block) (hne : left ≠ left') (right : UInt16)
    (hapart : ∀ other, (block'.offset + SlotTable.slotOf block'.shift block'.mask right).toNat ≠
      (block.offset + SlotTable.slotOf block.shift block.mask other).toNat) :
    Finds (Draft.enter block' left' d right) left block := by
  intro k other hk
  simp only [Draft.enter, Array.getElem?_push] at hk ⊢
  split_ifs at hk with hlast
  · exact absurd (Prod.mk.inj (Option.some.inj hk)).1.symm hne
  · rw [Array.getElem?_setIfInBounds_ne (hapart other)]
    exact h k other hk

theorem Finds.enter {d : Draft} {left : UInt16} {block : LeftBlock} (h : Finds d left block)
    {right : UInt16}
    (hin : (block.offset + SlotTable.slotOf block.shift block.mask right).toNat < d.slots.size)
    (hnew : ∀ (k : Nat) other, d.pairs[k]? = some (left, other) →
      SlotTable.slotOf block.shift block.mask other ≠
        SlotTable.slotOf block.shift block.mask right) :
    Finds (Draft.enter block left d right) left block := by
  intro k other hk
  simp only [Draft.enter, Array.getElem?_push] at hk ⊢
  split_ifs at hk with hlast
  · obtain rfl := (Prod.mk.inj (Option.some.inj hk)).2
    rw [Array.getElem?_setIfInBounds_self_of_lt hin, hlast]
  · rw [Array.getElem?_setIfInBounds_ne fun heq => ?_]
    · exact h k other hk
    · exact hnew k other hk ((UInt32.add_right_inj _).1 (UInt32.toNat_inj.1 heq)).symm

theorem Finds.enterAll_other {left left' : UInt16} {block block' : LeftBlock}
    (rights : List UInt16) {d : Draft} (h : Finds d left block) (hne : left ≠ left')
    (hapart : ∀ right other,
      (block'.offset + SlotTable.slotOf block'.shift block'.mask right).toNat ≠
        (block.offset + SlotTable.slotOf block.shift block.mask other).toNat) :
    Finds (rights.foldl (Draft.enter block' left') d) left block := by
  induction rights generalizing d with
  | nil => exact h
  | cons right rights ih => exact ih (h.enter_other hne right (hapart right))

/-- Right children that fall into different slots are all found. -/
theorem Finds.enterAll {left : UInt16} {block : LeftBlock} {rights : List UInt16} {d : Draft}
    (h : Finds d left block)
    (hin : ∀ right,
      (block.offset + SlotTable.slotOf block.shift block.mask right).toNat < d.slots.size)
    (hnodup : (rights.map (SlotTable.slotOf block.shift block.mask)).Nodup)
    (hnew : ∀ (k : Nat) other, d.pairs[k]? = some (left, other) → ∀ right ∈ rights,
      SlotTable.slotOf block.shift block.mask other ≠
        SlotTable.slotOf block.shift block.mask right) :
    Finds (rights.foldl (Draft.enter block left) d) left block := by
  induction rights generalizing d with
  | nil => exact h
  | cons right rights ih =>
    rw [List.map_cons, List.nodup_cons] at hnodup
    refine ih (h.enter (hin right) fun k other hk => hnew k other hk right List.mem_cons_self)
      (by simpa [Draft.enter] using hin) hnodup.2 fun k other hk next hnext => ?_
    simp only [Draft.enter, Array.getElem?_push] at hk
    split_ifs at hk with hlast
    · obtain rfl := (Prod.mk.inj (Option.some.inj hk)).2
      exact fun heq => hnodup.1 (List.mem_map.2 ⟨next, hnext, heq.symm⟩)
    · exact hnew k other hk next (List.mem_cons_of_mem _ hnext)

/-- The tables of the left children met so far hold all their pairs, in increasing order. -/
structure Complete (rightsOf : UInt16 → List UInt16) (d : Draft) (lefts : List UInt16) :
    Prop where
  pairs : d.pairs.toList = lefts.flatMap fun left =>
    (SortedSearch.sortedDistinct (rightsOf left)).map (left, ·)
  finds : ∀ (j : Nat) left block, lefts[j]? = some left → d.blocks[j]? = some block →
    Finds d left block

theorem Complete.empty (rightsOf : UInt16 → List UInt16) :
    Complete rightsOf ⟨#[], #[], #[], #[]⟩ [] := by
  constructor <;> simp

theorem Complete.left_mem {rightsOf : UInt16 → List UInt16} {d : Draft} {lefts : List UInt16}
    (h : Complete rightsOf d lefts) {k : Nat} {left right : UInt16}
    (hk : d.pairs[k]? = some (left, right)) :
    left ∈ lefts ∧ right ∈ SortedSearch.sortedDistinct (rightsOf left) := by
  have hmem : (left, right) ∈ d.pairs.toList := Array.mem_toList_iff.2 (Array.mem_of_getElem? hk)
  rw [h.pairs, List.mem_flatMap] at hmem
  obtain ⟨left', hleft, hmem⟩ := hmem
  obtain ⟨right', hright, heq⟩ := List.mem_map.1 hmem
  cases heq
  exact ⟨hleft, hright⟩

theorem Complete.addLeft {rightsOf : UInt16 → List UInt16} {d : Draft} {lefts : List UInt16}
    (h : Complete rightsOf d lefts) (hsound : Sound d lefts) (hlefts : lefts.length < 65535)
    {left : UInt16} (hnew : left ∉ lefts) :
    Complete rightsOf (Draft.addLeft rightsOf d left) (lefts ++ [left]) := by
  have hmask := SlotTable.smallest_mask (nodup_rights (rightsOf left)) d.marks
  have hseparate := SlotTable.separate_smallest (nodup_rights (rightsOf left)) d.marks
  unfold Draft.addLeft
  dsimp only
  set rights := SortedSearch.sortedDistinct (rightsOf left) with hrights
  generalize SlotTable.smallest rights d.marks = table at hmask hseparate ⊢
  obtain ⟨⟨shift, mask⟩, marks⟩ := table
  dsimp only at hmask hseparate ⊢
  have htable := hsound.addTable left hlefts marks shift hmask
  have hslots := htable.slots
  rw [List.length_append, List.length_singleton] at hslots
  set block : LeftBlock := ⟨shift, mask, UInt32.ofNat d.slots.size⟩ with hblock
  have hlast : (d.blocks.push block)[lefts.length]? = some block := by
    rw [Array.getElem?_push, if_pos hsound.blocks.symm]
  have howns := htable.owns lefts.length left block (by simp) hlast
  constructor
  · rw [pairs_enterAll, List.flatMap_append, ← h.pairs]
    simp [hrights]
  · intro j left' block' hl hb
    rw [blocks_enterAll] at hb
    have hj : j < lefts.length + 1 := by
      have := (List.getElem?_eq_some_iff.1 hl).1
      simpa using this
    rcases Nat.lt_or_ge j lefts.length with hj' | hj'
    · have howns' := htable.owns j left' block' hl hb
      have hapart := htable.apart j lefts.length block' block hj' hb hlast
      rw [List.getElem?_append_left hj'] at hl
      have hb' : d.blocks[j]? = some block' := by
        rwa [Array.getElem?_push, if_neg (by rw [hsound.blocks]; omega)] at hb
      have hfinds : Finds { d with
          blocks := d.blocks.push block
          slots := d.slots ++ Array.replicate (mask.toNat + 1) none
          marks := marks } left' block' := by
        intro k right hk
        have hslot := h.finds j left' block' hl hb' k right hk
        rw [← hslot]
        exact Array.getElem?_append_left (Array.getElem?_eq_some_iff.1 hslot).1
      refine hfinds.enterAll_other rights ?_ fun right other => ?_
      · rintro rfl
        exact hnew (List.mem_of_getElem? hl)
      · have := (howns.slot (by omega) right).1
        have := (howns'.slot (by omega) other).2
        omega
    · obtain rfl : j = lefts.length := by omega
      obtain rfl : left = left' := by simpa using hl
      obtain rfl : block = block' := Option.some.inj (hlast.symm.trans hb)
      refine Finds.enterAll ?_ (fun right => ?_) hseparate ?_
      · intro k other hk
        exact absurd (h.left_mem hk).1 hnew
      · have := (howns.slot (by omega) right).2
        exact Nat.lt_of_le_of_lt this howns.inside
      · intro k other hk
        exact absurd (h.left_mem hk).1 hnew

/-! ## The finished hash -/

variable {lefts : Interval} {pairs : List (UInt16 × UInt16)}

theorem complete_build (lefts : Interval) (pairs : List (UInt16 × UInt16)) :
    let found := siblings pairs
    Complete (fun left => found.getD left [])
      (lefts.toList.foldl (Draft.addLeft fun left => found.getD left []) ⟨#[], #[], #[], #[]⟩)
      lefts.toList :=
  addLefts_induction (Complete.empty _)
    (fun _ _ _ hsound _ hpre hnew hcomplete => hcomplete.addLeft hsound hpre hnew)
    lefts.length_toList_le lefts.nodup_toList

/-- The pairs of the keys are those whose left child is in range. -/
theorem mem_pairs {left right : UInt16} : (left, right) ∈ (build lefts pairs).pairs ↔
    lefts.contains left = true ∧ (left, right) ∈ pairs := by
  have hpairs : (build lefts pairs).pairs.toList = _ := (complete_build lefts pairs).pairs
  rw [← Array.mem_toList_iff, hpairs, ← Interval.mem_toList, ← @mem_siblings pairs]
  simp only [List.mem_flatMap, List.mem_map, SortedSearch.mem_sortedDistinct, Prod.mk.injEq]
  constructor
  · rintro ⟨left', hleft, right', hright, rfl, rfl⟩
    exact ⟨hleft, hright⟩
  · rintro ⟨hleft, hright⟩
    exact ⟨left, hleft, right, hright, rfl, rfl⟩

theorem length_flatMap_le {α β : Type} {f : α → List β} {bound : Nat} {xs : List α}
    (h : ∀ x ∈ xs, (f x).length ≤ bound) : (xs.flatMap f).length ≤ xs.length * bound := by
  induction xs with
  | nil => exact Nat.zero_le _
  | cons x xs ih =>
    have hx := h x List.mem_cons_self
    have hxs := ih fun y hy => h y (List.mem_cons_of_mem _ hy)
    rw [List.flatMap_cons, List.length_append, List.length_cons, Nat.succ_mul]
    omega

theorem size_lt (lefts : Interval) (pairs : List (UInt16 × UInt16)) :
    (build lefts pairs).size < 2 ^ 32 := by
  have hpairs : (build lefts pairs).pairs.toList = _ := (complete_build lefts pairs).pairs
  have hle : (build lefts pairs).pairs.toList.length ≤ lefts.toList.length * 65536 := by
    rw [hpairs]
    refine length_flatMap_le fun left _ => ?_
    rw [List.length_map]
    exact length_rights_le _
  have hlefts := lefts.size_le
  rw [Array.length_toList, Interval.length_toList] at hle
  rw [size]
  omega

/-- There is a table for each left child in range. -/
theorem exists_leftBlock? {left : UInt16} (hleft : lefts.contains left = true) :
    ∃ block, (build lefts pairs).leftBlock? left = some block :=
  ⟨_, (if_pos hleft).trans (Array.getElem?_eq_getElem (place_lt_size pairs hleft))⟩

/-- A key stands for the pair that is packed into it. -/
theorem pack_eq_some_iff {left right : UInt16} {key : UInt32} :
    (build lefts pairs).pack left right = some key ↔
      (build lefts pairs).unpack key = some (left, right) := by
  refine ⟨fun h => (unpack_of_pack h).1, fun h => ?_⟩
  have hcomplete := complete_build lefts pairs
  have hleft := Interval.mem_toList.1 (hcomplete.left_mem h).1
  obtain ⟨block, hblock⟩ := @exists_leftBlock? lefts pairs left hleft
  have hslot := hcomplete.finds _ left block (Interval.getElem?_toList hleft)
    (leftBlock?_eq_some hblock).2 key.toNat right h
  rw [UInt32.ofNat_toNat] at hslot
  exact Option.bind_eq_some_iff.2 ⟨block, hblock, packInto_eq_some_iff.2 hslot⟩

/-- The pairs that have a key are those the hash was built of, with left child in range. -/
theorem exists_key_iff {left right : UInt16} :
    (∃ key, (build lefts pairs).pack left right = some key) ↔
      lefts.contains left = true ∧ (left, right) ∈ pairs := by
  rw [← mem_pairs]
  constructor
  · rintro ⟨key, hkey⟩
    exact Array.mem_of_getElem? (unpack_of_pack hkey).1
  · intro hmem
    obtain ⟨k, hk⟩ := Array.getElem?_of_mem hmem
    have hlt : k < 2 ^ 32 :=
      Nat.lt_trans (Array.getElem?_eq_some_iff.1 hk).1 (size_lt lefts pairs)
    refine ⟨UInt32.ofNat k, pack_eq_some_iff.2 ?_⟩
    have hnat : (UInt32.ofNat k).toNat = k := Nat.mod_eq_of_lt hlt
    rw [unpack, hnat]
    exact hk

end PairHash
end ChartParsing

import ChartParsing.Proofs.Packing.Bijection

/-!
# Least tables

Each left child of a hash has the least table that keeps its siblings apart. The tables lie one
after the other, and in each of them every sibling takes the slot it is sent to, with the key of
its pair, and no other slot is taken.
-/

namespace ChartParsing

/-- The search for a slot table finds the least shift under any mask, whatever was marked before,
and the least table of all: the widths it leaves out are all too small, and it never gets past the
last one. -/
structure SlotTable.SearchesLeast (values : List UInt16) : Prop where
  shift_some : ∀ mask marks shift, (collisionFreeShift values mask marks).1 = some shift ↔
    IsLeast {n | n ≤ 16 ∧ Separates {value | value ∈ values} mask n} shift.toNat
  shift_none : ∀ mask marks, (collisionFreeShift values mask marks).1 = none ↔
    ∀ shift ≤ 16, ¬Separates {value | value ∈ values} mask shift
  left_out : ∀ bits < leastBits values.length, ¬HasShift {value | value ∈ values} bits
  table : ∀ marks, ∃ bits, leastBits values.length ≤ bits ∧
    IsLeastTable {value | value ∈ values} (smallest values marks).1.1 (smallest values marks).1.2
      bits ∧
    ∀ marks', (collisionFreeShift values (lowMask bits) marks').1 =
      some (smallest values marks).1.1

theorem SlotTable.searchesLeast {values : List UInt16} (h : values.Nodup) :
    SearchesLeast values where
  shift_some := fun _ _ _ => collisionFreeShift_eq_some_iff h
  shift_none := fun _ _ => collisionFreeShift_eq_none_iff h
  left_out := fun _ hbits ⟨_, _, hseparates⟩ => not_separates_of_lt_leastBits h hbits hseparates
  table := smallest_spec h

namespace PairHash

variable {rightsOf : UInt16 → List UInt16} {d : Draft}

/-! ## Where a right child stands -/

/-- Every right child stands in a slot that it is sent to by one of the tables. -/
def Routed (d : Draft) : Prop :=
  ∀ (i : Nat) s, d.slots[i]? = some (some s) → ∃ block ∈ d.blocks,
    i = (block.offset + SlotTable.slotOf block.shift block.mask s.right).toNat

theorem Routed.enter (h : Routed d) {block : LeftBlock} (hblock : block ∈ d.blocks)
    (left right : UInt16) : Routed (Draft.enter block left d right) := by
  intro i s hs
  simp only [Draft.enter, Array.getElem?_setIfInBounds] at hs
  split_ifs at hs with heq hin
  · obtain rfl := Option.some.inj (Option.some.inj hs)
    exact ⟨block, hblock, heq.symm⟩
  · exact h i s hs

theorem Routed.enterAll {block : LeftBlock} (left : UInt16) (rights : List UInt16)
    (h : Routed d) (hblock : block ∈ d.blocks) :
    Routed (rights.foldl (Draft.enter block left) d) := by
  induction rights generalizing d with
  | nil => exact h
  | cons right rights ih => exact ih (h.enter hblock left right) hblock

/-- The slots of a new table are empty before its siblings are entered. -/
theorem Routed.addLeft (h : Routed d) (left : UInt16) :
    Routed (Draft.addLeft rightsOf d left) := by
  refine Routed.enterAll left _ (fun i s hs => ?_) Array.mem_push_self
  dsimp only at hs
  rw [Array.getElem?_append] at hs
  split_ifs at hs with hi
  · obtain ⟨block, hblock, heq⟩ := h i s hs
    exact ⟨block, Array.mem_push_of_mem _ hblock, heq⟩
  · rw [Array.getElem?_replicate] at hs
    split_ifs at hs
    simp at hs

theorem routed_build (lefts : Interval) (pairs : List (UInt16 × UInt16)) :
    let found := siblings pairs
    Routed
      (lefts.toList.foldl (Draft.addLeft fun left => found.getD left []) ⟨#[], #[], #[], #[]⟩) :=
  addLefts_induction (motive := fun d _ => Routed d) (by intro i s hs; simp at hs)
    (fun _ _ left _ _ _ _ hrouted => hrouted.addLeft left)
    lefts.length_toList_le lefts.nodup_toList

/-- Only its own table sends a right child to a slot. -/
theorem Sound.block_eq {lefts : List UInt16} (h : Sound d lefts) (hslots : d.slots.size < 2 ^ 32)
    {block block' : LeftBlock} (hblock : block ∈ d.blocks) (hblock' : block' ∈ d.blocks)
    {right : UInt16} {i : Nat}
    (hroute : i = (block'.offset + SlotTable.slotOf block'.shift block'.mask right).toNat)
    (hlo : block.offset.toNat ≤ i) (hhi : i ≤ block.offset.toNat + block.mask.toNat) :
    block' = block := by
  obtain ⟨j, hj⟩ := Array.getElem?_of_mem hblock
  obtain ⟨k, hk⟩ := Array.getElem?_of_mem hblock'
  have hlt : k < lefts.length := by
    rw [← h.blocks]
    exact (Array.getElem?_eq_some_iff.1 hk).1
  have hin := (h.owns k lefts[k] block' (List.getElem?_eq_getElem hlt) hk).slot hslots right
  rcases Nat.lt_trichotomy j k with hjk | rfl | hkj
  · have := h.apart j k block block' hjk hj hk
    omega
  · exact Option.some.inj (hk.symm.trans hj)
  · have := h.apart k j block' block hkj hk hj
    omega

/-! ## The table of each left child -/

/-- The left children met so far have the least tables for their siblings. -/
def Fitted (rightsOf : UInt16 → List UInt16) (d : Draft) (lefts : List UInt16) : Prop :=
  ∀ (j : Nat) left block, lefts[j]? = some left → d.blocks[j]? = some block →
    ∃ bits, SlotTable.IsLeastTable {right | right ∈ rightsOf left} block.shift block.mask bits

theorem Fitted.addLeft {lefts : List UInt16} (h : Fitted rightsOf d lefts) (hsound : Sound d lefts)
    (left : UInt16) : Fitted rightsOf (Draft.addLeft rightsOf d left) (lefts ++ [left]) := by
  obtain ⟨bits, -, htable, -⟩ :=
    SlotTable.smallest_spec (nodup_rights (rightsOf left)) d.marks
  simp only [SortedSearch.mem_sortedDistinct] at htable
  intro j other block hl hb
  unfold Draft.addLeft at hb
  dsimp only at hb
  rw [blocks_enterAll, Array.getElem?_push, hsound.blocks] at hb
  split_ifs at hb with hj
  · obtain rfl := Option.some.inj hb
    obtain rfl : left = other := by simpa [hj] using hl
    exact ⟨bits, htable⟩
  · have hlt : j < lefts.length := by
      have := (Array.getElem?_eq_some_iff.1 hb).1
      rwa [hsound.blocks] at this
    rw [List.getElem?_append_left hlt] at hl
    exact h j other block hl hb

theorem fitted_build (lefts : Interval) (pairs : List (UInt16 × UInt16)) :
    let found := siblings pairs
    Fitted (fun left => found.getD left [])
      (lefts.toList.foldl (Draft.addLeft fun left => found.getD left []) ⟨#[], #[], #[], #[]⟩)
      lefts.toList :=
  addLefts_induction (motive := Fitted fun left => (siblings pairs).getD left [])
    (by intro j left block hl; simp at hl)
    (fun _ _ left hsound _ _ _ hfitted => hfitted.addLeft hsound left)
    lefts.length_toList_le lefts.nodup_toList

/-- A left child has the least table for its siblings. These are sent to different slots, where
they stand with the keys of their pairs, and the other slots are empty. -/
structure HasTable (h : PairHash) (left : UInt16) (siblings : Set UInt16) (block : LeftBlock)
    (bits : Nat) : Prop where
  least : SlotTable.IsLeastTable siblings block.shift block.mask bits
  found : ∀ rights : List UInt16, rights.Nodup → {right | right ∈ rights} = siblings →
    ∀ marks, (SlotTable.collisionFreeShift rights block.mask marks).1 = some block.shift
  width : block.width = 2 ^ bits
  inside : block.offset.toNat + 2 ^ bits ≤ h.slots.size
  taken : Set.BijOn (fun right => (SlotTable.slotOf block.shift block.mask right).toNat) siblings
    {k | k < 2 ^ bits ∧ ∃ s, h.slots[block.offset.toNat + k]? = some (some s)}
  holds : ∀ right ∈ siblings, ∃ key, h.pack left right = some key ∧
    h.slots[block.offset.toNat + (SlotTable.slotOf block.shift block.mask right).toNat]? =
      some (some ⟨right, key⟩)
  empty : ∀ k < 2 ^ bits,
    (∀ right ∈ siblings, (SlotTable.slotOf block.shift block.mask right).toNat ≠ k) →
      h.slots[block.offset.toNat + k]? = some none

variable {lefts : Interval} {pairs : List (UInt16 × UInt16)} {left right : UInt16}
  {block : LeftBlock}

/-- A sibling stands in the slot it is sent to. -/
theorem slots_of_mem (hblock : (build lefts pairs).leftBlock? left = some block)
    (hmem : (left, right) ∈ pairs) :
    ∃ key, (build lefts pairs).pack left right = some key ∧
      (build lefts pairs).slots[block.offset.toNat +
        (SlotTable.slotOf block.shift block.mask right).toNat]? = some (some ⟨right, key⟩) := by
  obtain ⟨key, hkey⟩ := exists_key_iff.2 ⟨(leftBlock?_eq_some hblock).1, hmem⟩
  obtain ⟨other, hother, hinto⟩ := Option.bind_eq_some_iff.1 hkey
  obtain rfl : block = other := Option.some.inj (hblock.symm.trans hother)
  have hslot := packInto_eq_some_iff.1 hinto
  rw [((unwrapped_build lefts pairs).slot left block right hblock).1] at hslot
  exact ⟨key, hkey, hslot⟩

/-- What stands in a slot of a table is a sibling that is sent there. -/
theorem mem_of_slots (hblock : (build lefts pairs).leftBlock? left = some block) {k : Nat}
    (hk : k < block.width) {s : PairSlot}
    (hs : (build lefts pairs).slots[block.offset.toNat + k]? = some (some s)) :
    (left, s.right) ∈ pairs ∧ (SlotTable.slotOf block.shift block.mask s.right).toNat = k := by
  obtain ⟨hleft, hat⟩ := leftBlock?_eq_some hblock
  have hsound := sound_build lefts pairs
  have hmask : k ≤ block.mask.toNat := Nat.le_of_lt_succ hk
  have hkeyed := (hsound.owns _ left block (Interval.getElem?_toList hleft) hat).keyed
    (block.offset.toNat + k) (by omega) (by omega) s hs
  refine ⟨(mem_pairs.1 (Array.mem_of_getElem? hkeyed)).2, ?_⟩
  -- no other table sends a child to this slot
  obtain ⟨other, hother, hroute⟩ := routed_build lefts pairs _ s hs
  obtain rfl := hsound.block_eq (size_slots_lt lefts pairs) (Array.mem_of_getElem? hat) hother
    hroute (by omega) (by omega)
  have hslot := ((unwrapped_build lefts pairs).slot left other s.right hblock).1
  omega

theorem bijOn_slots (hblock : (build lefts pairs).leftBlock? left = some block)
    (hinj : Set.InjOn (SlotTable.slotOf block.shift block.mask) {right | (left, right) ∈ pairs}) :
    Set.BijOn (fun right => (SlotTable.slotOf block.shift block.mask right).toNat)
      {right | (left, right) ∈ pairs} {k | k < block.width ∧
        ∃ s, (build lefts pairs).slots[block.offset.toNat + k]? = some (some s)} := by
  refine ⟨fun right hmem => ?_, fun right hmem right' hmem' heq => ?_, ?_⟩
  · obtain ⟨key, -, hs⟩ := slots_of_mem hblock hmem
    exact ⟨((unwrapped_build lefts pairs).slot left block right hblock).2.1, _, hs⟩
  · exact hinj hmem hmem' (UInt32.toNat_inj.1 heq)
  · rintro k ⟨hk, s, hs⟩
    exact ⟨s.right, mem_of_slots hblock hk hs⟩

/-- A slot that no sibling is sent to is empty. -/
theorem slots_eq_none (hblock : (build lefts pairs).leftBlock? left = some block) {k : Nat}
    (hk : k < block.width) (hfree : ∀ right, (left, right) ∈ pairs →
      (SlotTable.slotOf block.shift block.mask right).toNat ≠ k) :
    (build lefts pairs).slots[block.offset.toNat + k]? = some none := by
  have hinside := ((unwrapped_build lefts pairs).slot left block 0 hblock).2.2
  have hlt : block.offset.toNat + k < (build lefts pairs).slots.size := by omega
  obtain ⟨o, ho⟩ : ∃ o, (build lefts pairs).slots[block.offset.toNat + k]? = some o :=
    ⟨_, Array.getElem?_eq_getElem hlt⟩
  cases o with
  | none => exact ho
  | some s =>
    obtain ⟨hmem, heq⟩ := mem_of_slots hblock hk ho
    exact absurd heq (hfree s.right hmem)

theorem exists_hasTable (hleft : lefts.contains left = true) :
    ∃ block bits, (build lefts pairs).leftBlock? left = some block ∧
      HasTable (build lefts pairs) left {right | (left, right) ∈ pairs} block bits := by
  obtain ⟨block, hblock⟩ := @exists_leftBlock? lefts pairs left hleft
  obtain ⟨bits, hleast⟩ := fitted_build lefts pairs _ left block (Interval.getElem?_toList hleft)
    (leftBlock?_eq_some hblock).2
  simp only [mem_siblings] at hleast
  have hwidth : block.width = 2 ^ bits := by
    have hbits := hleast.bits_le
    have hpos := Nat.two_pow_pos bits
    rw [LeftBlock.width, hleast.mask_eq, SlotTable.toNat_lowMask (by omega)]
    omega
  refine ⟨block, bits, hblock, hleast, fun rights hnodup heq marks => ?_, hwidth, ?_, ?_,
    fun right => slots_of_mem hblock, ?_⟩
  · rw [SlotTable.collisionFreeShift_eq_some_iff hnodup, heq]
    exact hleast.shift_least
  · rw [← hwidth]
    exact ((unwrapped_build lefts pairs).slot left block 0 hblock).2.2
  · rw [← hwidth]
    exact bijOn_slots hblock hleast.injOn
  · intro k hk
    rw [← hwidth] at hk
    exact slots_eq_none hblock hk

/-- The table of a left child ends before those of the later ones begin. -/
theorem offset_le_of_lt {left' : UInt16} {block' : LeftBlock}
    (hblock : (build lefts pairs).leftBlock? left = some block)
    (hblock' : (build lefts pairs).leftBlock? left' = some block') (hlt : left < left') :
    block.offset.toNat + block.width ≤ block'.offset.toNat := by
  obtain ⟨hleft, hat⟩ := leftBlock?_eq_some hblock
  obtain ⟨hleft', hat'⟩ := leftBlock?_eq_some hblock'
  refine (sound_build lefts pairs).apart _ _ block block' ?_ hat hat'
  simp only [Interval.contains, Bool.and_eq_true, decide_eq_true_iff] at hleft hleft'
  rw [UInt16.toNat_sub_of_le _ _ hleft.1, UInt16.toNat_sub_of_le _ _ hleft'.1]
  have := UInt16.lt_iff_toNat_lt.1 hlt
  have := UInt16.le_iff_toNat_le.1 hleft.1
  omega

/-- Every left child has a table of its own, and the tables lie one after the other. -/
structure LeastTables (h : PairHash) (pairs : List (UInt16 × UInt16)) : Prop where
  size : h.blocks.size = h.lefts.size
  tiled : Tiled h.blocks h.slots.size
  apart : ∀ left left' block block', h.leftBlock? left = some block →
    h.leftBlock? left' = some block' → left < left' →
      block.offset.toNat + block.width ≤ block'.offset.toNat
  table : ∀ left, h.lefts.contains left = true → ∃ block bits,
    h.leftBlock? left = some block ∧ HasTable h left {right | (left, right) ∈ pairs} block bits

/-- The search for a table finds the least one for any different values, and a hash has such a
table for the siblings of every left child. -/
theorem build_leastTables {values : List UInt16} (hvalues : values.Nodup) (lefts : Interval)
    (pairs : List (UInt16 × UInt16)) :
    SlotTable.SearchesLeast values ∧ (build lefts pairs).LeastTables pairs := by
  refine ⟨SlotTable.searchesLeast hvalues, size_blocks lefts pairs, tiled_build lefts pairs,
    ?_, ?_⟩
  · intro left left' block block' hblock hblock' hlt
    exact offset_le_of_lt hblock hblock' hlt
  · intro left hleft
    exact exists_hasTable hleft

/-- Four multiples of 8 are told apart by two bits only after a shift by three, whatever was marked
before. A hash in which they are the siblings of one left child, and another has none, has a table
for both. -/
theorem build_leastTables_eights :
    let pairs : List (UInt16 × UInt16) := [(4, 24), (4, 8), (2, 7), (4, 0), (4, 8), (4, 16)]
    let h := build ⟨2, 5⟩ pairs
    IsLeast {n | n ≤ 16 ∧ SlotTable.Separates {value | value ∈ [0, 8, 16, 24]} 3 n} 3 ∧
      h.blocks.size = 3 ∧
      (∃ block bits, h.leftBlock? 4 = some block ∧
        HasTable h 4 {right | (4, right) ∈ pairs} block bits) ∧
      ∃ block bits, h.leftBlock? 3 = some block ∧
        HasTable h 3 {right | (3, right) ∈ pairs} block bits :=
  have h := @build_leastTables [0, 8, 16, 24] (by decide) ⟨2, 5⟩
    [(4, 24), (4, 8), (2, 7), (4, 0), (4, 8), (4, 16)]
  ⟨(h.1.shift_some 3 #[true] 3).1 (by decide), h.2.size, h.2.table 4 (by decide),
    h.2.table 3 (by decide)⟩

end PairHash
end ChartParsing

import ChartParsing.Packing.Basic
import ChartParsing.Proofs.Packing.TableSearch
import ChartParsing.Proofs.SortedSearch

/-!
# Hashed pairs

The tables of the left children lie one after the other, and each slot is written with
the key of a pair of its own left child. A key that is found in a slot is therefore the
key of the pair it was looked up for.
-/

namespace ChartParsing

namespace PairHash

theorem sorted_rights (rights : List UInt16) :
    (SortedSearch.sortedDistinct rights).Pairwise fun m n => m < n :=
  (SortedSearch.increasing_sortedDistinct (fun _ _ _ => UInt16.le_trans) UInt16.le_total
    (fun _ _ => UInt16.le_antisymm) rights).imp fun h => UInt16.lt_of_le_of_ne h.1 h.2

theorem nodup_rights (rights : List UInt16) : (SortedSearch.sortedDistinct rights).Nodup :=
  (sorted_rights rights).imp UInt16.ne_of_lt

theorem length_rights_le (rights : List UInt16) :
    (SortedSearch.sortedDistinct rights).length ≤ 65536 :=
  SlotTable.length_le_of_nodup (nodup_rights rights)

/-- The slots of a left child hold only keys of pairs with that child. -/
structure Owns (d : Draft) (left : UInt16) (block : LeftBlock) : Prop where
  inside : block.offset.toNat + block.mask.toNat < d.slots.size
  keyed : ∀ i, block.offset.toNat ≤ i → i ≤ block.offset.toNat + block.mask.toNat →
    ∀ s, d.slots[i]? = some (some s) → d.pairs[s.key.toNat]? = some (left, s.right)

theorem Owns.slot {d : Draft} {left : UInt16} {block : LeftBlock} (h : Owns d left block)
    (hslots : d.slots.size < 2 ^ 32) (right : UInt16) :
    block.offset.toNat ≤ (block.offset + SlotTable.slotOf block.shift block.mask right).toNat ∧
      (block.offset + SlotTable.slotOf block.shift block.mask right).toNat
        ≤ block.offset.toNat + block.mask.toNat := by
  have hle := SlotTable.slotOf_le block.shift block.mask right
  have hin := h.inside
  rw [UInt32.toNat_add, Nat.mod_eq_of_lt (by omega)]
  omega

/-- A write outside the slots of a left child, and a further pair, change nothing for it. -/
theorem Owns.enter_other {d : Draft} {left left' : UInt16} {block block' : LeftBlock}
    (h : Owns d left block) (right : UInt16)
    (hapart : block.offset.toNat + block.mask.toNat
      < (block'.offset + SlotTable.slotOf block'.shift block'.mask right).toNat) :
    Owns (Draft.enter block' left' d right) left block := by
  refine ⟨by simpa [Draft.enter] using h.inside, fun i hlo hhi s hs => ?_⟩
  simp only [Draft.enter] at hs ⊢
  rw [Array.getElem?_setIfInBounds_ne (by omega)] at hs
  have hkeyed := h.keyed i hlo hhi s hs
  rw [Array.getElem?_push, if_neg, hkeyed]
  intro heq
  have := (Array.getElem?_eq_some_iff.1 hkeyed).1
  omega

theorem Owns.enter {d : Draft} {left : UInt16} {block : LeftBlock} (h : Owns d left block)
    (hpairs : d.pairs.size < 2 ^ 32) (right : UInt16) :
    Owns (Draft.enter block left d right) left block := by
  refine ⟨by simpa [Draft.enter] using h.inside, fun i hlo hhi s hs => ?_⟩
  simp only [Draft.enter] at hs ⊢
  rw [Array.getElem?_setIfInBounds] at hs
  split_ifs at hs with heq hin
  · obtain rfl := Option.some.inj (Option.some.inj hs)
    have hkey : (UInt32.ofNat d.pairs.size).toNat = d.pairs.size := Nat.mod_eq_of_lt hpairs
    dsimp only
    rw [hkey, Array.getElem?_push, if_pos rfl]
  · have hkeyed := h.keyed i hlo hhi s hs
    rw [Array.getElem?_push, if_neg, hkeyed]
    intro heq'
    have := (Array.getElem?_eq_some_iff.1 hkeyed).1
    omega

/-- The tables of the left children met so far, one after the other. -/
structure Sound (d : Draft) (lefts : List UInt16) : Prop where
  blocks : d.blocks.size = lefts.length
  slots : d.slots.size ≤ lefts.length * 65536
  owns : ∀ (j : Nat) left block, lefts[j]? = some left → d.blocks[j]? = some block →
    Owns d left block
  apart : ∀ (j k : Nat) block block', j < k → d.blocks[j]? = some block →
    d.blocks[k]? = some block' → block.offset.toNat + block.mask.toNat < block'.offset.toNat

theorem Sound.empty : Sound ⟨#[], #[], #[], #[]⟩ [] := by
  constructor <;> simp

theorem Sound.enter {d : Draft} {lefts : List UInt16} {left : UInt16} {block : LeftBlock}
    (h : Sound d (lefts ++ [left])) (hblock : d.blocks[lefts.length]? = some block)
    (hslots : d.slots.size < 2 ^ 32) (hpairs : d.pairs.size < 2 ^ 32) (right : UInt16) :
    Sound (Draft.enter block left d right) (lefts ++ [left]) := by
  have howns := h.owns lefts.length left block (by simp) hblock
  have hslot := howns.slot hslots right
  refine ⟨h.blocks, by simpa [Draft.enter] using h.slots, fun j left' block' hl hb => ?_, h.apart⟩
  have hj : j < lefts.length + 1 := by
    have := (List.getElem?_eq_some_iff.1 hl).1
    simpa using this
  rcases Nat.lt_or_ge j lefts.length with hlt | hge
  · have hapart := h.apart j lefts.length block' block hlt hb hblock
    exact (h.owns j left' block' hl hb).enter_other right (by omega)
  · obtain rfl : j = lefts.length := by omega
    have hl' : left = left' := by simpa using hl
    have hb' : block = block' := by
      change d.blocks[lefts.length]? = some block' at hb
      rw [hblock] at hb
      exact Option.some.inj hb
    subst hl' hb'
    exact howns.enter hpairs right

theorem Sound.enterAll {lefts : List UInt16} {left : UInt16} {block : LeftBlock}
    (rights : List UInt16) {d : Draft} (h : Sound d (lefts ++ [left]))
    (hblock : d.blocks[lefts.length]? = some block) (hslots : d.slots.size < 2 ^ 32)
    (hpairs : d.pairs.size + rights.length < 2 ^ 32) :
    Sound (rights.foldl (Draft.enter block left) d) (lefts ++ [left]) ∧
      (rights.foldl (Draft.enter block left) d).pairs.size = d.pairs.size + rights.length := by
  induction rights generalizing d with
  | nil => exact ⟨h, rfl⟩
  | cons right rights ih =>
    rw [List.length_cons] at hpairs
    have hsize : (Draft.enter block left d right).pairs.size = d.pairs.size + 1 := by
      simp [Draft.enter]
    obtain ⟨hsound, hcount⟩ := ih (h.enter hblock hslots (by omega) right) hblock
      (by simpa [Draft.enter] using hslots) (by omega)
    refine ⟨hsound, ?_⟩
    rw [List.foldl_cons, hcount, List.length_cons]
    omega

/-- The next table starts behind all others, and none of its slots is taken. -/
theorem Sound.addTable {d : Draft} {lefts : List UInt16} (h : Sound d lefts) (left : UInt16)
    (hlefts : lefts.length < 65535) (marks : Array Bool) (shift : UInt32) {mask : UInt32}
    (hmask : mask.toNat ≤ 65535) :
    Sound { d with
      blocks := d.blocks.push ⟨shift, mask, UInt32.ofNat d.slots.size⟩
      slots := d.slots ++ Array.replicate (mask.toNat + 1) none
      marks := marks } (lefts ++ [left]) := by
  have hslots := h.slots
  have hoffset : (UInt32.ofNat d.slots.size).toNat = d.slots.size := by
    apply Nat.mod_eq_of_lt
    omega
  have hold (i : Nat) (hi : i < d.slots.size) :
      (d.slots ++ Array.replicate (mask.toNat + 1) none)[i]? = d.slots[i]? :=
    Array.getElem?_append_left hi
  refine ⟨by simp [h.blocks], ?_, fun j left' block hl hb => ?_,
    fun j k block block' hjk hb hb' => ?_⟩
  · rw [Array.size_append, Array.size_replicate, List.length_append, List.length_singleton]
    omega
  · dsimp only at hb
    rw [Array.getElem?_push] at hb
    split_ifs at hb with hj
    · obtain rfl := Option.some.inj hb
      refine ⟨by simp [hoffset], fun i hlo hhi s hs => ?_⟩
      rw [hoffset] at hlo hhi
      dsimp only at hs hhi
      rw [Array.getElem?_append_right hlo, Array.getElem?_replicate, if_pos (by omega)] at hs
      cases hs
    · have hj' : j < lefts.length := by
        have := (Array.getElem?_eq_some_iff.1 hb).1
        rwa [h.blocks] at this
      rw [List.getElem?_append_left hj'] at hl
      have howns := h.owns j left' block hl hb
      refine ⟨?_, fun i hlo hhi s hs => ?_⟩
      · have := howns.inside
        rw [Array.size_append]
        omega
      · have := howns.inside
        dsimp only at hs
        rw [hold i (by omega)] at hs
        exact howns.keyed i hlo hhi s hs
  · dsimp only at hb hb'
    rw [Array.getElem?_push] at hb hb'
    have hk : k ≤ d.blocks.size := by
      split_ifs at hb' with hk
      · omega
      · have := (Array.getElem?_eq_some_iff.1 hb').1
        omega
    rw [if_neg (by omega)] at hb
    have hj' : j < lefts.length := by
      rw [← h.blocks]
      exact (Array.getElem?_eq_some_iff.1 hb).1
    split_ifs at hb' with hk'
    · obtain rfl := Option.some.inj hb'
      have howns := h.owns j lefts[j] block (List.getElem?_eq_getElem hj') hb
      rw [hoffset]
      exact howns.inside
    · exact h.apart j k block block' hjk hb hb'

theorem Sound.addLeft {d : Draft} {lefts : List UInt16} (h : Sound d lefts)
    (hpairs : d.pairs.size ≤ lefts.length * 65536) (hlefts : lefts.length < 65535)
    (rightsOf : UInt16 → List UInt16) (left : UInt16) :
    Sound (Draft.addLeft rightsOf d left) (lefts ++ [left]) ∧
      (Draft.addLeft rightsOf d left).pairs.size ≤ (lefts.length + 1) * 65536 := by
  have hmask := SlotTable.smallest_mask (nodup_rights (rightsOf left)) d.marks
  have hlength := length_rights_le (rightsOf left)
  unfold Draft.addLeft
  dsimp only
  set rights := SortedSearch.sortedDistinct (rightsOf left) with hrights
  generalize SlotTable.smallest rights d.marks = table at hmask ⊢
  obtain ⟨⟨shift, mask⟩, marks⟩ := table
  dsimp only at hmask ⊢
  have htable := h.addTable left hlefts marks shift hmask
  have hslots := htable.slots
  rw [List.length_append, List.length_singleton] at hslots
  have hblock : (d.blocks.push ⟨shift, mask, UInt32.ofNat d.slots.size⟩)[lefts.length]? =
      some ⟨shift, mask, UInt32.ofNat d.slots.size⟩ := by
    rw [Array.getElem?_push, if_pos h.blocks.symm]
  obtain ⟨hsound, hcount⟩ := htable.enterAll rights hblock (by omega)
    (by dsimp only; omega)
  exact ⟨hsound, by rw [hcount]; dsimp only; omega⟩

/-- What holds of a new hash, and goes on to hold when the table of a further left child is added,
holds of the hash of all of them. -/
theorem addLefts_induction {rightsOf : UInt16 → List UInt16} {motive : Draft → List UInt16 → Prop}
    (empty : motive ⟨#[], #[], #[], #[]⟩ [])
    (addLeft : ∀ d pre left, Sound d pre → d.pairs.size ≤ pre.length * 65536 →
      pre.length < 65535 → left ∉ pre → motive d pre →
        motive (Draft.addLeft rightsOf d left) (pre ++ [left]))
    {lefts : List UInt16} (hlefts : lefts.length ≤ 65535) (hnodup : lefts.Nodup) :
    motive (lefts.foldl (Draft.addLeft rightsOf) ⟨#[], #[], #[], #[]⟩) lefts := by
  have hfold (rest pre : List UInt16) (d : Draft) (hsound : Sound d pre)
      (hpairs : d.pairs.size ≤ pre.length * 65536) (hlength : (pre ++ rest).length ≤ 65535)
      (hnodup : (pre ++ rest).Nodup) (h : motive d pre) :
      motive (rest.foldl (Draft.addLeft rightsOf) d) (pre ++ rest) := by
    induction rest generalizing pre d with
    | nil => simpa using h
    | cons left rest ih =>
      have hnew : left ∉ pre := fun hmem =>
        (List.nodup_append.1 hnodup).2.2 left hmem left List.mem_cons_self rfl
      rw [List.append_cons] at hlength hnodup ⊢
      have hpre : pre.length < 65535 := by
        rw [List.length_append, List.length_append, List.length_singleton] at hlength
        omega
      obtain ⟨hsound', hcount⟩ := hsound.addLeft hpairs hpre rightsOf left
      exact ih _ _ hsound' (by simpa using hcount) hlength hnodup
        (addLeft d pre left hsound hpairs hpre hnew h)
  exact hfold lefts [] _ Sound.empty (by simp) hlefts hnodup empty

end PairHash

namespace Interval

theorem size_le (r : Interval) : r.size ≤ 65535 := by
  have := r.stop.toNat_lt
  unfold size
  omega

theorem length_toList (r : Interval) : r.toList.length = r.size := by
  simp [toList]

theorem length_toList_le (r : Interval) : r.toList.length ≤ 65535 := by
  rw [length_toList]
  exact r.size_le

theorem pairwise_toList (r : Interval) : r.toList.Pairwise fun m n => m < n := by
  have hstop := r.stop.toNat_lt
  have hsize : r.size = r.stop.toNat - r.start.toNat := rfl
  unfold toList
  rw [List.pairwise_map]
  have hrange : (List.range' r.start.toNat r.size).Pairwise fun m n => m < n :=
    List.pairwise_lt_range'
  refine hrange.imp_of_mem fun {m n} hm hn hlt => ?_
  rw [List.mem_range'_1] at hm hn
  have hm' : (UInt16.ofNat m).toNat = m := Nat.mod_eq_of_lt (by omega)
  have hn' : (UInt16.ofNat n).toNat = n := Nat.mod_eq_of_lt (by omega)
  rw [UInt16.lt_iff_toNat_lt, hm', hn']
  exact hlt

theorem nodup_toList (r : Interval) : r.toList.Nodup :=
  r.pairwise_toList.imp fun h => UInt16.ne_of_lt h

/-- A number of a run stands at its distance from the first one. -/
theorem getElem?_toList {r : Interval} {n : UInt16} (h : r.contains n = true) :
    r.toList[(n - r.start).toNat]? = some n := by
  simp only [contains, Bool.and_eq_true, decide_eq_true_iff, UInt16.le_iff_toNat_le,
    UInt16.lt_iff_toNat_lt] at h
  have hsub : (n - r.start).toNat = n.toNat - r.start.toNat :=
    UInt16.toNat_sub_of_le _ _ (UInt16.le_iff_toNat_le.2 h.1)
  have hlt : n.toNat - r.start.toNat < r.size := by
    unfold size
    omega
  rw [hsub, toList, List.getElem?_map, List.getElem?_range' hlt, Option.map_some, Nat.one_mul,
    Nat.add_sub_cancel' h.1]
  exact congrArg some UInt16.ofNat_toNat

end Interval

namespace PairHash

/-- The tables of a hash are sound. -/
theorem sound_build (lefts : Interval) (pairs : List (UInt16 × UInt16)) :
    let found := siblings pairs
    Sound (lefts.toList.foldl (Draft.addLeft fun left => found.getD left []) ⟨#[], #[], #[], #[]⟩)
      lefts.toList :=
  addLefts_induction Sound.empty
    (fun _ _ left _ hpairs hpre _ hsound => (hsound.addLeft hpairs hpre _ left).1)
    lefts.length_toList_le lefts.nodup_toList

variable {lefts : Interval} {pairs : List (UInt16 × UInt16)} {left right : UInt16}
  {block : LeftBlock} {key : UInt32}

theorem size_blocks (lefts : Interval) (pairs : List (UInt16 × UInt16)) :
    (build lefts pairs).blocks.size = lefts.size :=
  (sound_build lefts pairs).blocks.trans lefts.length_toList

theorem place_lt_size (pairs : List (UInt16 × UInt16)) (hleft : lefts.contains left = true) :
    (left - lefts.start).toNat < (build lefts pairs).blocks.size := by
  rw [size_blocks, ← Interval.length_toList]
  exact (List.getElem?_eq_some_iff.1 (Interval.getElem?_toList hleft)).1

theorem size_slots_lt (lefts : Interval) (pairs : List (UInt16 × UInt16)) :
    (build lefts pairs).slots.size < 2 ^ 32 := by
  have hslots : (build lefts pairs).slots.size ≤ lefts.toList.length * 65536 :=
    (sound_build lefts pairs).slots
  have hlength := lefts.length_toList_le
  omega

theorem leftBlock?_eq_some (hblock : (build lefts pairs).leftBlock? left = some block) :
    lefts.contains left = true ∧
      (build lefts pairs).blocks[(left - lefts.start).toNat]? = some block := by
  unfold leftBlock? at hblock
  split_ifs at hblock with hleft
  exact ⟨hleft, hblock⟩

/-- A right child has a key if it is the one in its slot. -/
theorem packInto_eq_some_iff {h : PairHash} : h.packInto block right = some key ↔
    h.slots[(block.offset + SlotTable.slotOf block.shift block.mask right).toNat]? =
      some (some ⟨right, key⟩) := by
  unfold packInto
  dsimp only
  rw [Array.getD_eq_getD_getElem?]
  cases h.slots[(block.offset + SlotTable.slotOf block.shift block.mask right).toNat]? with
  | none => simp
  | some o =>
    cases o with
    | none => simp
    | some s =>
      obtain ⟨other, found⟩ := s
      simp

/-- The pair of a key is the pair it was packed from. -/
theorem unpack_of_pack (h : (build lefts pairs).pack left right = some key) :
    (build lefts pairs).unpack key = some (left, right) ∧
      key.toNat < (build lefts pairs).size := by
  obtain ⟨block, hblock, hkey⟩ := Option.bind_eq_some_iff.1 h
  obtain ⟨hleft, hat⟩ := leftBlock?_eq_some hblock
  have howns := (sound_build lefts pairs).owns _ left block (Interval.getElem?_toList hleft) hat
  have hslot := howns.slot (size_slots_lt lefts pairs) right
  have hunpack := howns.keyed _ hslot.1 hslot.2 _ (packInto_eq_some_iff.1 hkey)
  exact ⟨hunpack, (Array.getElem?_eq_some_iff.1 hunpack).1⟩

end PairHash

namespace Packing

variable {kind : PackingKind} {bounds : ClassBounds} {pairs : List (UInt16 × UInt16)} {p : Packing}

/-- What a packing of each kind is built of. -/
theorem build_cases (hp : build kind bounds pairs = .ok p) :
    (kind = .shift ∧ ∃ s, ShiftPacking.build bounds = .ok s ∧ p = shift s) ∨
      (kind = .bitVector ∧ ∃ b, BitVectorPacking.build bounds pairs = .ok b ∧ p = bitVector b) ∨
      (kind = .perfectHash ∧ p = perfectHash (PairHash.build bounds.leftChildren pairs)) := by
  cases kind with
  | shift =>
    cases hs : ShiftPacking.build bounds with
    | error e => rw [build, hs] at hp; cases hp
    | ok s =>
      rw [build, hs] at hp
      exact Or.inl ⟨rfl, s, rfl, (Except.ok.inj hp).symm⟩
  | bitVector =>
    cases hb : BitVectorPacking.build bounds pairs with
    | error e => rw [build, hb] at hp; cases hp
    | ok b =>
      rw [build, hb] at hp
      exact Or.inr (Or.inl ⟨rfl, b, rfl, (Except.ok.inj hp).symm⟩)
  | perfectHash => exact Or.inr (Or.inr ⟨rfl, (Except.ok.inj hp).symm⟩)

/-- Whatever the strategy, the pair of a key is the pair it was packed from. -/
theorem unpack_of_pack (hp : build kind bounds pairs = .ok p) {left right : UInt16} {key : UInt32}
    (h : p.pack left right = some key) :
    p.unpack key = some (left, right) ∧ key.toNat < p.size := by
  obtain ⟨-, s, hs, rfl⟩ | ⟨-, b, hb, rfl⟩ | ⟨-, rfl⟩ := build_cases hp
  · exact (ShiftPacking.build_fits hs).unpack_of_pack h
  · exact BitVectorPacking.unpack_of_pack (BitVectorPacking.build_fits hb) h
  · exact PairHash.unpack_of_pack h

end Packing

end ChartParsing

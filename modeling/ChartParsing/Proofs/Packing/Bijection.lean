import ChartParsing.Proofs.Packing.Order
import Mathlib.Algebra.BigOperators.Group.List.Basic
import Mathlib.Algebra.Ring.Nat
import Mathlib.Data.List.Dedup

/-!
# Keys and pairs

Whatever the strategy, a packing is a bijection between the pairs it accepts and its valid
keys, and it keeps the order of the pairs. Which pairs are accepted depends on the strategy.
None of the numbers a key is computed from wraps at its width, and no slot lies outside the
table it is looked for in: a shifted key fills its place value by value, and the tables of a
hash lie one after the other without a gap.
-/

namespace ChartParsing

/-- The pairs that a packing of a kind gives a key. -/
def PackingKind.Accepts (kind : PackingKind) (bounds : ClassBounds)
    (pairs : List (UInt16 × UInt16)) (left right : UInt16) : Prop :=
  match kind with
  | .shift => bounds.leftChildren.contains left = true ∧ bounds.rightChildren.contains right = true
  | .bitVector => (left, right) ∈ pairs ∧ bounds.leftChildren.contains left = true ∧
      bounds.rightChildren.contains right = true
  | .perfectHash => (left, right) ∈ pairs ∧ bounds.leftChildren.contains left = true

/-! ## Shifted keys -/

namespace ShiftPacking

variable {p : ShiftPacking} {left right : UInt16} {key : UInt32}

/-- No number on the way to a key of a shift packing wraps. -/
structure Unwrapped (p : ShiftPacking) : Prop where
  shift_le : p.shift ≤ 16
  mask : p.mask.toNat = 2 ^ p.shift - 1
  size : p.size = p.lefts.stop.toNat * 2 ^ p.shift
  size_le : p.size ≤ maxKeyCount
  offset : ∀ left block, p.leftBlock? left = some block →
    block.shift.toNat = p.shift ∧ block.offset.toNat = left.toNat * 2 ^ p.shift
  key : ∀ left right key, p.pack left right = some key →
    key.toNat = left.toNat * 2 ^ p.shift + right.toNat ∧ right.toNat < 2 ^ p.shift

theorem pack_isSome_iff : (∃ key, p.pack left right = some key) ↔
    p.lefts.contains left = true ∧ p.rights.contains right = true := by
  constructor
  · rintro ⟨key, hkey⟩
    obtain ⟨hleft, hright, -⟩ := pack_eq_some hkey
    exact ⟨hleft, hright⟩
  · rintro ⟨hleft, hright⟩
    simp only [pack, leftBlock?, packInto, hleft, hright, if_true]
    exact ⟨_, rfl⟩

theorem classes_of_build {bounds : ClassBounds} (h : build bounds = .ok p) :
    p.lefts = bounds.leftChildren ∧ p.rights = bounds.rightChildren := by
  unfold build at h
  dsimp only at h
  split_ifs at h
  obtain rfl := Except.ok.inj h
  exact ⟨rfl, rfl⟩

/-- What a key below the size stands for, as the two parts of a number. -/
theorem Fits.toNat_unpack (hp : p.Fits) (h : p.unpack key = some (left, right)) :
    p.lefts.contains left = true ∧ p.rights.contains right = true ∧
      left.toNat = key.toNat / 2 ^ p.shift ∧ right.toNat = key.toNat % 2 ^ p.shift := by
  unfold unpack at h
  dsimp only at h
  split_ifs at h with hsize hclasses
  rw [Bool.and_eq_true] at hclasses
  obtain ⟨rfl, rfl⟩ := Prod.mk.inj (Option.some.inj h)
  have hpos : 0 < 2 ^ p.shift := Nat.two_pow_pos _
  have hpow : 2 ^ p.shift ≤ 2 ^ 16 := Nat.pow_le_pow_right (by omega) hp.shift_le
  have hmod := Nat.mod_lt key.toNat hpos
  have hdiv : key.toNat / 2 ^ p.shift < p.lefts.stop.toNat := by
    rw [Nat.div_lt_iff_lt_mul hpos, ← hp.size]
    exact hsize
  have hstop := p.lefts.stop.toNat_lt
  refine ⟨hclasses.1, hclasses.2, ?_, ?_⟩
  · rw [UInt32.toNat_toUInt16, UInt32.toNat_shiftRight, hp.toNat_shift,
      Nat.shiftRight_eq_div_pow]
    exact Nat.mod_eq_of_lt (by omega)
  · rw [UInt32.toNat_toUInt16, UInt32.toNat_and, hp.mask, Nat.and_two_pow_sub_one_eq_mod]
    exact Nat.mod_eq_of_lt (by omega)

/-- A pair read off a key is packed into that key. -/
theorem Fits.pack_of_unpack (hp : p.Fits) (h : p.unpack key = some (left, right)) :
    p.pack left right = some key := by
  obtain ⟨hleft, hright, hdiv, hmod⟩ := hp.toNat_unpack h
  obtain ⟨key', hkey'⟩ := pack_isSome_iff.2 ⟨hleft, hright⟩
  have hsame : key' = key := by
    apply UInt32.toNat_inj.1
    rw [hp.toNat_key hkey', hdiv, hmod, Nat.div_add_mod']
  rw [hkey', hsame]

theorem Fits.pack_eq_some_iff (hp : p.Fits) :
    p.pack left right = some key ↔ p.unpack key = some (left, right) :=
  ⟨fun h => (hp.unpack_of_pack h).1, hp.pack_of_unpack⟩

theorem Fits.unwrapped (hp : p.Fits) : p.Unwrapped where
  shift_le := hp.shift_le
  mask := hp.mask
  size := hp.size
  size_le := hp.size_le
  offset := by
    intro left block hblock
    unfold leftBlock? at hblock
    split_ifs at hblock with hleft
    obtain rfl := Option.some.inj hblock
    have hshift := hp.shift_le
    have hstop := Fits.lt_stop hleft
    have hlt : left.toNat * 2 ^ p.shift < p.size := by
      rw [hp.size]
      exact Nat.mul_lt_mul_of_pos_right hstop (Nat.two_pow_pos _)
    have hsize := hp.size_le
    refine ⟨Nat.mod_eq_of_lt (by omega), ?_⟩
    rw [UInt32.toNat_shiftLeft, hp.toNat_shift, UInt16.toNat_toUInt32, Nat.shiftLeft_eq]
    exact Nat.mod_eq_of_lt (by omega)
  key := fun _ right _ hkey => ⟨hp.toNat_key hkey, hp.rights_lt right (pack_eq_some hkey).2.1⟩

end ShiftPacking

/-! ## Keys of a bit vector -/

namespace BitVectorPacking

variable {bounds : ClassBounds} {pairs : List (UInt16 × UInt16)} {p : BitVectorPacking}
  {left right : UInt16} {key : UInt32}

/-- A pair has the key that the shift packing gives it, if that key is valid. -/
theorem pack_eq_some_iff_base :
    ((p.leftBlock? left).bind fun block => p.packInto block right) = some key ↔
      p.base.pack left right = some key ∧ p.isValid key = true := by
  refine ⟨base_of_pack, fun ⟨hbase, hvalid⟩ => ?_⟩
  obtain ⟨block, hblock, hinto⟩ := Option.bind_eq_some_iff.1 hbase
  exact Option.bind_eq_some_iff.2 ⟨block, hblock, Option.filter_eq_some_iff.2 ⟨hinto, hvalid⟩⟩

theorem pack_eq_some_iff (hp : build bounds pairs = .ok p) :
    ((p.leftBlock? left).bind fun block => p.packInto block right) = some key ↔
      p.unpack key = some (left, right) := by
  rw [pack_eq_some_iff_base, (build_fits hp).pack_eq_some_iff, unpack]
  split_ifs with hvalid <;> simp [hvalid]

/-- The valid keys are those that stand for a pair. -/
theorem isValid_eq (hp : build bounds pairs = .ok p) :
    p.isValid key = (p.unpack key).isSome := by
  cases hvalid : p.isValid key with
  | false => simp [unpack, hvalid]
  | true =>
    obtain ⟨pair, -, hpack⟩ := (isValid_iff hp).1 hvalid
    rw [unpack, if_pos hvalid, ((build_fits hp).unpack_of_pack hpack).1]
    rfl

theorem exists_key_iff (hp : build bounds pairs = .ok p) :
    (∃ key, ((p.leftBlock? left).bind fun block => p.packInto block right) = some key) ↔
      (left, right) ∈ pairs ∧ bounds.leftChildren.contains left = true ∧
        bounds.rightChildren.contains right = true := by
  have hfits := build_fits hp
  obtain ⟨hlefts, hrights⟩ := ShiftPacking.classes_of_build (build_ok hp).1
  rw [← hlefts, ← hrights, ← ShiftPacking.pack_isSome_iff]
  simp only [pack_eq_some_iff_base]
  constructor
  · rintro ⟨key, hbase, hvalid⟩
    obtain ⟨pair, hpair, hpack⟩ := (isValid_iff hp).1 hvalid
    -- two pairs with one key are the same pair
    have hsame := (hfits.unpack_of_pack hbase).1.symm.trans (hfits.unpack_of_pack hpack).1
    rw [Option.some.inj hsame]
    exact ⟨hpair, key, hbase⟩
  · rintro ⟨hmem, key, hkey⟩
    exact ⟨key, hkey, (isValid_iff hp).2 ⟨(left, right), hmem, hkey⟩⟩

end BitVectorPacking

/-! ## Keys of a hash -/

/-- The number of slots of a table. -/
def LeftBlock.width (block : LeftBlock) : Nat := block.mask.toNat + 1

namespace PairHash

/-- The tables fill the slots one after the other. -/
structure Tiled (blocks : Array LeftBlock) (slotCount : Nat) : Prop where
  offset : ∀ (j : Nat) block, blocks[j]? = some block →
    block.offset.toNat = ((blocks.toList.take j).map LeftBlock.width).sum
  slots : slotCount = (blocks.toList.map LeftBlock.width).sum
  shift_le : ∀ block ∈ blocks, block.shift.toNat ≤ 16
  mask_le : ∀ block ∈ blocks, block.mask.toNat ≤ 65535

theorem Tiled.empty : Tiled #[] 0 := by
  constructor <;> simp

theorem Tiled.push {blocks : Array LeftBlock} {slotCount : Nat} (h : Tiled blocks slotCount)
    {block : LeftBlock} (hoffset : block.offset.toNat = slotCount)
    (hshift : block.shift.toNat ≤ 16) (hmask : block.mask.toNat ≤ 65535) :
    Tiled (blocks.push block) (slotCount + block.width) := by
  refine ⟨fun j other hj => ?_, ?_, fun other hmem => ?_, fun other hmem => ?_⟩
  · rw [Array.toList_push]
    rw [Array.getElem?_push] at hj
    split_ifs at hj with hlast
    · obtain rfl := Option.some.inj hj
      rw [hlast, hoffset, h.slots, List.take_left' (by simp)]
    · have hlt : j < blocks.size := (Array.getElem?_eq_some_iff.1 hj).1
      rw [List.take_append_of_le_length (by simpa using Nat.le_of_lt hlt)]
      exact h.offset j other hj
  · rw [Array.toList_push, List.map_append, List.sum_append, ← h.slots]
    simp
  · rcases Array.mem_push.1 hmem with hmem | rfl
    · exact h.shift_le other hmem
    · exact hshift
  · rcases Array.mem_push.1 hmem with hmem | rfl
    · exact h.mask_le other hmem
    · exact hmask

theorem size_slots_enterAll (block : LeftBlock) (left : UInt16) (rights : List UInt16)
    (d : Draft) : (rights.foldl (Draft.enter block left) d).slots.size = d.slots.size := by
  induction rights generalizing d with
  | nil => rfl
  | cons right rights ih => rw [List.foldl_cons, ih, Draft.enter, Array.size_setIfInBounds]

theorem Tiled.addLeft {rightsOf : UInt16 → List UInt16} {d : Draft}
    (h : Tiled d.blocks d.slots.size) (hslots : d.slots.size < 2 ^ 32) (left : UInt16) :
    Tiled (Draft.addLeft rightsOf d left).blocks (Draft.addLeft rightsOf d left).slots.size := by
  have hmask := SlotTable.smallest_mask (nodup_rights (rightsOf left)) d.marks
  have hshift := SlotTable.smallest_shift (nodup_rights (rightsOf left)) d.marks
  unfold Draft.addLeft
  dsimp only
  generalize SlotTable.smallest _ d.marks = table at hmask hshift ⊢
  obtain ⟨⟨shift, mask⟩, marks⟩ := table
  rw [blocks_enterAll, size_slots_enterAll, Array.size_append, Array.size_replicate]
  exact h.push (Nat.mod_eq_of_lt hslots) hshift hmask

theorem tiled_build (lefts : Interval) (pairs : List (UInt16 × UInt16)) :
    Tiled (build lefts pairs).blocks (build lefts pairs).slots.size := by
  unfold build
  exact addLefts_induction (motive := fun d _ => Tiled d.blocks d.slots.size) Tiled.empty
    (fun _ _ left hsound _ hpre _ htiled =>
      htiled.addLeft (by have := hsound.slots; omega) left)
    lefts.length_toList_le lefts.nodup_toList

/-- No number on the way to a key of a hash wraps, and every slot is one of its table. -/
structure Unwrapped (h : PairHash) : Prop where
  tiled : Tiled h.blocks h.slots.size
  slots_lt : h.slots.size < 2 ^ 32
  pairs_lt : h.pairs.size < 2 ^ 32
  place : ∀ left, h.lefts.contains left = true → (left - h.lefts.start).toNat < h.blocks.size
  slot : ∀ left block right, h.leftBlock? left = some block →
    (block.offset + SlotTable.slotOf block.shift block.mask right).toNat =
        block.offset.toNat + (SlotTable.slotOf block.shift block.mask right).toNat ∧
      (SlotTable.slotOf block.shift block.mask right).toNat < block.width ∧
      block.offset.toNat + block.width ≤ h.slots.size
  key : ∀ (k : Nat) left right, h.pairs[k]? = some (left, right) →
    ∃ key : UInt32, key.toNat = k ∧ h.pack left right = some key

variable {lefts : Interval} {pairs : List (UInt16 × UInt16)}

theorem unwrapped_build (lefts : Interval) (pairs : List (UInt16 × UInt16)) :
    (build lefts pairs).Unwrapped := by
  have hslots := size_slots_lt lefts pairs
  have hpairs := size_lt lefts pairs
  refine ⟨tiled_build lefts pairs, hslots, hpairs, fun left => place_lt_size pairs, ?_, ?_⟩
  · intro left block right hblock
    obtain ⟨hleft, hat⟩ := leftBlock?_eq_some hblock
    have howns := (sound_build lefts pairs).owns _ left block (Interval.getElem?_toList hleft) hat
    have hle := SlotTable.slotOf_le block.shift block.mask right
    have hin : block.offset.toNat + block.mask.toNat < (build lefts pairs).slots.size :=
      howns.inside
    refine ⟨?_, Nat.lt_succ_of_le hle, hin⟩
    rw [UInt32.toNat_add]
    exact Nat.mod_eq_of_lt (by omega)
  · intro k left right hk
    have hlt : k < 2 ^ 32 := Nat.lt_trans (Array.getElem?_eq_some_iff.1 hk).1 hpairs
    have hnat : (UInt32.ofNat k).toNat = k := Nat.mod_eq_of_lt hlt
    refine ⟨UInt32.ofNat k, hnat, pack_eq_some_iff.2 ?_⟩
    rw [unpack, hnat]
    exact hk

/-- There are as many keys as there are different pairs with a left child in range. -/
theorem size_build (lefts : Interval) (pairs : List (UInt16 × UInt16)) :
    (build lefts pairs).size = (pairs.filter fun pair => lefts.contains pair.1).dedup.length := by
  have hnodup : (build lefts pairs).pairs.toList.Nodup :=
    (sorted_pairs lefts pairs).imp fun hlt heq => by
      rw [heq] at hlt
      exact Nat.lt_irrefl _ hlt
  have hperm : (build lefts pairs).pairs.toList.Perm
      (pairs.filter fun pair => lefts.contains pair.1).dedup := by
    refine (List.perm_ext_iff_of_nodup hnodup (List.nodup_dedup _)).2 fun ⟨left, right⟩ => ?_
    rw [Array.mem_toList_iff, mem_pairs, List.mem_dedup, List.mem_filter, and_comm]
  rw [size, ← Array.length_toList, hperm.length_eq]

/-- The valid keys are those that stand for a pair. -/
theorem isValid_eq (h : PairHash) (key : UInt32) :
    decide (key.toNat < h.size) = (h.unpack key).isSome := by
  rw [unpack, size]
  by_cases hlt : key.toNat < h.pairs.size <;> simp [hlt]

end PairHash

/-! ## All strategies -/

namespace Packing

/-- A packing is a bijection between accepted pairs and valid keys that keeps their order. -/
structure OrderedBijection (p : Packing) (accepts : UInt16 → UInt16 → Prop) : Prop where
  pack_iff : ∀ left right key, p.pack left right = some key ↔ p.unpack key = some (left, right)
  isValid_iff : ∀ key, p.isValid key = true ↔ (p.unpack key).isSome = true
  lt_size : ∀ key, p.isValid key = true → key.toNat < p.size
  increasing : ∀ left right left' right' key key', p.pack left right = some key →
    p.pack left' right' = some key' → left < left' ∨ (left = left' ∧ right < right') → key < key'
  accepts_iff : ∀ left right, (∃ key, p.pack left right = some key) ↔ accepts left right

/-- No number on the way to a key wraps, and every slot is one of its table. -/
def Unwrapped : Packing → Prop
  | shift p => p.Unwrapped
  | bitVector p => p.base.Unwrapped
  | perfectHash h => h.Unwrapped

variable {kind : PackingKind} {bounds : ClassBounds} {pairs : List (UInt16 × UInt16)} {p : Packing}

/-- Whatever the strategy, a pair has the key that stands for it. -/
theorem pack_eq_some_iff (hp : build kind bounds pairs = .ok p) {left right : UInt16}
    {key : UInt32} : p.pack left right = some key ↔ p.unpack key = some (left, right) := by
  obtain ⟨-, s, hs, rfl⟩ | ⟨-, b, hb, rfl⟩ | ⟨-, rfl⟩ := build_cases hp
  · exact (ShiftPacking.build_fits hs).pack_eq_some_iff
  · exact BitVectorPacking.pack_eq_some_iff hb
  · exact PairHash.pack_eq_some_iff

/-- Whatever the strategy, the valid keys are those that stand for a pair. -/
theorem isValid_eq (hp : build kind bounds pairs = .ok p) (key : UInt32) :
    p.isValid key = (p.unpack key).isSome := by
  obtain ⟨-, s, -, rfl⟩ | ⟨-, b, hb, rfl⟩ | ⟨-, rfl⟩ := build_cases hp
  · rfl
  · exact BitVectorPacking.isValid_eq hb
  · exact PairHash.isValid_eq _ key

theorem exists_key_iff (hp : build kind bounds pairs = .ok p) (left right : UInt16) :
    (∃ key, p.pack left right = some key) ↔ kind.Accepts bounds pairs left right := by
  obtain ⟨rfl, s, hs, rfl⟩ | ⟨rfl, b, hb, rfl⟩ | ⟨rfl, rfl⟩ := build_cases hp
  · obtain ⟨hlefts, hrights⟩ := ShiftPacking.classes_of_build hs
    rw [PackingKind.Accepts, ← hlefts, ← hrights]
    exact ShiftPacking.pack_isSome_iff
  · exact BitVectorPacking.exists_key_iff hb
  · exact PairHash.exists_key_iff.trans and_comm

/-- Unless the packing is one by shifting, a pair that has a key was asked for. -/
theorem mem_of_pack (hp : build kind bounds pairs = .ok p) (hkind : kind ≠ .shift)
    {left right : UInt16} {key : UInt32} (h : p.pack left right = some key) :
    (left, right) ∈ pairs := by
  have haccepts := (exists_key_iff hp left right).1 ⟨key, h⟩
  cases kind with
  | shift => exact absurd rfl hkind
  | bitVector => exact haccepts.1
  | perfectHash => exact haccepts.1

/-- Whatever the strategy, a pair that was asked for has a key, unless its classes say that one
of the two is never a child on its side. -/
theorem exists_key_of_mem (hp : build kind bounds pairs = .ok p) {left right : UInt16}
    (hmem : (left, right) ∈ pairs) (hleft : bounds.leftChildren.contains left = true)
    (hright : bounds.rightChildren.contains right = true) :
    ∃ key, p.pack left right = some key := by
  rw [exists_key_iff hp]
  cases kind with
  | shift => exact ⟨hleft, hright⟩
  | bitVector => exact ⟨hmem, hleft, hright⟩
  | perfectHash => exact ⟨hmem, hleft⟩

theorem unwrapped_of_build (hp : build kind bounds pairs = .ok p) : p.Unwrapped := by
  obtain ⟨-, s, hs, rfl⟩ | ⟨-, b, hb, rfl⟩ | ⟨-, rfl⟩ := build_cases hp
  · exact (ShiftPacking.build_fits hs).unwrapped
  · exact (BitVectorPacking.build_fits hb).unwrapped
  · exact PairHash.unwrapped_build _ _

/-- A packing is an increasing bijection from the pairs that its kind accepts to its valid keys,
which for a hash are the numbers below the count of those pairs. -/
theorem build_orderedBijection (hp : build kind bounds pairs = .ok p) :
    p.OrderedBijection (kind.Accepts bounds pairs) ∧ p.Unwrapped ∧
      (kind = .perfectHash →
        p.size = (pairs.filter fun pair => bounds.leftChildren.contains pair.1).dedup.length ∧
          ∀ key, p.isValid key = true ↔ key.toNat < p.size) := by
  refine ⟨⟨fun _ _ _ => pack_eq_some_iff hp, fun key => ?_, fun key hvalid => ?_, ?_,
    exists_key_iff hp⟩, unwrapped_of_build hp, ?_⟩
  · rw [isValid_eq hp]
  · rw [isValid_eq hp, Option.isSome_iff_exists] at hvalid
    obtain ⟨⟨left, right⟩, hunpack⟩ := hvalid
    exact (unpack_of_pack hp ((pack_eq_some_iff hp).2 hunpack)).2
  · intro left right left' right' key key' hkey hkey' hlt
    exact key_lt hp hkey hkey' (pairRank_lt.2 hlt)
  · rintro rfl
    obtain rfl := Except.ok.inj hp
    exact ⟨PairHash.size_build _ _, fun key => decide_eq_true_iff⟩

/-- Left children from 3 to 7 and right children below 6 have shifted keys with three low bits. A
hash of four pairs, one of them listed twice and one of a left child out of range, has two keys. -/
theorem build_orderedBijection_threeBits :
    let bounds := ClassBounds.ofSizes fun c => [3, 2, 1, 2, 1].getD c.rank 0
    let pairs : List (UInt16 × UInt16) := [(3, 4), (3, 0), (3, 4), (8, 1)]
    (shift ⟨3, 7, ⟨3, 8⟩, ⟨0, 6⟩, 64⟩).OrderedBijection (PackingKind.shift.Accepts bounds pairs) ∧
      (perfectHash (PairHash.build bounds.leftChildren pairs)).size = 2 :=
  ⟨(@build_orderedBijection .shift _ [(3, 4), (3, 0), (3, 4), (8, 1)] _ (by decide)).1,
    ((@build_orderedBijection .perfectHash _ _ _ rfl).2.2 rfl).1⟩

end Packing
end ChartParsing

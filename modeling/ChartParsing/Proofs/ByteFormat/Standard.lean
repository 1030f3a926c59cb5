import ChartParsing.ByteFormat.Standard
import ChartParsing.Proofs.ByteFormat.Basic
import Mathlib

/-!
# The standard byte format is exact

A number is determined by its bytes and its mark tells how many there are; a sequence is read
element by element, as many as its length says. So every value is restored, and what is cut off
is missed: by the mark that promised it or by the length that counted it.
-/

namespace ChartParsing.ByteFormat.Standard

/-! ## Numbers -/

theorem length_littleEndian (width n : Nat) : (littleEndian width n).length = width := by
  induction width generalizing n with
  | zero => rfl
  | succ width ih => rw [littleEndian, List.length_cons, ih]

theorem ofLittleEndian_littleEndian (width n : Nat) :
    ofLittleEndian (littleEndian width n) = n % 256 ^ width := by
  induction width generalizing n with
  | zero => rw [littleEndian, ofLittleEndian, Nat.pow_zero, Nat.mod_one]
  | succ width ih =>
    have hbyte : (UInt8.ofNat n).toNat = n % 256 := rfl
    rw [littleEndian, ofLittleEndian, ih, hbyte, Nat.pow_succ', Nat.mod_mul]

theorem takeBytes_append (taken rest : List UInt8) :
    takeBytes taken.length (taken ++ rest) = .ok (taken, rest) := by
  induction taken with
  | nil => rfl
  | cons b taken ih => rw [List.length_cons, List.cons_append, takeBytes, ih, Except.map]

theorem takeBytes_of_short {bytes : List UInt8} {n : Nat} (h : bytes.length < n) :
    takeBytes n bytes = .error unexpectedEnd := by
  induction bytes generalizing n with
  | nil =>
    obtain ⟨n, rfl⟩ := Nat.exists_eq_succ_of_ne_zero (Nat.ne_of_gt h)
    rfl
  | cons b bytes ih =>
    obtain ⟨n, rfl⟩ := Nat.exists_eq_succ_of_ne_zero (Nat.ne_of_gt (Nat.zero_lt_of_lt h))
    rw [takeBytes, ih (Nat.lt_of_succ_lt_succ h), Except.map]

/-- A beginning that is not the whole is shorter. -/
theorem length_lt_of_part {α : Type} {xs ys : List α} (h : xs <+: ys) (hne : xs ≠ ys) :
    xs.length < ys.length :=
  Nat.lt_of_le_of_ne h.length_le fun hlength => hne (h.eq_of_length hlength)

theorem exact_fixed {width n : Nat} (h : n < 256 ^ width) : (fixed width).Exact n := by
  constructor
  · intro rest
    have htake := takeBytes_append (littleEndian width n) rest
    rw [length_littleEndian] at htake
    change (takeBytes width (littleEndian width n ++ rest)).map _ = _
    rw [htake, Except.map]
    dsimp only
    rw [ofLittleEndian_littleEndian, Nat.mod_eq_of_lt h]
  · intro bytes hbegin hne
    have hshort := length_lt_of_part hbegin hne
    change bytes.length < (littleEndian width n).length at hshort
    rw [length_littleEndian] at hshort
    change ∃ reason, (takeBytes width bytes).map _ = _
    exact ⟨unexpectedEnd, by rw [takeBytes_of_short hshort, Except.map]⟩

/-- A codec whose code is a mark and what another codec, which the mark selects, writes. -/
theorem exact_marked {α : Type} {c d : Codec α} {a : α} (mark : UInt8) (hd : d.Exact a)
    (hwrite : c.write a = mark :: d.write a)
    (hread : ∀ bytes, c.read (mark :: bytes) = d.read bytes)
    (hnil : ∃ reason, c.read [] = .error reason) : c.Exact a := by
  constructor
  · intro rest
    rw [hwrite, List.cons_append, hread, hd.whole]
  · intro bytes hbegin hne
    rw [hwrite] at hbegin hne
    cases bytes with
    | nil => exact hnil
    | cons b bytes =>
      obtain ⟨rfl, htail⟩ := List.cons_prefix_cons.1 hbegin
      rw [hread]
      exact hd.part bytes htail fun heq => hne (by rw [heq])

/-- A codec whose code is one byte. -/
theorem exact_singleton {α : Type} {c : Codec α} {a : α} (b : UInt8) (hwrite : c.write a = [b])
    (hread : ∀ bytes, c.read (b :: bytes) = .ok (a, bytes))
    (hnil : ∃ reason, c.read [] = .error reason) : c.Exact a := by
  constructor
  · intro rest
    rw [hwrite, List.singleton_append, hread]
  · intro bytes hbegin hne
    rw [hwrite] at hbegin hne
    cases bytes with
    | nil => exact hnil
    | cons b' bytes =>
      obtain ⟨rfl, htail⟩ := List.cons_prefix_cons.1 hbegin
      exact absurd (by rw [List.prefix_nil.1 htail]) hne

/-- A number is exact if its bytes may be as many as it needs. -/
theorem exact_number {width n : Nat} (hwidth : width = 2 ∨ width = 4 ∨ width = 8)
    (h : n < 256 ^ width) : (number width).Exact n := by
  have hnil : ∃ reason, (number width).read [] = .error reason := ⟨_, rfl⟩
  by_cases hone : n < 251
  · have hbyte : (UInt8.ofNat n).toNat = n := UInt8.toNat_ofNat_of_lt (by rw [UInt8.size]; omega)
    refine exact_singleton (UInt8.ofNat n) (by simp only [number, if_pos hone]) ?_ hnil
    intro bytes
    have hmark : UInt8.ofNat n < 251 := UInt8.lt_iff_toNat_lt.2 (by rw [hbyte]; exact hone)
    simp only [number, if_pos hmark, hbyte]
  by_cases htwo : n < 0x10000
  · refine exact_marked 251 (@exact_fixed 2 n htwo) ?_ (fun bytes => rfl) hnil
    simp only [number, if_neg hone, if_pos htwo]
    rfl
  by_cases hfour : n < 0x100000000
  · have hle : 4 ≤ width := by
      rcases hwidth with rfl | rfl | rfl
      · exact absurd h htwo
      · exact Nat.le_refl 4
      · decide
    refine exact_marked 252 (@exact_fixed 4 n hfour) ?_ (fun bytes => ?_) hnil
    · simp only [number, if_neg hone, if_neg htwo, if_pos hfour]
      rfl
    · simp only [number]
      rw [if_neg (by decide), if_neg (by decide), if_pos (by simpa using hle)]
  · have height : width = 8 := by
      rcases hwidth with rfl | rfl | rfl
      · exact absurd h htwo
      · exact absurd h hfour
      · rfl
    subst height
    refine exact_marked 253 (@exact_fixed 8 n h) ?_ (fun bytes => rfl) hnil
    simp only [number, if_neg hone, if_neg htwo, if_neg hfour]
    rfl

theorem exact_byte (n : UInt8) : byte.Exact n :=
  (exact_fixed n.toNat_lt).via UInt8.ofNat_toNat

theorem exact_word16 (n : UInt16) : word16.Exact n :=
  (exact_number (.inl rfl) n.toNat_lt).via UInt16.ofNat_toNat

theorem exact_word32 (n : UInt32) : word32.Exact n :=
  (exact_number (.inr (.inl rfl)) n.toNat_lt).via UInt32.ofNat_toNat

theorem exact_word64 (n : UInt64) : word64.Exact n :=
  (exact_number (.inr (.inr rfl)) n.toNat_lt).via UInt64.ofNat_toNat

/-- A number is determined by its bits, whether or not it is finite. -/
theorem exact_single (x : Float32) : single.Exact x :=
  (exact_fixed x.toBits.toNat_lt).via (by rw [UInt32.ofNat_toNat, Float32.ofBits_toBits])

/-! ## Sequences -/

/-- The mark of further lengths begins no number. -/
theorem number_write_eq_cons (n : Nat) :
    ∃ mark code, (number 8).write n = mark :: code ∧ mark ≠ 254 := by
  simp only [number]
  split_ifs with hone
  · refine ⟨_, _, rfl, fun hmark => ?_⟩
    have hbyte : (UInt8.ofNat n).toNat = n := UInt8.toNat_ofNat_of_lt (by rw [UInt8.size]; omega)
    rw [hmark] at hbyte
    have h254 : n = 254 := hbyte.symm
    omega
  all_goals exact ⟨_, _, rfl, by decide⟩

theorem length_read_cons (mark : UInt8) (bytes : List UInt8) (h : mark ≠ 254) :
    length.read (mark :: bytes) = (number 8).read (mark :: bytes) := by
  change readLength (mark :: bytes) = _
  rw [readLength, if_neg h]

theorem exact_length (n : Nat) : length.Exact n := by
  induction n using Nat.strongRecOn with
  | ind n ih =>
    by_cases hn : n < 0x10000000000000000
    · have hnumber : (number 8).Exact n := exact_number (.inr (.inr rfl)) hn
      have hwrite : length.write n = (number 8).write n := by
        change writeLength n = _
        rw [writeLength, if_pos hn]
      obtain ⟨mark, code, hcode, hmark⟩ := number_write_eq_cons n
      constructor
      · intro rest
        have hwhole := hnumber.whole rest
        rw [hcode, List.cons_append] at hwhole
        rw [hwrite, hcode, List.cons_append, length_read_cons mark _ hmark, hwhole]
      · intro bytes hbegin hne
        rw [hwrite] at hbegin hne
        have hpart := hnumber.part bytes hbegin hne
        rw [hcode] at hbegin
        cases bytes with
        | nil => exact ⟨_, rfl⟩
        | cons b bytes =>
          obtain ⟨rfl, -⟩ := List.cons_prefix_cons.1 hbegin
          rwa [length_read_cons b bytes hmark]
    · have hback : n - 0x10000000000000000 + 0x10000000000000000 = n :=
        Nat.sub_add_cancel (Nat.not_lt.1 hn)
      have hrest : (length.via (· - 0x10000000000000000) (· + 0x10000000000000000)).Exact n :=
        (ih _ (by omega)).via hback
      refine exact_marked 254 hrest ?_ (fun bytes => ?_) ⟨_, rfl⟩
      · change writeLength n = _
        rw [writeLength, if_neg hn]
        rfl
      · change readLength (254 :: bytes) = _
        rw [readLength, if_pos rfl]
        rfl

section Sequence

variable {α : Type} {c : Codec α}

theorem readMany_flatMap {xs : List α} (h : ∀ x ∈ xs, c.Exact x) (reversed : List α)
    (rest : List UInt8) :
    readMany c xs.length reversed (xs.flatMap c.write ++ rest) =
      .ok (reversed.reverse ++ xs, rest) := by
  induction xs generalizing reversed with
  | nil => rw [List.append_nil]; rfl
  | cons x xs ih =>
    rw [List.length_cons, readMany, List.flatMap_cons, List.append_assoc,
      (h x List.mem_cons_self).whole]
    simp only [bind, Except.bind]
    rw [ih fun y hy => h y (List.mem_cons_of_mem _ hy), List.reverse_cons, List.append_assoc,
      List.singleton_append]

theorem readMany_of_part {xs : List α} (h : ∀ x ∈ xs, c.Exact x) (reversed : List α)
    {bytes : List UInt8} (hbegin : bytes <+: xs.flatMap c.write)
    (hne : bytes ≠ xs.flatMap c.write) :
    ∃ reason, readMany c xs.length reversed bytes = .error reason := by
  induction xs generalizing reversed bytes with
  | nil => exact absurd (List.prefix_nil.1 hbegin) hne
  | cons x xs ih =>
    have hx := h x List.mem_cons_self
    rw [List.flatMap_cons] at hbegin hne
    rw [List.length_cons, readMany]
    rcases Codec.part_append hbegin hne with ⟨hshort, hne⟩ | ⟨rest, rfl, hrest, hne⟩
    · obtain ⟨reason, hreason⟩ := hx.part bytes hshort hne
      exact ⟨reason, by rw [hreason]; rfl⟩
    · rw [hx.whole]
      exact ih (fun y hy => h y (List.mem_cons_of_mem _ hy)) _ hrest hne

theorem exact_sequence {xs : List α} (h : ∀ x ∈ xs, c.Exact x) : (sequence c).Exact xs := by
  have hlength := exact_length xs.length
  constructor
  · intro rest
    change ((length.read ((length.write xs.length ++ xs.flatMap c.write) ++ rest)).bind _) = _
    rw [List.append_assoc, hlength.whole]
    exact readMany_flatMap h [] rest
  · intro bytes hbegin hne
    change bytes <+: length.write xs.length ++ xs.flatMap c.write at hbegin
    change bytes ≠ length.write xs.length ++ xs.flatMap c.write at hne
    change ∃ reason, (length.read bytes).bind _ = _
    rcases Codec.part_append hbegin hne with ⟨hshort, hne⟩ | ⟨rest, rfl, hrest, hne⟩
    · obtain ⟨reason, hreason⟩ := hlength.part bytes hshort hne
      exact ⟨reason, by rw [hreason]; rfl⟩
    · rw [hlength.whole]
      exact readMany_of_part h [] hrest hne

end Sequence

theorem fromUTF8?_toByteArray (s : String) : String.fromUTF8? s.toByteArray = some s := by
  rw [String.fromUTF8?, dif_pos s.isValidUTF8]
  rfl

theorem exact_text (s : String) : text.Exact s := by
  have hbytes : (sequence byte).Exact s.toByteArray.data.toList :=
    exact_sequence fun b _ => exact_byte b
  constructor
  · intro rest
    change ((sequence byte).read ((sequence byte).write s.toByteArray.data.toList ++ rest)).bind _
      = _
    rw [hbytes.whole]
    simp only [Except.bind, Array.toArray_toList]
    rw [fromUTF8?_toByteArray]
    rfl
  · intro bytes hbegin hne
    obtain ⟨reason, hreason⟩ := hbytes.part bytes hbegin hne
    change ∃ reason, ((sequence byte).read bytes).bind _ = _
    exact ⟨reason, by rw [hreason]; rfl⟩

/-! ## Sets of keys -/

theorem testBit_keyWord (keys : List UInt32) (i : Nat) {j : Nat} (hj : j < 32) :
    (keyWord keys i).toNat.testBit j = true ↔ ∃ key ∈ keys, key.toNat = 32 * i + j := by
  have hfold (word : UInt32) : (keys.foldl (fun word (key : UInt32) =>
      if key.toNat / 32 = i then word ||| (1 <<< (key % 32)) else word) word).toNat.testBit j = true ↔
        word.toNat.testBit j = true ∨ ∃ key ∈ keys, key.toNat = 32 * i + j := by
    induction keys generalizing word with
    | nil => simp
    | cons key keys ih =>
      rw [List.foldl_cons, ih, List.exists_mem_cons_iff]
      split_ifs with hkey
      · have hbit : (1 <<< (key % 32) : UInt32).toNat.testBit j = true ↔
            key.toNat = 32 * i + j := by
          have hsmall : 2 ^ (key.toNat % 32) < 2 ^ 32 :=
            Nat.pow_lt_pow_right (by decide) (Nat.mod_lt _ (by decide))
          have hword : (1 <<< (key % 32) : UInt32).toNat = 2 ^ (key.toNat % 32) := by
            rw [UInt32.toNat_shiftLeft, UInt32.toNat_mod]
            change 1 <<< (key.toNat % 32 % 32) % 2 ^ 32 = _
            rw [Nat.mod_mod, Nat.one_shiftLeft, Nat.mod_eq_of_lt hsmall]
          rw [hword, Nat.testBit_two_pow, decide_eq_true_iff]
          omega
        rw [UInt32.toNat_or, Nat.testBit_or, Bool.or_eq_true, hbit, or_assoc]
      · have hother : key.toNat ≠ 32 * i + j := by omega
        simp [hother]
  rw [keyWord, hfold]
  simp

theorem mem_keysOf {word : UInt32} {i : Nat} {key : UInt32} : key ∈ keysOf word i ↔
    ∃ j < 32, word.toNat.testBit j = true ∧ key = UInt32.ofNat (32 * i + j) := by
  rw [keysOf, List.mem_filterMap]
  refine exists_congr fun j => and_congr List.mem_range ?_
  rw [Option.ite_none_right_eq_some, Option.some.injEq]
  exact and_congr_right' eq_comm

theorem toNat_of_testBit_keyWord {keys : List UInt32} {i j : Nat} (hj : j < 32)
    (h : (keyWord keys i).toNat.testBit j = true) :
    (UInt32.ofNat (32 * i + j)).toNat = 32 * i + j := by
  obtain ⟨key, -, hkey⟩ := (testBit_keyWord keys i hj).1 h
  rw [← hkey, UInt32.ofNat_toNat]

/-- The keys of a word are those that it was made of. -/
theorem mem_keysOf_keyWord {keys : List UInt32} {i : Nat} {key : UInt32} :
    key ∈ keysOf (keyWord keys i) i ↔ key ∈ keys ∧ key.toNat / 32 = i := by
  rw [mem_keysOf]
  constructor
  · rintro ⟨j, hj, hbit, rfl⟩
    obtain ⟨key, hkey, hnumber⟩ := (testBit_keyWord keys i hj).1 hbit
    rw [← hnumber, UInt32.ofNat_toNat]
    exact ⟨hkey, by omega⟩
  · rintro ⟨hkey, rfl⟩
    have hnumber : 32 * (key.toNat / 32) + key.toNat % 32 = key.toNat := Nat.div_add_mod _ _
    refine ⟨key.toNat % 32, Nat.mod_lt _ (by decide), ?_, by rw [hnumber, UInt32.ofNat_toNat]⟩
    exact (testBit_keyWord keys _ (Nat.mod_lt _ (by decide))).2 ⟨key, hkey, hnumber.symm⟩

/-- The keys of all words, if these are enough for the greatest. -/
def keysOfAll (keys : List UInt32) (words : Nat) : List UInt32 :=
  (List.range words).flatMap fun i => keysOf (keyWord keys i) i

theorem pairwise_keysOfAll (keys : List UInt32) (words : Nat) :
    (keysOfAll keys words).Pairwise (· < ·) := by
  refine List.pairwise_flatMap.2 ⟨fun i _ => ?_, ?_⟩
  · refine List.pairwise_filterMap.2 (List.pairwise_lt_range.imp_of_mem ?_)
    intro j j' hj hj' hlt key hkey key' hkey'
    obtain ⟨hbit, ⟨⟩⟩ := Option.ite_none_right_eq_some.1 hkey
    obtain ⟨hbit', ⟨⟩⟩ := Option.ite_none_right_eq_some.1 hkey'
    rw [UInt32.lt_iff_toNat_lt, toNat_of_testBit_keyWord (List.mem_range.1 hj) hbit,
      toNat_of_testBit_keyWord (List.mem_range.1 hj') hbit']
    omega
  · refine List.pairwise_lt_range.imp fun hlt key hkey key' hkey' => ?_
    have hdiv := (mem_keysOf_keyWord.1 hkey).2
    have hdiv' := (mem_keysOf_keyWord.1 hkey').2
    rw [UInt32.lt_iff_toNat_lt]
    omega

theorem keysOfAll_eq {keys : List UInt32} {words : Nat} (hsorted : keys.Pairwise (· < ·))
    (hwords : ∀ key ∈ keys, key.toNat / 32 < words) : keysOfAll keys words = keys := by
  refine (pairwise_keysOfAll keys words).eq_of_mem_iff hsorted fun key => ?_
  rw [keysOfAll, List.mem_flatMap]
  constructor
  · rintro ⟨i, -, hkey⟩
    exact (mem_keysOf_keyWord.1 hkey).1
  · intro hkey
    exact ⟨_, List.mem_range.2 (hwords key hkey), mem_keysOf_keyWord.2 ⟨hkey, rfl⟩⟩

theorem exact_keySet {capacity : UInt64} {keys : List UInt32} (hsorted : keys.Pairwise (· < ·))
    (hkeys : ∀ key ∈ keys, key.toNat < capacity.toNat) : keySet.Exact (capacity, keys) := by
  refine Codec.Exact.via
    ((exact_sequence fun word _ => exact_word32 word).pair (exact_word64 capacity)) ?_
  have hall : keysOfAll keys ((capacity.toNat + 31) / 32) = keys :=
    keysOfAll_eq hsorted fun key hkey => by
      have := hkeys key hkey
      omega
  have hnumbered : (((List.range ((capacity.toNat + 31) / 32)).map (keyWord keys)).zipIdx).flatMap
      (fun word => keysOf word.1 word.2) = keysOfAll keys ((capacity.toNat + 31) / 32) := by
    have hplaces : ((List.range ((capacity.toNat + 31) / 32)).map (keyWord keys)).zipIdx =
        (List.range ((capacity.toNat + 31) / 32)).map fun i => (keyWord keys i, i) :=
      List.ext_getElem (by simp) (by simp)
    rw [hplaces, List.flatMap_map]
    rfl
  exact congrArg (Prod.mk capacity) (hnumbered.trans hall)

end ChartParsing.ByteFormat.Standard

namespace ChartParsing.ByteFormat

theorem lawful_standard : standard.Lawful where
  word8 := Standard.exact_byte
  word16 := Standard.exact_word16
  word32 := Standard.exact_word32
  word64 := Standard.exact_word64
  single := Standard.exact_single
  text := Standard.exact_text
  sequence := fun _ _ h => Standard.exact_sequence h
  keySet := fun _ _ => Standard.exact_keySet
  mapOrder := fun entries => .refl entries

end ChartParsing.ByteFormat

import ChartParsing.Proofs.Matrix.Entries
import ChartParsing.Proofs.Score.Order
import Mathlib.Data.List.Dedup
import Mathlib.Data.List.Perm.Subperm

/-!
# Slices of matrices

The offsets of a matrix cut its entries into slices without gap or overlap, one for each row or
column. A matrix has one entry for each position that a score is given for, which is what these
scores add up to. The list of populated columns cuts the entries in the same places.
-/

namespace ChartParsing

theorem Score.logSum_absent_left (x : Score) : logSum absent x = x :=
  if_pos (beq_absent.2 rfl)

namespace Triple

/-! ## Sums over positions -/

/-- The scores that are given for a position, in the order in which they are listed. -/
def valuesAt (entries : List Triple) (major minor : UInt32) : List Score :=
  (entries.filter fun t => t.major = major ∧ t.minor = minor).map (·.value)

/-- The scores given for a position added as probabilities from the left, which makes the score of
what is absent if there are none. -/
def sumAt (entries : List Triple) (major minor : UInt32) : Score :=
  (valuesAt entries major minor).foldl Score.logSum Score.absent

/-- A score is given for a position. -/
def Given (entries : List Triple) (major minor : UInt32) : Prop :=
  ∃ t ∈ entries, t.major = major ∧ t.minor = minor

variable {entries : List Triple} {major minor : UInt32} {value : Score}

theorem given_iff : Given entries major minor ↔ valuesAt entries major minor ≠ [] := by
  simp [Given, valuesAt]

theorem sumAt_of_not_given (h : ¬Given entries major minor) :
    sumAt entries major minor = Score.absent := by
  rw [given_iff, not_not] at h
  simp [sumAt, h]

/-- The total of a position is the sum of its scores, if there are any. -/
theorem total?_eq_some : total? entries (place major minor) = some value ↔
    Given entries major minor ∧ sumAt entries major minor = value := by
  have hvalues : (entries.filter fun t => t.rank = place major minor).map (·.value) =
      valuesAt entries major minor := by
    simp [valuesAt, rank, place_eq_iff]
  rw [total?, hvalues, given_iff, sumAt]
  cases valuesAt entries major minor with
  | nil => simp
  | cons value values => simp [Score.logSum_absent_left]

theorem total?_getD :
    (total? entries (place major minor)).getD Score.absent = sumAt entries major minor := by
  cases htotal : total? entries (place major minor) with
  | some value => exact (total?_eq_some.1 htotal).2.symm
  | none =>
    refine (sumAt_of_not_given fun hgiven => ?_).symm
    have := total?_eq_some.2 ⟨hgiven, rfl⟩
    simp [htotal] at this

theorem mem_accumulate {t : Triple} : t ∈ (accumulate entries).toList ↔
    Given entries t.major t.minor ∧ sumAt entries t.major t.minor = t.value := by
  rw [(accumulate_spec entries).mem, rank, total?_eq_some]

/-- The positions that scores are given for, each once. -/
def positions (entries : List Triple) : List (UInt32 × UInt32) :=
  (entries.map fun t => (t.major, t.minor)).dedup

theorem nodup_positions (entries : List Triple) : (positions entries).Nodup := List.nodup_dedup _

theorem mem_positions : (major, minor) ∈ positions entries ↔ Given entries major minor := by
  simp [positions, Given]

/-- There is one accumulated triple for each position that a score is given for. -/
theorem size_accumulate (entries : List Triple) :
    (accumulate entries).size = (positions entries).length := by
  have hnodup : ((accumulate entries).toList.map fun t => (t.major, t.minor)).Nodup := by
    rw [List.Nodup, List.pairwise_map]
    refine (accumulate_spec entries).sorted.imp fun {t u} hlt heq => ?_
    have := rank_eq_iff.2 (Prod.mk.inj heq)
    omega
  have hperm : ((accumulate entries).toList.map fun t => (t.major, t.minor)).Perm
      (positions entries) := by
    apply (List.perm_ext_iff_of_nodup hnodup (nodup_positions entries)).2
    rintro ⟨major, minor⟩
    rw [mem_positions]
    simp only [List.mem_map, Prod.mk.injEq, mem_accumulate]
    constructor
    · rintro ⟨t, ⟨hgiven, -⟩, rfl, rfl⟩
      exact hgiven
    · intro hgiven
      exact ⟨⟨major, minor, sumAt entries major minor⟩, ⟨hgiven, rfl⟩, rfl, rfl⟩
  simpa using hperm.length_eq

/-- There are no more positions than things that they come from. -/
theorem length_positions_le {α : Type} {xs : List α} (place : α → UInt32 × UInt32)
    (h : ∀ t ∈ entries, ∃ x ∈ xs, place x = (t.major, t.minor)) :
    (positions entries).length ≤ xs.length := by
  have hsubset : positions entries ⊆ xs.map place := by
    rintro ⟨major, minor⟩ hmem
    obtain ⟨t, ht, rfl, rfl⟩ := mem_positions.1 hmem
    exact List.mem_map.2 (h t ht)
  simpa using (List.subperm_of_subset (nodup_positions entries) hsubset).length_le

/-- There are as many positions as things that have positions of their own. -/
theorem le_length_positions {α : Type} {xs : List α} (place : α → UInt32 × UInt32)
    (hnodup : xs.Nodup) (hinj : ∀ x ∈ xs, ∀ y ∈ xs, place x = place y → x = y)
    (h : ∀ x ∈ xs, Given entries (place x).1 (place x).2) :
    xs.length ≤ (positions entries).length := by
  have hsubset : xs.map place ⊆ positions entries := by
    intro p hp
    obtain ⟨x, hx, rfl⟩ := List.mem_map.1 hp
    exact mem_positions.2 (h x hx)
  have hplaces : (xs.map place).Nodup := hnodup.map_on hinj
  simpa using (List.subperm_of_subset hplaces hsubset).length_le

/-! ## Slices -/

/-- The part of some entries between two consecutive offsets. -/
def sliceOf {α : Type} (offsets : Array UInt32) (cells : Array α) (i : Nat) : List α :=
  (cells.extract (offsets.getD i 0).toNat (offsets.getD (i + 1) 0).toNat).toList

theorem toList_sliceOf {α : Type} (offsets : Array UInt32) (cells : Array α) (i : Nat) :
    sliceOf offsets cells i =
      cells.toList.extract (offsets.getD i 0).toNat (offsets.getD (i + 1) 0).toNat := by
  rw [sliceOf, Array.toList_extract]

/-- Consecutive slices make up the entries before an offset. -/
theorem flatMap_sliceOf {α : Type} {offsets : Array UInt32} (cells : Array α)
    (hzero : (offsets.getD 0 0).toNat = 0) {count : Nat}
    (hmono : ∀ i < count, (offsets.getD i 0).toNat ≤ (offsets.getD (i + 1) 0).toNat) :
    (List.range count).flatMap (sliceOf offsets cells) =
      cells.toList.take (offsets.getD count 0).toNat := by
  induction count with
  | zero => rw [hzero, List.take_zero]; rfl
  | succ count ih =>
    have hle := hmono count (Nat.lt_succ_self count)
    rw [List.range_succ, List.flatMap_append, ih fun i hi => hmono i (by omega),
      List.flatMap_singleton, toList_sliceOf, List.extract_eq_take_drop, ← List.take_add,
      Nat.add_sub_cancel' hle]

/-- The slices of a matrix, by one index, hold what is given for the positions with that index,
each position once and in increasing order of the other index. -/
structure Sliced {α : Type} [LT α] (other : α → UInt32) (entries : List Triple) (count : Nat)
    (offsets : Array UInt32) (cells : Array (α × Score)) : Prop where
  partition : (List.range count).flatMap (sliceOf offsets cells) = cells.toList
  increasing : ∀ i < count, (sliceOf offsets cells i).Pairwise fun x y => x.1 < y.1
  mem : ∀ major : UInt32, major.toNat < count → ∀ a value,
    (a, value) ∈ sliceOf offsets cells major.toNat ↔
      Given entries major (other a) ∧ sumAt entries major (other a) = value
  size : cells.size = (positions entries).length
  offset_le : ∀ i, (offsets.getD i 0).toNat ≤ cells.size

/-- Triples go into buckets just if none is out of range and their positions are few enough. -/
theorem bucketed_iff {count : Nat} : Bucketed count entries ↔
    (∀ t ∈ entries, t.major.toNat < count) ∧ (positions entries).length < 2 ^ 32 := by
  rw [← size_accumulate]
  constructor
  · intro h
    refine ⟨fun t ht => ?_, h.size_lt⟩
    exact h.major_lt ⟨t.major, t.minor, sumAt entries t.major t.minor⟩
      (mem_accumulate.2 ⟨⟨t, ht, rfl, rfl⟩, rfl⟩)
  · rintro ⟨hrange, hsize⟩
    refine ⟨hsize, fun t ht => ?_⟩
    obtain ⟨⟨u, hu, hmajor, -⟩, -⟩ := mem_accumulate.1 ht
    rw [← hmajor]
    exact hrange u hu

theorem accumulate?_of_bucketed {count : Nat} (h : Bucketed count entries) :
    accumulate? count entries = some (accumulate entries) :=
  accumulate?_eq_some.2 ⟨h, rfl⟩

theorem accumulate?_eq_none {count : Nat} (h : ¬Bucketed count entries) :
    accumulate? count entries = none := by
  rw [Option.eq_none_iff_forall_ne_some]
  intro merged hmerged
  exact h (accumulate?_eq_some.1 hmerged).1

variable {count : Nat}

theorem Bucketed.offset_le (h : Bucketed count entries) (i : Nat) :
    ((offsets count ((accumulate entries).map (·.major.toNat))).getD i 0).toNat ≤
      (accumulate entries).size := by
  rcases Nat.lt_or_ge count i with hi | hi
  · have hnone : (offsets count ((accumulate entries).map (·.major.toNat)))[i]? = none := by
      apply Array.getElem?_eq_none
      rw [(offsets_spec count _).1]
      omega
    simp [Array.getD_eq_getD_getElem?, hnone]
  · rw [h.toNat_offset hi]
    exact List.countP_le_length

theorem Bucketed.offset_zero (h : Bucketed count entries) :
    ((offsets count ((accumulate entries).map (·.major.toNat))).getD 0 0).toNat = 0 := by
  rw [h.toNat_offset (Nat.zero_le _)]
  simp

/-- The last bucket ends where the entries end. -/
theorem Bucketed.offset_last (h : Bucketed count entries) :
    ((offsets count ((accumulate entries).map (·.major.toNat))).getD count 0).toNat =
      (accumulate entries).size := by
  rw [h.toNat_offset (Nat.le_refl _), List.countP_eq_length.2, Array.length_toList]
  intro t ht
  exact decide_eq_true (h.major_lt t ht)

/-- The offsets cut accumulated triples into slices, whatever stands for the other index. -/
theorem sliced_accumulate {α : Type} [LT α] {name : UInt32 → α} {other : α → UInt32}
    (hbucketed : Bucketed count entries) (hname : ∀ a, name (other a) = a)
    (hother : ∀ t ∈ entries, other (name t.minor) = t.minor)
    (hlt : ∀ a b, other a < other b → a < b) :
    Sliced other entries count (offsets count ((accumulate entries).map (·.major.toNat)))
      ((accumulate entries).map fun t => (name t.minor, t.value)) := by
  have hminor : ∀ t ∈ (accumulate entries).toList, other (name t.minor) = t.minor := by
    intro t ht
    obtain ⟨⟨u, hu, -, hminor⟩, -⟩ := mem_accumulate.1 ht
    rw [← hminor]
    exact hother u hu
  have hslice : ∀ i < count, sliceOf (offsets count ((accumulate entries).map (·.major.toNat)))
      ((accumulate entries).map fun t => (name t.minor, t.value)) i =
        ((accumulate entries).toList.filter (·.major.toNat = i)).map
          fun t => (name t.minor, t.value) := by
    intro i hi
    rw [toList_sliceOf, hbucketed.extract_offsets _ hi]
  constructor
  case partition =>
    rw [flatMap_sliceOf _ hbucketed.offset_zero fun i hi => (hbucketed.offset_bounds hi).1,
      hbucketed.offset_last]
    apply List.take_of_length_le
    simp
  case increasing =>
    intro i hi
    rw [hslice i hi, List.pairwise_map, List.pairwise_filter]
    refine (accumulate_spec entries).sorted.imp_of_mem fun {t u} ht hu hlt' hti hui => ?_
    rw [decide_eq_true_iff] at hti hui
    apply hlt
    rw [hminor t ht, hminor u hu, UInt32.lt_iff_toNat_lt]
    unfold rank place at hlt'
    omega
  case mem =>
    intro major hmajor a value
    rw [hslice _ hmajor]
    simp only [List.mem_map, List.mem_filter, decide_eq_true_iff, UInt32.toNat_inj, Prod.mk.injEq]
    constructor
    · rintro ⟨t, ⟨ht, rfl⟩, rfl, rfl⟩
      rw [hminor t ht]
      exact mem_accumulate.1 ht
    · intro hgiven
      exact ⟨⟨major, other a, value⟩, ⟨mem_accumulate.2 hgiven, rfl⟩, hname a, rfl⟩
  case size => rw [Array.size_map, size_accumulate]
  case offset_le =>
    intro i
    simpa using hbucketed.offset_le i

end Triple

/-! ## Rows -/

namespace RowMatrix

/-- A matrix has the sums of some triples for its entries, row by row. -/
structure Stores (m : RowMatrix) (count : Nat) (entries : List Triple) : Prop where
  rows : m.rows = count
  sliced : Triple.Sliced id entries count m.offsets m.cells
  row : ∀ r, m.row? r =
    if r.toNat < count then some (Triple.sliceOf m.offsets m.cells r.toNat) else none
  get : ∀ r column, m.get r column = Triple.sumAt entries r.toUInt32 column
  get_not_given : ∀ r column, ¬Triple.Given entries r.toUInt32 column →
    m.get r column = Score.absent
  get_out_of_range : ∀ r column, count ≤ r.toNat → m.get r column = Score.absent

variable {count : Nat} {entries : List Triple}

theorem exists_ofTriples? (h : Triple.Bucketed count entries) :
    ∃ m, ofTriples? count entries = some m :=
  ⟨_, congrArg (Option.map _) (Triple.accumulate?_of_bucketed h)⟩

theorem ofTriples?_eq_none (h : ¬Triple.Bucketed count entries) :
    ofTriples? count entries = none :=
  congrArg (Option.map _) (Triple.accumulate?_eq_none h)

theorem stores_of_ofTriples? {m : RowMatrix} (h : ofTriples? count entries = some m) :
    m.Stores count entries := by
  have hrange : ∀ t ∈ entries, t.major.toNat < count := fun t ht => major_lt h ht
  have hget (r : UInt16) (column : UInt32) :
      m.get r column = Triple.sumAt entries r.toUInt32 column := by
    rw [get_eq h, Triple.total?_getD]
  have hrows := rows_eq h
  constructor
  case rows => exact hrows
  case sliced =>
    obtain ⟨hbucketed, rfl⟩ := ofTriples?_eq h
    exact Triple.sliced_accumulate hbucketed (fun _ => rfl) (fun _ _ => rfl) fun _ _ hlt => hlt
  case row =>
    intro r
    by_cases hr : r.toNat < count
    · simp [row?, row, hrows, hr, bounds, Triple.sliceOf]
    · simp [row?, hrows, hr]
  case get => exact hget
  case get_not_given =>
    intro r column hnot
    rw [hget, Triple.sumAt_of_not_given hnot]
  case get_out_of_range =>
    intro r column hr
    apply (hget r column).trans
    apply Triple.sumAt_of_not_given
    rintro ⟨t, ht, hmajor, -⟩
    have := hrange t ht
    rw [hmajor, UInt16.toNat_toUInt32] at this
    omega

end RowMatrix

/-! ## Columns -/

namespace ColumnMatrix

/-- A matrix has the sums of some triples for its entries, column by column, and lists the columns
that have any. -/
structure Stores (m : ColumnMatrix) (count : Nat) (entries : List Triple) : Prop where
  columns : m.columns = count
  sliced : Triple.Sliced UInt16.toUInt32 entries count m.offsets m.cells
  column : ∀ c, m.column c =
    if c.toNat < count then Triple.sliceOf m.offsets m.cells c.toNat else []
  get : ∀ row c, m.get row c = Triple.sumAt entries c row.toUInt32
  get_not_given : ∀ row c, ¬Triple.Given entries c row.toUInt32 → m.get row c = Score.absent
  get_out_of_range : ∀ row c, count ≤ c.toNat → m.get row c = Score.absent
  populated_increasing : m.populated.toList.Pairwise (· < ·)
  mem_populated : ∀ c, c ∈ m.populated ↔ m.column c ≠ []
  populatedColumn : ∀ i (h : i < m.populated.size),
    m.populatedColumn i = m.column m.populated[i]
  populatedOffset_le : ∀ i, (m.populatedOffsets.getD i 0).toNat ≤ m.cells.size

/-- The triples of entries that are given by row, column and score. -/
def triplesOf (given : List (UInt16 × UInt32 × Score)) : List Triple :=
  given.map fun e => Triple.inColumn e.1 e.2.1 e.2.2

theorem narrow_triplesOf (given : List (UInt16 × UInt32 × Score)) : Narrow (triplesOf given) := by
  intro t ht
  obtain ⟨e, -, rfl⟩ := List.mem_map.1 ht
  simpa [Triple.inColumn] using e.1.toNat_lt

variable {count : Nat} {entries : List Triple} {m : ColumnMatrix}

theorem exists_ofTriples? (h : Triple.Bucketed count entries) :
    ∃ m, ofTriples? count entries = some m :=
  ⟨_, congrArg (Option.map _) (Triple.accumulate?_of_bucketed h)⟩

theorem ofTriples?_eq_none (h : ¬Triple.Bucketed count entries) :
    ofTriples? count entries = none :=
  congrArg (Option.map _) (Triple.accumulate?_eq_none h)

theorem major_lt (h : ofTriples? count entries = some m) {t : Triple} (ht : t ∈ entries) :
    t.major.toNat < count :=
  (Triple.bucketed_iff.1 (ofTriples?_eq h).1).1 t ht

theorem populatedOffset_le (h : ofTriples? count entries = some m) (i : Nat) :
    (m.populatedOffsets.getD i 0).toNat ≤ m.cells.size := by
  obtain ⟨-, hruns, rfl⟩ := ofTriples?_eq h
  have hstart := hruns.start i
  rw [← hruns.size] at hstart
  dsimp only
  rw [Array.getD_eq_getD_getElem?, Array.getElem?_push, Array.size_map]
  split_ifs with hlast
  · exact Nat.mod_le _ _
  · rw [← Array.getD_eq_getD_getElem?]
    rcases Nat.lt_or_ge i (Runs.starts _).size with hi | hi
    · rw [hstart hi]
      exact Nat.le_trans (Nat.mod_le _ _) List.countP_le_length
    · simp [Array.getD_eq_getD_getElem?, Array.getElem?_eq_none hi]

theorem stores_of_ofTriples? (h : ofTriples? count entries = some m) (hnarrow : Narrow entries) :
    m.Stores count entries := by
  have hrange : ∀ t ∈ entries, t.major.toNat < count := fun t ht => major_lt h ht
  have hget (row : UInt16) (c : UInt32) :
      m.get row c = Triple.sumAt entries c row.toUInt32 := by
    rw [get_eq h hnarrow, Triple.total?_getD]
  have hcolumns := columns_eq h
  constructor
  case columns => exact hcolumns
  case sliced =>
    obtain ⟨hbucketed, -, rfl⟩ := ofTriples?_eq h
    apply Triple.sliced_accumulate hbucketed
    · intro row
      exact UInt16.toUInt16_toUInt32 row
    · intro t ht
      have := hnarrow t ht
      apply UInt32.toNat_inj.1
      rw [UInt16.toNat_toUInt32, UInt32.toNat_toUInt16]
      omega
    · intro a b hlt
      simpa [UInt32.lt_iff_toNat_lt, UInt16.lt_iff_toNat_lt] using hlt
  case column =>
    intro c
    by_cases hc : c.toNat < count
    · simp [column, bounds, hcolumns, hc, Triple.sliceOf]
    · simp [column, bounds, hcolumns, hc]
  case get => exact hget
  case get_not_given =>
    intro row c hnot
    rw [hget, Triple.sumAt_of_not_given hnot]
  case get_out_of_range =>
    intro row c hc
    apply (hget row c).trans
    apply Triple.sumAt_of_not_given
    rintro ⟨t, ht, rfl, -⟩
    have := hrange t ht
    omega
  case populated_increasing => exact populated_sorted h
  case mem_populated =>
    intro c
    rw [← mem_populated h, Array.mem_toList_iff]
  case populatedColumn =>
    intro i hi
    rw [populatedColumn_eq h hi, getD_of_lt hi]
  case populatedOffset_le => exact populatedOffset_le h

end ColumnMatrix

/-! ## Both formats -/

/-- A matrix can be made of triples whose rows, or columns, are in range, just if their positions
are fewer than 2^32. Its slices hold what the triples for each position add up to, each position
once and in increasing order, and nothing else; and so do its look-ups, and the list of the
populated columns. -/
theorem Triple.exists_stores :
    (∀ count entries, (∀ t ∈ entries, t.major.toNat < count) →
      ((positions entries).length < 2 ^ 32 →
        ∃ m, RowMatrix.ofTriples? count entries = some m ∧ m.Stores count entries) ∧
      (2 ^ 32 ≤ (positions entries).length → RowMatrix.ofTriples? count entries = none)) ∧
    ∀ count given, (∀ e ∈ given, e.2.1.toNat < count) →
      let entries := ColumnMatrix.triplesOf given
      ((positions entries).length < 2 ^ 32 →
        ∃ m, ColumnMatrix.ofTriples? count entries = some m ∧ m.Stores count entries) ∧
      (2 ^ 32 ≤ (positions entries).length →
        ColumnMatrix.ofTriples? count entries = none) := by
  constructor
  · intro count entries hrange
    constructor
    · intro hfew
      obtain ⟨m, hm⟩ := RowMatrix.exists_ofTriples? (bucketed_iff.2 ⟨hrange, hfew⟩)
      exact ⟨m, hm, RowMatrix.stores_of_ofTriples? hm⟩
    · intro hmany
      refine RowMatrix.ofTriples?_eq_none fun h => ?_
      exact Nat.not_lt.2 hmany (bucketed_iff.1 h).2
  · intro count given hrange entries
    have hrange' : ∀ t ∈ entries, t.major.toNat < count := by
      intro t ht
      obtain ⟨e, he, rfl⟩ := List.mem_map.1 ht
      exact hrange e he
    constructor
    · intro hfew
      obtain ⟨m, hm⟩ := ColumnMatrix.exists_ofTriples? (bucketed_iff.2 ⟨hrange', hfew⟩)
      exact ⟨m, hm, ColumnMatrix.stores_of_ofTriples? hm (ColumnMatrix.narrow_triplesOf given)⟩
    · intro hmany
      refine ColumnMatrix.ofTriples?_eq_none fun h => ?_
      exact Nat.not_lt.2 hmany (bucketed_iff.1 h).2

/-- Of three triples two are for one position. The first slice, one between the others and the last
one are empty. -/
theorem Triple.exists_stores_repeated :
    (∃ m, RowMatrix.ofTriples? 5 [⟨3, 7, -1⟩, ⟨1, 1, -4⟩, ⟨3, 7, -2⟩] = some m ∧ m.cells.size = 2 ∧
      m.get 3 7 = Score.logSum (-1) (-2) ∧ m.get 2 7 = Score.absent ∧
      m.get 9 1 = Score.absent) ∧
      ∃ m, ColumnMatrix.ofTriples? 5
          (ColumnMatrix.triplesOf [(7, 3, -1), (1, 1, -4), (7, 3, -2)]) = some m ∧
        m.cells.size = 2 ∧ m.get 7 3 = Score.logSum (-1) (-2) ∧ m.column 9 = [] := by
  constructor
  · obtain ⟨m, hm, hstores⟩ := (Triple.exists_stores.1 5
      [⟨3, 7, -1⟩, ⟨1, 1, -4⟩, ⟨3, 7, -2⟩] (by decide)).1 (by decide)
    refine ⟨m, hm, hstores.sliced.size, ?_, hstores.get 2 7, hstores.get_out_of_range 9 1 ?_⟩
    · rw [hstores.get]
      simp [sumAt, valuesAt, Score.logSum_absent_left]
    · decide
  · obtain ⟨m, hm, hstores⟩ := (Triple.exists_stores.2 5
      [(7, 3, -1), (1, 1, -4), (7, 3, -2)] (by decide)).1 (by decide)
    refine ⟨m, hm, hstores.sliced.size, ?_, hstores.column 9⟩
    rw [hstores.get]
    simp [sumAt, valuesAt, ColumnMatrix.triplesOf, Triple.inColumn, Score.logSum_absent_left]

end ChartParsing

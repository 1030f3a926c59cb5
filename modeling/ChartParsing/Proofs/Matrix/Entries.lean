import ChartParsing.Matrix.ByColumn
import ChartParsing.Matrix.ByRow
import ChartParsing.Proofs.Matrix.Buckets
import ChartParsing.Proofs.Matrix.Triple
import ChartParsing.Proofs.SortedSearch

/-!
# Entries of matrices

A matrix holds the totals of the triples it is made from. Its rows and its columns,
its populated columns and its scores by position are all read off these totals.
-/

namespace ChartParsing

section Segment

variable {α : Type} [LT α] [DecidableLT α] [DecidableEq α]

/-- A look-up by bisection in a part of an array finds the score of a key. -/
theorem find?_segment {rank : α → Nat} (hrank : ∀ a b : α, a < b ↔ rank a < rank b)
    (cells : Array (α × Score)) {lo hi : Nat} (hlo : lo ≤ hi) (hhi : hi ≤ cells.size)
    (hinc : (cells.toList.extract lo hi).Pairwise fun x y => x.1 < y.1) (key : α) (other : α) :
    let found := match SortedSearch.find? key (fun i => cells[i]?.map Prod.fst) lo hi with
      | some i => (cells.getD i (other, Score.absent)).2
      | none => Score.absent
    (∀ value, (key, value) ∈ cells.toList.extract lo hi → found = value) ∧
      ((∀ value, (key, value) ∉ cells.toList.extract lo hi) → found = Score.absent) := by
  set segment := cells.toList.extract lo hi with hsegment
  have hat (i : Nat) (hi' : lo ≤ i) (hi'' : i < hi) : segment[i - lo]? = cells[i]? := by
    rw [hsegment, List.extract_eq_take_drop, List.getElem?_take, if_pos (by omega),
      List.getElem?_drop, Array.getElem?_toList, Nat.add_sub_cancel' hi']
  have hinc' : SortedSearch.Increasing (fun i => cells[i]?.map Prod.fst) lo hi := by
    constructor
    · intro i hi' hi''
      simp [show i < cells.size by omega]
    · intro i j a b hi' hij hj ha hb
      obtain ⟨x, hx, rfl⟩ := Option.map_eq_some_iff.1 ha
      obtain ⟨y, hy, rfl⟩ := Option.map_eq_some_iff.1 hb
      rw [← hat i hi' (by omega)] at hx
      rw [← hat j (by omega) hj] at hy
      obtain ⟨hi, rfl⟩ := List.getElem?_eq_some_iff.1 hx
      obtain ⟨hj, rfl⟩ := List.getElem?_eq_some_iff.1 hy
      exact List.pairwise_iff_getElem.1 hinc _ _ hi hj (by omega)
  have hfind := SortedSearch.find?_eq_some hrank hlo hinc' key
  constructor
  · intro value hvalue
    obtain ⟨j, hj⟩ := List.mem_iff_getElem?.1 hvalue
    have hlen : j < hi - lo := by
      have := (List.getElem?_eq_some_iff.1 hj).1
      rw [hsegment, List.extract_eq_take_drop, List.length_take] at this
      omega
    have hcell := hat (lo + j) (by omega) (by omega)
    rw [Nat.add_sub_cancel_left, hj] at hcell
    rw [(hfind (lo + j)).2 ⟨by omega, by omega, by rw [← hcell]; rfl⟩]
    simp [Array.getD_eq_getD_getElem?, ← hcell]
  · intro hnone
    cases hf : SortedSearch.find? key (fun i => cells[i]?.map Prod.fst) lo hi with
    | none => rfl
    | some i =>
      obtain ⟨hi', hi'', hi⟩ := (hfind i).1 hf
      obtain ⟨⟨key', value⟩, hcell, rfl⟩ := Option.map_eq_some_iff.1 hi
      rw [← hat i hi' hi''] at hcell
      exact absurd (List.mem_of_getElem? hcell) (hnone value)

end Segment

namespace Triple

/-- The accumulated triples of one bucket, with their places in it. -/
def bucket (ts : List Triple) (major : UInt32) : List (UInt32 × Score) :=
  ((accumulate ts).toList.filter (·.major.toNat = major.toNat)).map fun t => (t.minor, t.value)

theorem mem_bucket {ts : List Triple} {major minor : UInt32} {value : Score} :
    (minor, value) ∈ bucket ts major ↔ total? ts (place major minor) = some value := by
  have hmem := (accumulate_spec ts).mem
  simp only [bucket, List.mem_map, List.mem_filter, decide_eq_true_iff, Prod.mk.injEq]
  constructor
  · rintro ⟨t, ⟨ht, hmajor⟩, rfl, rfl⟩
    rw [← UInt32.toNat_inj.1 hmajor]
    exact (hmem t).1 ht
  · intro h
    exact ⟨⟨major, minor, value⟩, ⟨(hmem _).2 h, rfl⟩, rfl, rfl⟩

theorem bucket_sorted (ts : List Triple) (major : UInt32) :
    (bucket ts major).Pairwise fun x y => x.1 < y.1 := by
  unfold bucket
  rw [List.pairwise_map, List.pairwise_filter]
  refine (accumulate_spec ts).sorted.imp fun {t u} hlt ht hu => ?_
  rw [decide_eq_true_iff] at ht hu
  unfold rank place at hlt
  exact UInt32.lt_iff_toNat_lt.2 (by dsimp only; omega)

theorem majors_sorted (ts : List Triple) :
    (accumulate ts).toList.Pairwise fun t u => t.major.toNat ≤ u.major.toNat := by
  refine (accumulate_spec ts).sorted.imp fun {t u} hlt => ?_
  have := t.minor.toNat_lt
  have := u.minor.toNat_lt
  unfold rank place at hlt
  omega

/-! ## Buckets -/

/-- Triples go into buckets: none is out of range, and the accumulated ones are few enough for
offsets in 32 bits. -/
structure Bucketed (count : Nat) (ts : List Triple) : Prop where
  size_lt : (accumulate ts).size < 2 ^ 32
  major_lt : ∀ t ∈ (accumulate ts).toList, t.major.toNat < count

theorem accumulate?_eq_some {count : Nat} {ts : List Triple} {merged : Array Triple} :
    accumulate? count ts = some merged ↔ Bucketed count ts ∧ accumulate ts = merged := by
  have hbucketed : Bucketed count ts ↔ ((accumulate ts).size < 0x100000000 &&
      (accumulate ts).all fun t => t.major.toNat < count) = true := by
    rw [Bool.and_eq_true, decide_eq_true_iff, Array.all_eq_true_iff_forall_mem]
    simp only [decide_eq_true_iff, ← Array.mem_toList_iff]
    exact ⟨fun h => ⟨h.size_lt, h.major_lt⟩, fun h => ⟨h.1, h.2⟩⟩
  rw [hbucketed]
  simp only [accumulate?, Option.ite_none_right_eq_some, Option.some.injEq]

variable {ts : List Triple} {count : Nat}

/-- An offset of accumulated triples, as a number of triples. -/
theorem Bucketed.toNat_offset (h : Bucketed count ts) {k : Nat} (hk : k ≤ count) :
    ((offsets count ((accumulate ts).map (·.major.toNat))).getD k 0).toNat =
      (accumulate ts).toList.countP (·.major.toNat < k) := by
  rw [Triple.toNat_offset (by simpa using h.size_lt) hk, Array.toList_map, List.countP_map]
  rfl

/-- The entries between two consecutive offsets are those of one bucket. -/
theorem Bucketed.extract_offsets {β : Type} (h : Bucketed count ts) (f : Triple → β) {c : Nat}
    (hc : c < count) :
    ((accumulate ts).map f).toList.extract
        ((offsets count ((accumulate ts).map (·.major.toNat))).getD c 0).toNat
        ((offsets count ((accumulate ts).map (·.major.toNat))).getD (c + 1) 0).toNat
      = ((accumulate ts).toList.filter (·.major.toNat = c)).map f := by
  rw [h.toNat_offset (by omega), h.toNat_offset (by omega), Array.toList_map,
    ← extract_countP_eq_filter _ (majors_sorted ts)]
  simp only [List.extract_eq_take_drop, List.map_take, List.map_drop]

theorem Bucketed.offset_bounds (h : Bucketed count ts) {c : Nat} (hc : c < count) :
    ((offsets count ((accumulate ts).map (·.major.toNat))).getD c 0).toNat
        ≤ ((offsets count ((accumulate ts).map (·.major.toNat))).getD (c + 1) 0).toNat ∧
      ((offsets count ((accumulate ts).map (·.major.toNat))).getD (c + 1) 0).toNat
        ≤ (accumulate ts).size := by
  rw [h.toNat_offset (by omega), h.toNat_offset (by omega)]
  constructor
  · apply List.countP_mono_left
    intro t _ ht
    rw [decide_eq_true_iff] at ht ⊢
    omega
  · exact List.countP_le_length

end Triple

namespace RowMatrix

variable {rows : Nat} {entries : List Triple} {m : RowMatrix}

theorem ofTriples?_eq (h : ofTriples? rows entries = some m) : Triple.Bucketed rows entries ∧
    m = ⟨Triple.offsets rows ((Triple.accumulate entries).map (·.major.toNat)),
      (Triple.accumulate entries).map fun t => (t.minor, t.value)⟩ := by
  obtain ⟨merged, hmerged, rfl⟩ := Option.map_eq_some_iff.1 h
  obtain ⟨hbucketed, rfl⟩ := Triple.accumulate?_eq_some.1 hmerged
  exact ⟨hbucketed, rfl⟩

/-- A row is in range if a triple is given for it. -/
theorem major_lt (h : ofTriples? rows entries = some m) {t : Triple} (ht : t ∈ entries) :
    t.major.toNat < rows := by
  obtain ⟨value, hvalue⟩ := Option.isSome_iff_exists.1 (Triple.total?_isSome ht)
  exact (ofTriples?_eq h).1.major_lt ⟨t.major, t.minor, value⟩
    (((Triple.accumulate_spec entries).mem _).2 hvalue)

theorem rows_eq (h : ofTriples? rows entries = some m) : m.rows = rows := by
  obtain ⟨-, rfl⟩ := ofTriples?_eq h
  simp [RowMatrix.rows, (Triple.offsets_spec rows _).1]

/-- A row is the bucket of its number. -/
theorem row_eq (h : ofTriples? rows entries = some m) (r : UInt16) :
    m.row r = Triple.bucket entries r.toUInt32 := by
  have hrows := rows_eq h
  obtain ⟨hbucketed, rfl⟩ := ofTriples?_eq h
  unfold row
  rw [hrows]
  split_ifs with hr
  · dsimp only [bounds]
    rw [Array.toList_extract, hbucketed.extract_offsets _ hr]
    rfl
  · symm
    simp only [Triple.bucket, List.map_eq_nil_iff, List.filter_eq_nil_iff, decide_eq_true_iff]
    intro t ht hmajor
    have := hbucketed.major_lt t ht
    rw [UInt16.toNat_toUInt32] at hmajor
    omega

theorem mem_row (h : ofTriples? rows entries = some m) {r : UInt16} {column : UInt32}
    {value : Score} : (column, value) ∈ m.row r ↔
      Triple.total? entries (Triple.place r.toUInt32 column) = some value := by
  rw [row_eq h, Triple.mem_bucket]

/-- The score at a position is the total of the triples given for it. -/
theorem get_eq (h : ofTriples? rows entries = some m) (r : UInt16) (column : UInt32) :
    m.get r column
      = (Triple.total? entries (Triple.place r.toUInt32 column)).getD Score.absent := by
  have hrow := row_eq h r
  have hmem := @mem_row rows entries m h r column
  have hrows := rows_eq h
  unfold get
  unfold row at hrow hmem
  split_ifs at hrow hmem ⊢ with hr
  · obtain ⟨hbucketed, rfl⟩ := ofTriples?_eq h
    rw [hrows] at hr
    have hbounds := hbucketed.offset_bounds hr
    simp only [bounds] at hrow hmem ⊢
    rw [Array.toList_extract] at hrow hmem
    obtain ⟨hfound, hnone⟩ := find?_segment (fun _ _ => UInt32.lt_iff_toNat_lt)
      ((Triple.accumulate entries).map fun t => (t.minor, t.value)) hbounds.1
      (by rw [Array.size_map]; exact hbounds.2)
      (by rw [hrow]; exact Triple.bucket_sorted _ _) column 0
    cases htotal : Triple.total? entries (Triple.place r.toUInt32 column) with
    | some value => exact hfound value (hmem.2 htotal)
    | none =>
      refine hnone fun value hvalue => ?_
      rw [hmem, htotal] at hvalue
      cases hvalue
  · cases htotal : Triple.total? entries (Triple.place r.toUInt32 column) with
    | some value => exact absurd (hmem.2 htotal) List.not_mem_nil
    | none => rfl

end RowMatrix

namespace ColumnMatrix

/-- The columns met in a sorted sequence, and how many entries come before each. -/
structure Runs.Describe (runs : Runs) (ts : List Triple) : Prop where
  length : runs.length = ts.length
  size : runs.starts.size = runs.columns.size
  sorted : runs.columns.toList.Pairwise fun c d => c.toNat < d.toNat
  mem : ∀ c, c ∈ runs.columns.toList ↔ ∃ t ∈ ts, t.major = c
  start : ∀ i < runs.columns.size, runs.starts.getD i 0 =
    UInt32.ofNat (ts.countP (·.major.toNat < (runs.columns.getD i 0).toNat))

theorem Runs.Describe.empty : Describe ⟨#[], #[], 0⟩ [] := by
  constructor <;> simp

theorem getD_of_lt {xs : Array UInt32} {i : Nat} (h : i < xs.size) : xs.getD i 0 = xs[i] := by
  rw [Array.getD_eq_getD_getElem?, Array.getElem?_eq_getElem h, Option.getD_some]

theorem getD_mem {xs : Array UInt32} {i : Nat} (h : i < xs.size) : xs.getD i 0 ∈ xs.toList := by
  rw [getD_of_lt h]
  exact Array.getElem_mem_toList h

/-- A column that is not below any that was met is above all of them, unless it is the last. -/
theorem Runs.Describe.lt_of_back? {runs : Runs} {ts : List Triple} (h : runs.Describe ts)
    {column : UInt32} (hle : ∀ c ∈ runs.columns.toList, c.toNat ≤ column.toNat)
    (hback : runs.columns.back? ≠ some column) :
    ∀ c ∈ runs.columns.toList, c.toNat < column.toNat := by
  intro c hc
  refine Nat.lt_of_le_of_ne (hle c hc) fun heq => hback ?_
  obtain rfl := UInt32.toNat_inj.1 heq
  cases hb : runs.columns.back? with
  | none =>
    rw [Array.back?_eq_none_iff.1 hb] at hc
    simp at hc
  | some b =>
    obtain ⟨init, hinit⟩ := Array.back?_eq_some_iff.1 hb
    have hsorted := h.sorted
    rw [hinit, Array.toList_push] at hc hsorted hle
    rw [List.mem_append, List.mem_singleton] at hc
    rcases hc with hc | rfl
    · have hlt := (List.pairwise_append.1 hsorted).2.2 _ hc b (List.mem_singleton.2 rfl)
      have := hle b (List.mem_append_right _ (List.mem_singleton.2 rfl))
      omega
    · rfl

theorem Runs.Describe.add {runs : Runs} {ts : List Triple} {t : Triple} (h : runs.Describe ts)
    (hle : ∀ u ∈ ts, u.major.toNat ≤ t.major.toNat) : (runs.add t).Describe (ts ++ [t]) := by
  have hcolumns : ∀ c ∈ runs.columns.toList, c.toNat ≤ t.major.toNat := by
    intro c hc
    obtain ⟨u, hu, rfl⟩ := (h.mem c).1 hc
    exact hle u hu
  have hstart : ∀ i < runs.columns.size, runs.starts.getD i 0 =
      UInt32.ofNat ((ts ++ [t]).countP (·.major.toNat < (runs.columns.getD i 0).toNat)) := by
    intro i hi
    have := hcolumns _ (getD_mem hi)
    rw [List.countP_append, List.countP_singleton, if_neg (by rw [decide_eq_true_iff]; omega),
      h.start i hi]
    rfl
  unfold Runs.add
  split_ifs with hback
  · obtain ⟨init, hinit⟩ := Array.back?_eq_some_iff.1 hback
    refine ⟨by simp [h.length], h.size, h.sorted, fun c => ?_, hstart⟩
    rw [h.mem]
    simp only [List.mem_append, List.mem_singleton]
    constructor
    · rintro ⟨u, hu, rfl⟩
      exact ⟨u, Or.inl hu, rfl⟩
    · rintro ⟨u, hu | rfl, rfl⟩
      · exact ⟨u, hu, rfl⟩
      · rw [← h.mem, hinit]
        simp
  · have hnew := h.lt_of_back? hcolumns hback
    refine ⟨by simp [h.length], by simp [h.size], ?_, fun c => ?_, fun i hi => ?_⟩
    · rw [Array.toList_push, List.pairwise_append]
      refine ⟨h.sorted, List.pairwise_singleton _ _, ?_⟩
      intro c hc d hd
      rw [List.mem_singleton.1 hd]
      exact hnew c hc
    · rw [Array.toList_push, List.mem_append, List.mem_singleton, h.mem]
      simp only [List.mem_append, List.mem_singleton]
      constructor
      · rintro (⟨u, hu, rfl⟩ | rfl)
        · exact ⟨u, Or.inl hu, rfl⟩
        · exact ⟨t, Or.inr rfl, rfl⟩
      · rintro ⟨u, hu | rfl, rfl⟩
        · exact Or.inl ⟨u, hu, rfl⟩
        · exact Or.inr rfl
    · rw [Array.size_push] at hi
      rcases Nat.lt_or_ge i runs.columns.size with hi' | hi'
      · have hs := hstart i hi'
        rw [Array.getD_eq_getD_getElem?] at hs ⊢
        rw [Array.getElem?_push, if_neg (by rw [h.size]; omega), hs]
        rw [Array.getD_eq_getD_getElem?, Array.getD_eq_getD_getElem?, Array.getElem?_push,
          if_neg (by omega)]
      · obtain rfl : i = runs.columns.size := by omega
        rw [Array.getD_eq_getD_getElem?, Array.getElem?_push, if_pos h.size.symm]
        rw [Array.getD_eq_getD_getElem?, Array.getElem?_push, if_pos rfl, Option.getD_some,
          Option.getD_some, h.length, List.countP_append, List.countP_singleton,
          if_neg (by simp), List.countP_eq_length.2]
        · rfl
        · intro u hu
          have := hnew u.major ((h.mem _).2 ⟨u, hu, rfl⟩)
          simpa using this

theorem Runs.describe_foldl {post pre : List Triple} {runs : Runs} (h : runs.Describe pre)
    (hsorted : (pre ++ post).Pairwise fun t u => t.major.toNat ≤ u.major.toNat) :
    (post.foldl Runs.add runs).Describe (pre ++ post) := by
  induction post generalizing pre runs with
  | nil => simpa using h
  | cons t post ih =>
    have hle : ∀ u ∈ pre, u.major.toNat ≤ t.major.toNat := fun u hu =>
      (List.pairwise_append.1 hsorted).2.2 u hu t List.mem_cons_self
    rw [List.append_cons] at hsorted ⊢
    exact ih (h.add hle) hsorted

/-- Where a run starts as many entries come before it as where the run before it ends. -/
theorem Runs.Describe.stop {runs : Runs} {ts : List Triple} (h : runs.Describe ts) {i : Nat}
    (hi : i < runs.columns.size) : (runs.starts.push (UInt32.ofNat ts.length)).getD (i + 1) 0 =
      UInt32.ofNat (ts.countP (·.major.toNat < (runs.columns.getD i 0).toNat + 1)) := by
  -- every major index is one of the columns, and these increase
  have hmajor (t : Triple) (ht : t ∈ ts) :
      ∃ j, ∃ hj : j < runs.columns.size, runs.columns[j] = t.major := by
    have hmem := (h.mem t.major).2 ⟨t, ht, rfl⟩
    obtain ⟨j, hj, hj'⟩ := List.mem_iff_getElem.1 hmem
    exact ⟨j, by simpa using hj, by simpa using hj'⟩
  have hlt (j k : Nat) (hj : j < runs.columns.size) (hk : k < runs.columns.size) (hjk : j < k) :
      runs.columns[j].toNat < runs.columns[k].toNat := by
    have := List.pairwise_iff_getElem.1 h.sorted j k (by simpa using hj) (by simpa using hk) hjk
    simpa using this
  rw [getD_of_lt hi, Array.getD_eq_getD_getElem?, Array.getElem?_push, h.size]
  split_ifs with heq
  · rw [Option.getD_some, List.countP_eq_length.2]
    intro t ht
    obtain ⟨j, hj, hj'⟩ := hmajor t ht
    rw [decide_eq_true_iff, ← hj']
    rcases Nat.lt_or_ge j i with hji | hji
    · have := hlt j i hj hi hji
      omega
    · obtain rfl : j = i := by omega
      omega
  · have hi' : i + 1 < runs.columns.size := by omega
    rw [← Array.getD_eq_getD_getElem?, h.start (i + 1) hi', getD_of_lt hi']
    refine congrArg UInt32.ofNat (List.countP_congr fun t ht => ?_)
    obtain ⟨j, hj, hj'⟩ := hmajor t ht
    rw [decide_eq_true_iff, decide_eq_true_iff, ← hj']
    rcases Nat.lt_trichotomy j i with hji | rfl | hji
    · have := hlt j i hj hi hji
      have := hlt j (i + 1) hj (by omega) (by omega)
      omega
    · have := hlt j (j + 1) hj (by omega) (by omega)
      omega
    · have hnot : runs.columns[i + 1].toNat ≤ runs.columns[j].toNat := by
        rcases Nat.lt_or_ge (i + 1) j with hji' | hji'
        · exact Nat.le_of_lt (hlt (i + 1) j (by omega) hj hji')
        · obtain rfl : j = i + 1 := by omega
          exact Nat.le_refl _
      have := hlt i (i + 1) hi (by omega) (by omega)
      omega

variable {columns : Nat} {entries : List Triple} {m : ColumnMatrix}

theorem ofTriples?_eq (h : ofTriples? columns entries = some m) :
    let merged := Triple.accumulate entries
    let runs := merged.foldl Runs.add ⟨#[], #[], 0⟩
    Triple.Bucketed columns entries ∧ runs.Describe merged.toList ∧
      m = ⟨runs.columns, runs.starts.push (UInt32.ofNat merged.size),
        Triple.offsets columns (merged.map (·.major.toNat)),
        merged.map fun t => (t.minor.toUInt16, t.value)⟩ := by
  obtain ⟨merged, hmerged, rfl⟩ := Option.map_eq_some_iff.1 h
  obtain ⟨hbucketed, rfl⟩ := Triple.accumulate?_eq_some.1 hmerged
  refine ⟨hbucketed, ?_, rfl⟩
  rw [← Array.foldl_toList]
  exact Runs.describe_foldl Runs.Describe.empty (by simpa using Triple.majors_sorted entries)

theorem columns_eq (h : ofTriples? columns entries = some m) : m.columns = columns := by
  obtain ⟨-, -, rfl⟩ := ofTriples?_eq h
  simp [ColumnMatrix.columns, (Triple.offsets_spec columns _).1]

/-- A column is the bucket of its number, by rows. -/
theorem column_eq (h : ofTriples? columns entries = some m) (c : UInt32) :
    m.column c = (Triple.bucket entries c).map fun x => (x.1.toUInt16, x.2) := by
  have hcolumns := columns_eq h
  obtain ⟨hbucketed, -, rfl⟩ := ofTriples?_eq h
  unfold column bounds
  rw [hcolumns]
  split_ifs with hc
  · dsimp only
    rw [Array.toList_extract, hbucketed.extract_offsets _ hc, Triple.bucket, List.map_map]
    rfl
  · have hnil : Triple.bucket entries c = [] := by
      simp only [Triple.bucket, List.map_eq_nil_iff, List.filter_eq_nil_iff, decide_eq_true_iff]
      intro t ht hmajor
      have := hbucketed.major_lt t ht
      omega
    simp [hnil]

/-- The rows of the entries fit in 16 bits. -/
def Narrow (entries : List Triple) : Prop := ∀ t ∈ entries, t.minor.toNat < 2 ^ 16

theorem Narrow.bucket (h : Narrow entries) {c minor : UInt32} {value : Score}
    (hmem : (minor, value) ∈ Triple.bucket entries c) : minor.toUInt16.toUInt32 = minor := by
  obtain ⟨t, ht, hrank⟩ := Triple.exists_of_total? (Triple.mem_bucket.1 hmem)
  obtain ⟨-, rfl⟩ := Triple.place_eq_iff.1 hrank
  have := h t ht
  apply UInt32.toNat_inj.1
  rw [UInt16.toNat_toUInt32, UInt32.toNat_toUInt16]
  omega

theorem mem_column (h : ofTriples? columns entries = some m) (hnarrow : Narrow entries)
    {c : UInt32} {row : UInt16} {value : Score} : (row, value) ∈ m.column c ↔
      Triple.total? entries (Triple.place c row.toUInt32) = some value := by
  rw [column_eq h, ← Triple.mem_bucket]
  simp only [List.mem_map, Prod.mk.injEq, Prod.exists]
  constructor
  · rintro ⟨minor, value', hmem, rfl, rfl⟩
    rwa [hnarrow.bucket hmem]
  · intro hmem
    exact ⟨row.toUInt32, value, hmem, by simp, rfl⟩

theorem column_sorted (h : ofTriples? columns entries = some m) (hnarrow : Narrow entries)
    (c : UInt32) : (m.column c).Pairwise fun x y => x.1 < y.1 := by
  rw [column_eq h, List.pairwise_map]
  refine (Triple.bucket_sorted entries c).imp_of_mem fun {x y} hx hy hlt => ?_
  have hx' := hnarrow.bucket hx
  have hy' := hnarrow.bucket hy
  rw [UInt32.lt_iff_toNat_lt, ← hx', ← hy', UInt16.toNat_toUInt32, UInt16.toNat_toUInt32] at hlt
  exact UInt16.lt_iff_toNat_lt.2 hlt

/-- The score at a position is the total of the triples given for it. -/
theorem get_eq (h : ofTriples? columns entries = some m) (hnarrow : Narrow entries)
    (row : UInt16) (c : UInt32) :
    m.get row c = (Triple.total? entries (Triple.place c row.toUInt32)).getD Score.absent := by
  have hsorted := column_sorted h hnarrow c
  have hmem := @mem_column columns entries m h hnarrow c row
  have hbounds : (m.bounds c).1 ≤ (m.bounds c).2 ∧ (m.bounds c).2 ≤ m.cells.size := by
    have hcolumns := columns_eq h
    obtain ⟨hbucketed, -, rfl⟩ := ofTriples?_eq h
    unfold bounds
    rw [hcolumns]
    split_ifs with hc
    · dsimp only
      rw [Array.size_map]
      exact hbucketed.offset_bounds hc
    · exact ⟨Nat.le_refl _, Nat.zero_le _⟩
  unfold column at hsorted hmem
  rw [Array.toList_extract] at hsorted hmem
  obtain ⟨hfound, hnone⟩ := find?_segment (fun _ _ => UInt16.lt_iff_toNat_lt) m.cells hbounds.1
    hbounds.2 hsorted row 0
  unfold get
  cases htotal : Triple.total? entries (Triple.place c row.toUInt32) with
  | some value => exact hfound value (hmem.2 htotal)
  | none =>
    refine hnone fun value hvalue => ?_
    rw [hmem, htotal] at hvalue
    cases hvalue

/-- A populated column is the column of its number. -/
theorem populatedColumn_eq (h : ofTriples? columns entries = some m) {i : Nat}
    (hi : i < m.populated.size) : m.populatedColumn i = m.column (m.populated.getD i 0) := by
  have hcolumn := column_eq h (m.populated.getD i 0)
  obtain ⟨hbucketed, hruns, rfl⟩ := ofTriples?_eq h
  set merged := Triple.accumulate entries with hmerged
  have hstop := hruns.stop hi
  have hstart := hruns.start i hi
  have hexact (p : Triple → Bool) :
      (UInt32.ofNat (merged.toList.countP p)).toNat = merged.toList.countP p :=
    Nat.mod_eq_of_lt (Nat.lt_of_le_of_lt List.countP_le_length hbucketed.size_lt)
  rw [hcolumn]
  unfold populatedColumn
  dsimp only
  rw [Array.length_toList] at hstop
  rw [hstop, Array.getD_eq_getD_getElem?, Array.getElem?_push,
    if_neg (by rw [hruns.size]; exact Nat.ne_of_lt hi), ← Array.getD_eq_getD_getElem?, hstart,
    hexact, hexact, Array.toList_extract, Array.toList_map, Triple.bucket, List.map_map,
    ← extract_countP_eq_filter _ (Triple.majors_sorted entries)]
  simp only [List.extract_eq_take_drop, List.map_take, List.map_drop]
  rfl

theorem populated_sorted (h : ofTriples? columns entries = some m) :
    m.populated.toList.Pairwise fun c d => c.toNat < d.toNat := by
  obtain ⟨-, hruns, rfl⟩ := ofTriples?_eq h
  exact hruns.sorted

/-- The populated columns are those that hold entries. -/
theorem mem_populated (h : ofTriples? columns entries = some m) (c : UInt32) :
    c ∈ m.populated.toList ↔ m.column c ≠ [] := by
  rw [column_eq h]
  obtain ⟨-, hruns, rfl⟩ := ofTriples?_eq h
  rw [hruns.mem]
  simp only [Triple.bucket, ne_eq, List.map_eq_nil_iff, List.filter_eq_nil_iff,
    decide_eq_true_iff, not_forall, not_not]
  constructor
  · rintro ⟨t, ht, rfl⟩
    exact ⟨t, ht, rfl⟩
  · rintro ⟨t, ht, hmajor⟩
    exact ⟨t, ht, UInt32.toNat_inj.1 hmajor⟩

end ColumnMatrix

end ChartParsing

import ChartParsing.Chart.PairTable
import ChartParsing.Proofs.SortedSearch

/-!
# Cells in order

The entries of a finished cell increase, so a look-up finds the one entry of a
non-terminal, and the search for right siblings gives exactly those in range.
-/

namespace ChartParsing

namespace Cell

/-- The non-terminals of a cell increase. -/
def Ordered (c : Cell) : Prop := c.toList.Pairwise fun d e => d.nt.toNat < e.nt.toNat

theorem ordered_empty : Ordered ∅ := List.Pairwise.nil

variable {c : Cell}

theorem getElem?_toList (i : Nat) : c.toList[i]? = c.entries[i]? := by simp [toList]

theorem Ordered.increasing (h : c.Ordered) :
    SortedSearch.Increasing (fun i => c.entries[i]?.map (·.nt)) 0 c.size := by
  constructor
  · intro i _ hi
    rw [size] at hi
    simp [hi]
  · intro i j a b _ hij hj ha hb
    obtain ⟨d, hd, rfl⟩ := Option.map_eq_some_iff.1 ha
    obtain ⟨e, he, rfl⟩ := Option.map_eq_some_iff.1 hb
    rw [← getElem?_toList] at hd he
    obtain ⟨hi, rfl⟩ := List.getElem?_eq_some_iff.1 hd
    obtain ⟨hj, rfl⟩ := List.getElem?_eq_some_iff.1 he
    exact UInt16.lt_iff_toNat_lt.2 (List.pairwise_iff_getElem.1 h i j hi hj hij)

/-- A look-up finds the entry of a non-terminal that the cell has. -/
theorem Ordered.get?_eq_some (h : c.Ordered) {nt : UInt16} {e : ChartEntry} :
    c.get? nt = some e ↔ e ∈ c.toList ∧ e.nt = nt := by
  have hfind := SortedSearch.find?_eq_some (fun _ _ => UInt16.lt_iff_toNat_lt) (Nat.zero_le _)
    h.increasing nt
  unfold get? indexOf?
  rw [Option.bind_eq_some_iff]
  constructor
  · rintro ⟨i, hi, he⟩
    obtain ⟨-, -, hnt⟩ := (hfind i).1 hi
    rw [he] at hnt
    rw [← getElem?_toList] at he
    exact ⟨List.mem_of_getElem? he, Option.some.inj hnt⟩
  · rintro ⟨hmem, rfl⟩
    obtain ⟨i, hi, he⟩ := List.mem_iff_getElem.1 hmem
    have hi' : i < c.size := by simpa using hi
    have hget : c.entries[i]? = some e := by
      rw [← getElem?_toList, List.getElem?_eq_getElem hi, he]
    exact ⟨i, (hfind i).2 ⟨Nat.zero_le _, hi', by rw [hget]; rfl⟩, hget⟩

theorem isEmpty_iff : c.isEmpty = true ↔ c.toList = [] := by
  rw [isEmpty, Array.isEmpty_iff, toList, Array.toList_eq_nil_iff]

end Cell

namespace PairTable

/-- The entries of a cell that lie in a range of siblings. -/
def siblingsIn (range : UInt16 × UInt16) (rights : Cell) : List ChartEntry :=
  let first := SortedSearch.boundary
    (fun i => (rights.entries[i]?).any fun e => decide (e.nt < range.1)) 0 rights.size
  (rights.entries.extract first rights.size).toList.takeWhile (·.nt ≤ range.2)

theorem siblingsIn_subset {range : UInt16 × UInt16} {rights : Cell} {e : ChartEntry}
    (h : e ∈ siblingsIn range rights) : e ∈ rights.toList := by
  have hmem := (List.takeWhile_sublist _).subset h
  rw [Array.toList_extract, List.extract_eq_take_drop] at hmem
  exact List.mem_of_mem_drop (List.mem_of_mem_take hmem)

theorem mem_takeWhile_le {entries : List ChartEntry} {hi : UInt16} {e : ChartEntry}
    (h : entries.Pairwise fun d e => d.nt.toNat < e.nt.toNat) :
    e ∈ entries.takeWhile (·.nt ≤ hi) ↔ e ∈ entries ∧ e.nt ≤ hi := by
  induction entries with
  | nil => simp
  | cons d entries ih =>
    obtain ⟨hd, hentries⟩ := List.pairwise_cons.1 h
    rw [List.takeWhile_cons]
    split_ifs with hle
    · rw [decide_eq_true_iff] at hle
      rw [List.mem_cons, List.mem_cons, ih hentries]
      constructor
      · rintro (rfl | ⟨hmem, hle'⟩)
        · exact ⟨Or.inl rfl, hle⟩
        · exact ⟨Or.inr hmem, hle'⟩
      · rintro ⟨rfl | hmem, hle'⟩
        · exact Or.inl rfl
        · exact Or.inr ⟨hmem, hle'⟩
    · rw [decide_eq_true_iff, UInt16.le_iff_toNat_le] at hle
      constructor
      · intro hmem
        cases hmem
      · rintro ⟨hmem, hle'⟩
        rw [UInt16.le_iff_toNat_le] at hle'
        rcases List.mem_cons.1 hmem with rfl | hmem
        · exact absurd hle' hle
        · have := hd e hmem
          omega

/-- The search for the first sibling stops at the first entry that is in range. -/
theorem first_sibling {least : UInt16} {rights : Cell} (h : rights.Ordered) {i : Nat}
    (hi : i < rights.toList.length) :
    rights.toList[i].nt < least ↔ i < SortedSearch.boundary
      (fun i => (rights.entries[i]?).any fun e => decide (e.nt < least)) 0 rights.size := by
  have hget (i : Nat) (hi : i < rights.toList.length) :
      rights.entries[i]? = some rights.toList[i] := by
    rw [← Cell.getElem?_toList, List.getElem?_eq_getElem hi]
  have hholds (i : Nat) (hi : i < rights.toList.length) :
      ((rights.entries[i]?).any fun e => decide (e.nt < least)) = true ↔
        rights.toList[i].nt < least := by
    rw [hget i hi, Option.any_some, decide_eq_true_iff]
  rw [Cell.length_toList] at hi
  rw [← hholds i (by rwa [Cell.length_toList])]
  apply SortedSearch.boundary_spec (Nat.zero_le _) _ (Nat.zero_le i) hi
  intro i j _ hij hj hb
  have hj' : j < rights.toList.length := by rwa [Cell.length_toList]
  rw [hholds j hj'] at hb
  rw [hholds i (by omega)]
  rcases Nat.lt_or_eq_of_le hij with hij | rfl
  · have := List.pairwise_iff_getElem.1 h i j (by omega) hj' hij
    rw [UInt16.lt_iff_toNat_lt] at hb ⊢
    omega
  · exact hb

theorem mem_siblingsIn {range : UInt16 × UInt16} {rights : Cell} (h : rights.Ordered)
    {e : ChartEntry} :
    e ∈ siblingsIn range rights ↔ e ∈ rights.toList ∧ range.1 ≤ e.nt ∧ e.nt ≤ range.2 := by
  unfold siblingsIn
  dsimp only
  generalize hfirst : SortedSearch.boundary
    (fun i => (rights.entries[i]?).any fun e => decide (e.nt < range.1)) 0 rights.size = first
  have hdrop : (rights.entries.extract first rights.size).toList = rights.toList.drop first := by
    rw [Array.toList_extract, List.extract_eq_take_drop, Cell.toList, Cell.size,
      List.take_of_length_le (by simp)]
  rw [hdrop, mem_takeWhile_le (List.Pairwise.drop h), ← and_assoc]
  refine and_congr_left fun _ => ?_
  constructor
  · intro hmem
    obtain ⟨i, hi, he⟩ := List.mem_iff_getElem.1 hmem
    rw [List.length_drop] at hi
    rw [List.getElem_drop] at he
    have hnot : ¬rights.toList[first + i].nt < range.1 := by
      rw [first_sibling h (by omega), hfirst]
      omega
    rw [he, UInt16.not_lt] at hnot
    exact ⟨List.mem_of_mem_drop hmem, hnot⟩
  · rintro ⟨hmem, hge⟩
    obtain ⟨i, hi, rfl⟩ := List.mem_iff_getElem.1 hmem
    have hnot : ¬rights.toList[i].nt < range.1 := UInt16.not_lt.2 hge
    rw [first_sibling h hi, hfirst] at hnot
    refine List.mem_iff_getElem.2 ⟨i - first, by rw [List.length_drop]; omega, ?_⟩
    rw [List.getElem_drop]
    congr 1
    omega

end PairTable
end ChartParsing

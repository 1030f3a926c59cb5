import ChartParsing.Label.Table
import Mathlib.Algebra.Group.Nat.Defs
import Mathlib.Data.List.Induction
import Mathlib.Data.List.Nodup
import Mathlib.Tactic.SplitIfs

/-!
# Labels find their places

Entering a label adds it at the end, unless it is there. A table that has been filled by
entering labels therefore lists each of them once, and finds every one where it stands; the
labels that are entered later move none of those that are there.
-/

namespace ChartParsing.LabelTable

theorem number?_empty (label : String) : (∅ : LabelTable).number? label = none :=
  Std.ExtHashMap.getElem?_empty

theorem number?_insert (t : LabelTable) (label other : String) :
    (t.insert label).2.number? other =
      if t.number? label = none ∧ label = other then some (UInt32.ofNat t.size)
      else t.number? other := by
  cases h : t.number? label with
  | some n => simp [insert_of_number? t h]
  | none =>
    simp only [insert, h, true_and]
    refine Std.ExtHashMap.getElem?_insert.trans ?_
    simp only [beq_iff_eq]
    rfl

theorem size_insert (t : LabelTable) (label : String) :
    (t.insert label).2.size = if t.number? label = none then t.size + 1 else t.size := by
  cases h : t.number? label with
  | some n => simp [insert_of_number? t h]
  | none =>
    rw [if_pos rfl, ← length_toList, toList_insert_of_new t h, List.length_append, length_toList]
    rfl

/-- Every label that a table finds has a number below its size. -/
def Numbered (t : LabelTable) : Prop :=
  ∀ label number, t.number? label = some number → number.toNat < t.size

theorem numbered_empty : Numbered ∅ := by
  intro label number h
  rw [number?_empty] at h
  cases h

theorem Numbered.insert {t : LabelTable} (h : t.Numbered) (label : String) :
    (t.insert label).2.Numbered := by
  intro other number hn
  have hnew : (UInt32.ofNat t.size).toNat ≤ t.size := Nat.mod_le _ _
  rw [number?_insert] at hn
  rw [size_insert]
  split_ifs at hn with hadded
  · rw [if_pos hadded.1, ← Option.some.inj hn]
    omega
  · have := h other number hn
    split_ifs <;> omega

theorem numbered_foldl (labels : List String) {t : LabelTable} (h : t.Numbered) :
    (labels.foldl (fun t label => (t.insert label).2) t).Numbered ∧
      (labels.foldl (fun t label => (t.insert label).2) t).size ≤ t.size + labels.length := by
  induction labels generalizing t with
  | nil => exact ⟨h, Nat.le_refl _⟩
  | cons label labels ih =>
    obtain ⟨hfold, hle⟩ := ih (h.insert label)
    refine ⟨hfold, ?_⟩
    rw [size_insert] at hle
    rw [List.foldl_cons, List.length_cons]
    split_ifs at hle <;> omega

theorem numbered_ofList (labels : List String) :
    (ofList labels).Numbered ∧ (ofList labels).size ≤ labels.length := by
  obtain ⟨h, hle⟩ := numbered_foldl labels numbered_empty
  rw [size_empty, Nat.zero_add] at hle
  exact ⟨h, hle⟩

theorem ofList_concat (labels : List String) (label : String) :
    ofList (labels ++ [label]) = ((ofList labels).insert label).2 := by
  simp [ofList]

/-- The labels of a table, entered in their order, make the table again. -/
theorem ofList_toList (labels : List String) : ofList (ofList labels).toList = ofList labels := by
  induction labels using List.reverseRecOn with
  | nil => rfl
  | append_singleton labels label ih =>
    rw [ofList_concat]
    cases hnumber : (ofList labels).number? label with
    | some number =>
      rw [insert_of_number? _ hnumber]
      exact ih
    | none => rw [toList_insert_of_new _ hnumber, ofList_concat, ih]

/-- A table lists no label twice, and finds just the labels it lists, where they stand. -/
structure Indexed (t : LabelTable) : Prop where
  nodup : t.toList.Nodup
  number : ∀ label n, t.number? label = some n ↔
    ∃ i, t.toList[i]? = some label ∧ n = UInt32.ofNat i

namespace Indexed

variable {t : LabelTable}

theorem empty : Indexed ∅ := by
  refine ⟨List.nodup_nil, fun label n => ?_⟩
  rw [number?_empty]
  simp

theorem isSome_iff (h : t.Indexed) {label : String} :
    (∃ n, t.number? label = some n) ↔ label ∈ t.toList := by
  rw [List.mem_iff_getElem?]
  constructor
  · rintro ⟨n, hn⟩
    obtain ⟨i, hi, -⟩ := (h.number label n).1 hn
    exact ⟨i, hi⟩
  · rintro ⟨i, hi⟩
    exact ⟨_, (h.number label _).2 ⟨i, hi, rfl⟩⟩

theorem number?_eq_none_iff (h : t.Indexed) {label : String} :
    t.number? label = none ↔ label ∉ t.toList := by
  rw [← h.isSome_iff, ← Option.isSome_iff_exists, Option.not_isSome_iff_eq_none]

theorem insert (h : t.Indexed) (label : String) : (t.insert label).2.Indexed := by
  cases hlabel : t.number? label with
  | some n =>
    rw [insert_of_number? t hlabel]
    exact h
  | none =>
    have hnew : label ∉ t.toList := h.number?_eq_none_iff.1 hlabel
    constructor
    · rw [toList_insert_of_new t hlabel]
      exact List.nodup_append.2 ⟨h.nodup, List.nodup_singleton label,
        fun l hl m hm heq => hnew (by rwa [← List.mem_singleton.1 hm, ← heq])⟩
    · intro other n
      rw [number?_insert, toList_insert_of_new t hlabel]
      simp only [hlabel, true_and]
      split_ifs with hother
      · subst hother
        constructor
        · intro hn
          refine ⟨t.size, ?_, (Option.some.inj hn).symm⟩
          simp
        · rintro ⟨i, hi, rfl⟩
          rw [List.getElem?_append] at hi
          split_ifs at hi with hlt
          · exact absurd (List.mem_of_getElem? hi) hnew
          · have hlast := List.getElem?_eq_some_iff.1 hi
            obtain ⟨hi, -⟩ := hlast
            rw [List.length_singleton, length_toList] at hi
            rw [length_toList] at hlt
            rw [show i = t.size by omega]
      · rw [h.number other n]
        refine exists_congr fun i => and_congr_left fun _ => ?_
        rw [List.getElem?_append]
        split_ifs with hlt
        · rfl
        · rw [List.getElem?_eq_none (by omega)]
          refine ⟨nofun, fun hi => ?_⟩
          have hmem := List.mem_singleton.1 (List.mem_of_getElem? hi)
          exact absurd hmem.symm hother

/-- Labels with the same number are equal, unless the numbers have wrapped. -/
theorem number_eq_iff (h : t.Indexed) (hsize : t.size ≤ 2 ^ 32) {label : String} {n : UInt32} :
    t.number? label = some n ↔ t.toList[n.toNat]? = some label := by
  rw [h.number]
  constructor
  · rintro ⟨i, hi, rfl⟩
    have hlt := (List.getElem?_eq_some_iff.1 hi).1
    rw [length_toList] at hlt
    have hback : (UInt32.ofNat i).toNat = i := Nat.mod_eq_of_lt (by omega)
    rwa [hback]
  · intro hn
    exact ⟨n.toNat, hn, by simp⟩

end Indexed

theorem indexed_ofList (labels : List String) : (ofList labels).Indexed := by
  induction labels using List.reverseRecOn with
  | nil => exact .empty
  | append_singleton labels label ih =>
    rw [ofList_concat]
    exact ih.insert label

theorem mem_ofList {labels : List String} {label : String} :
    label ∈ (ofList labels).toList ↔ label ∈ labels := by
  induction labels using List.reverseRecOn with
  | nil => simp [ofList]
  | append_singleton labels last ih =>
    rw [ofList_concat, List.mem_append, List.mem_singleton]
    cases hlast : (ofList labels).number? last with
    | some n =>
      have hmem := (indexed_ofList labels).isSome_iff.1 ⟨n, hlast⟩
      rw [insert_of_number? _ hlast, ih]
      refine ⟨.inl, ?_⟩
      rintro (hlabel | rfl)
      · exact hlabel
      · exact ih.1 hmem
    | none => rw [toList_insert_of_new _ hlast, List.mem_append, List.mem_singleton, ih]

/-- Labels without repetitions are listed as they were entered. -/
theorem toList_ofList {labels : List String} (h : labels.Nodup) :
    (ofList labels).toList = labels := by
  induction labels using List.reverseRecOn with
  | nil => rfl
  | append_singleton labels label ih =>
    obtain ⟨hlabels, -, hdisjoint⟩ := List.nodup_append.1 h
    have hnew : label ∉ labels := fun hmem => hdisjoint label hmem label (by simp) rfl
    have hnone : (ofList labels).number? label = none := by
      rw [(indexed_ofList labels).number?_eq_none_iff, mem_ofList]
      exact hnew
    rw [ofList_concat, toList_insert_of_new _ hnone, ih hlabels]

end ChartParsing.LabelTable

import ChartParsing.Label.Class
import Mathlib.Tactic.SplitIfs

/-!
# Runs of classes

The numbers of a class follow those of the classes before it. So the bounds made from the
sizes of the classes tell the class of a number, and the place of a label in the list of all
labels, class by class, is in the run of its class.
-/

namespace ChartParsing

namespace LabelClass

/-- The number of labels in classes before a class. -/
def before (size : LabelClass → Nat) : LabelClass → Nat
  | rightChildOnly => 0
  | partOfSpeech => size rightChildOnly
  | eitherChild => size rightChildOnly + size partOfSpeech
  | leftChildOnly => size rightChildOnly + size partOfSpeech + size eitherChild
  | unaryChildOnly =>
    size rightChildOnly + size partOfSpeech + size eitherChild + size leftChildOnly

/-- The number of labels in all classes. -/
def count (size : LabelClass → Nat) : Nat := before size unaryChildOnly + size unaryChildOnly

theorem mem_all (c : LabelClass) : c ∈ all := by
  cases c <;> simp [all]

/-- A place in the list of the members of all classes is in the run of one class. -/
theorem exists_of_getElem?_members {α : Type} {members : LabelClass → List α} {i : Nat} {a : α}
    (h : (all.flatMap members)[i]? = some a) : ∃ c, a ∈ members c ∧
      before (fun c => (members c).length) c ≤ i ∧
      i < before (fun c => (members c).length) c + (members c).length := by
  have hmem {c : LabelClass} {k : Nat} (hk : (members c)[k]? = some a) :
      a ∈ members c ∧ k < (members c).length :=
    ⟨List.mem_of_getElem? hk, (List.getElem?_eq_some_iff.1 hk).1⟩
  simp only [all, List.flatMap_cons, List.flatMap_nil, List.append_nil,
    List.getElem?_append] at h
  split_ifs at h with h0 h1 h2 h3
  · exact ⟨rightChildOnly, (hmem h).1, Nat.zero_le i, by simpa [before] using h0⟩
  · exact ⟨partOfSpeech, (hmem h).1, by simp only [before]; omega, by simp only [before]; omega⟩
  · exact ⟨eitherChild, (hmem h).1, by simp only [before]; omega, by simp only [before]; omega⟩
  · exact ⟨leftChildOnly, (hmem h).1, by simp only [before]; omega, by simp only [before]; omega⟩
  · obtain ⟨hlast, hlt⟩ := hmem h
    exact ⟨unaryChildOnly, hlast, by simp only [before]; omega, by simp only [before]; omega⟩

theorem length_members {α : Type} (members : LabelClass → List α) :
    (all.flatMap members).length = count fun c => (members c).length := by
  simp only [all, List.flatMap_cons, List.flatMap_nil, List.append_nil, List.length_append, count,
    before]
  omega

end LabelClass

namespace ClassBounds

open LabelClass

variable {size : LabelClass → Nat}

/-- The bounds are the numbers that they stand for, if these fit in 16 bits. -/
theorem toNat_ofSizes (h : count size ≤ 65535) :
    (ofSizes size).rightChildOnly.toNat = before size .rightChildOnly ∧
    (ofSizes size).partOfSpeech.toNat = before size .partOfSpeech ∧
    (ofSizes size).eitherChild.toNat = before size .eitherChild ∧
    (ofSizes size).leftChildOnly.toNat = before size .leftChildOnly ∧
    (ofSizes size).unaryChildOnly.toNat = before size .unaryChildOnly ∧
    (ofSizes size).total.toNat = count size := by
  have hfit {n : Nat} (hn : n ≤ 65535) : (UInt16.ofNat n).toNat = n := Nat.mod_eq_of_lt (by omega)
  simp only [count, before] at h
  simp only [ofSizes, all, count, before, List.take_zero, List.take_succ_cons,
    List.map_cons, List.map_nil, List.foldr_cons, List.foldr_nil]
  refine ⟨rfl, ?_, ?_, ?_, ?_, ?_⟩
  all_goals rw [hfit (by omega)]; omega

/-- A number falls in the class in whose run it is. -/
theorem classOf_eq_iff (h : count size ≤ 65535) {nt : UInt16} (hnt : nt.toNat < count size)
    {c : LabelClass} : (ofSizes size).classOf nt = c ↔
      before size c ≤ nt.toNat ∧ nt.toNat < before size c + size c := by
  obtain ⟨-, hpos, heither, hleft, hunary, -⟩ := toNat_ofSizes h
  unfold classOf
  split_ifs with h0 h1 h2 h3 <;>
    simp only [UInt16.lt_iff_toNat_lt, hpos, heither, hleft, hunary, before] at * <;>
    cases c <;> simp only [before, count, reduceCtorEq, true_iff, false_iff] at hnt ⊢ <;> omega

theorem interval_contains_iff (h : count size ≤ 65535) {nt : UInt16} (c : LabelClass) :
    ((ofSizes size).interval c).contains nt = true ↔
      before size c ≤ nt.toNat ∧ nt.toNat < before size c + size c := by
  obtain ⟨hright, hpos, heither, hleft, hunary, htotal⟩ := toNat_ofSizes h
  cases c <;>
    simp only [interval, Interval.contains, Bool.and_eq_true, decide_eq_true_iff,
      UInt16.le_iff_toNat_le, UInt16.lt_iff_toNat_lt, hright, hpos, heither, hleft, hunary, htotal,
      before, count]
  -- nothing comes before the first class
  omega

section Children

variable {nt : UInt16} {c : LabelClass} (h : count size ≤ 65535)
  (hnt : before size c ≤ nt.toNat ∧ nt.toNat < before size c + size c)

include h hnt

/-- The classes of left children follow each other, and so do those of right children. -/
theorem leftChildren_contains_iff : (ofSizes size).leftChildren.contains nt = true ↔
    c ≠ .rightChildOnly ∧ c ≠ .unaryChildOnly := by
  obtain ⟨-, hpos, -, -, hunary, -⟩ := toNat_ofSizes h
  simp only [leftChildren, Interval.contains, Bool.and_eq_true, decide_eq_true_iff,
    UInt16.le_iff_toNat_le, UInt16.lt_iff_toNat_lt, hpos, hunary]
  cases c <;> simp only [before] at hnt ⊢ <;> simp <;> omega

theorem rightChildren_contains_iff : (ofSizes size).rightChildren.contains nt = true ↔
    c ≠ .leftChildOnly ∧ c ≠ .unaryChildOnly := by
  obtain ⟨hright, -, -, hleft, -⟩ := toNat_ofSizes h
  simp only [rightChildren, Interval.contains, Bool.and_eq_true, decide_eq_true_iff,
    UInt16.le_iff_toNat_le, UInt16.lt_iff_toNat_lt, hright, hleft]
  cases c <;> simp only [before] at hnt ⊢ <;> simp <;> omega

end Children

end ClassBounds
end ChartParsing

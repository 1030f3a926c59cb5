import ChartParsing.Proofs.Chart.Places
import ChartParsing.Schedule

/-!
# What a schedule hands out

A walk bottom-up hands out every span of the sentence once, the shorter first and from
left to right, and a list hands out those of its spans that fit. Layers leave out the
spans they skip, and change nothing else.
-/

namespace ChartParsing

namespace Span

/-- The number of words of a span within a sentence. -/
def length (s : Span) : Nat := s.stop.toNat - s.start.toNat

theorem toNat_width {size : Nat} {s : Span} (h : s.within size = true) :
    s.width.toNat = s.length := by
  rw [within_iff] at h
  have hstart := s.start.toNat_lt
  have hstop := s.stop.toNat_lt
  unfold width length
  rw [UInt16.toNat_sub]
  omega

/-- The span of so many words from a position. -/
def ofLength (start length : Nat) : Span := ⟨UInt16.ofNat start, UInt16.ofNat (start + length)⟩

theorem toNat_ofLength (start length : Nat) (h : start + length ≤ 65535) :
    (ofLength start length).start.toNat = start ∧
      (ofLength start length).stop.toNat = start + length :=
  ⟨Nat.mod_eq_of_lt (by omega), Nat.mod_eq_of_lt (by omega)⟩

theorem ofLength_length {s : Span} {size : Nat} (h : s.within size = true) :
    ofLength s.start.toNat s.length = s := by
  rw [within_iff] at h
  have hstop := s.stop.toNat_lt
  obtain ⟨hstart, hstop'⟩ := toNat_ofLength s.start.toNat s.length
    (by unfold length; omega)
  refine ext_toNat hstart ?_
  rw [hstop']
  unfold length
  omega

/-- Where a span ends. -/
theorem stop_eq {s : Span} {size : Nat} (h : s.within size = true) :
    s.stop.toNat = s.start.toNat + s.length := by
  rw [within_iff] at h
  unfold length
  omega

/-- Induction on the spans of a sentence, the longer first. -/
@[elab_as_elim]
theorem induction_longer {size : Nat} {motive : ∀ s : Span, s.within size = true → Prop}
    (step : ∀ s hs, (∀ t ht, s.length < t.length → motive t ht) → motive s hs)
    (s : Span) (hs : s.within size = true) : motive s hs := by
  generalize hn : size - s.length = n
  induction n using Nat.strongRecOn generalizing s with
  | ind n ih =>
    refine step s hs fun t ht hlonger => ih (size - t.length) ?_ t ht rfl
    rw [within_iff] at ht
    unfold length at *
    omega

/-- The parts of a span that is split. -/
theorem split_ofLength {start left right size : Nat}
    (h : (ofLength start (left + right)).within size = true) (hsize : size ≤ 65535)
    (hbound : start + (left + right) ≤ size) (hleft : 0 < left) (hright : 0 < right) :
    UInt16.ofNat (start + left) ∈ (ofLength start (left + right)).midpoints ∧
      (⟨(ofLength start (left + right)).start, UInt16.ofNat (start + left)⟩ : Span) =
        ofLength start left ∧
      (⟨UInt16.ofNat (start + left), (ofLength start (left + right)).stop⟩ : Span) =
        ofLength (start + left) right := by
  obtain ⟨hstart, hstop⟩ := toNat_ofLength start (left + right) (by omega)
  have hmid : (UInt16.ofNat (start + left)).toNat = start + left :=
    Nat.mod_eq_of_lt (by omega)
  refine ⟨?_, rfl, ?_⟩
  · rw [mem_midpoints h, hstart, hstop, hmid]
    omega
  · unfold ofLength
    dsimp only
    rw [Nat.add_assoc]

theorem within_ofLength {start length size : Nat} (hsize : size ≤ 65535) (hlength : 0 < length)
    (h : start + length ≤ size) : (ofLength start length).within size = true := by
  obtain ⟨hstart, hstop⟩ := toNat_ofLength start length (by omega)
  rw [within_iff, hstart, hstop]
  omega

/-- The lengths of the parts of a span that is split. -/
theorem length_split {size : Nat} {s : Span} (hs : s.within size = true) {m : UInt16}
    (hm : m ∈ s.midpoints) :
    s.start.toNat + (⟨s.start, m⟩ : Span).length = m.toNat ∧
      (⟨s.start, m⟩ : Span).length + (⟨m, s.stop⟩ : Span).length = s.length := by
  rw [mem_midpoints hs] at hm
  unfold length
  dsimp only
  omega

/-- The spans of one length that start at a position or after it. -/
def rowFrom (size length start : Nat) : List Span :=
  (List.range' start (size + 1 - length - start)).map fun start => ofLength start length

/-- The spans of a length or more, the shorter first and from left to right. -/
def rowsFrom (size length : Nat) : List Span :=
  (List.range' length (size + 1 - length)).flatMap fun length => rowFrom size length 0

theorem rowFrom_eq_cons {size length start : Nat} (h : start + length ≤ size) :
    rowFrom size length start = ofLength start length :: rowFrom size length (start + 1) := by
  unfold rowFrom
  rw [show size + 1 - length - start = (size + 1 - length - (start + 1)) + 1 by omega,
    List.range'_succ, List.map_cons]

theorem rowFrom_eq_nil {size length start : Nat} (h : size < start + length) :
    rowFrom size length start = [] := by
  unfold rowFrom
  rw [show size + 1 - length - start = 0 by omega]
  rfl

theorem rowsFrom_eq_append {size length : Nat} (h : length ≤ size) :
    rowsFrom size length = rowFrom size length 0 ++ rowsFrom size (length + 1) := by
  unfold rowsFrom
  rw [show size + 1 - length = (size + 1 - (length + 1)) + 1 by omega, List.range'_succ,
    List.flatMap_cons]

theorem rowsFrom_eq_nil {size length : Nat} (h : size < length) : rowsFrom size length = [] := by
  unfold rowsFrom
  rw [show size + 1 - length = 0 by omega]
  rfl

/-- The spans of a sentence, the shorter first and from left to right. -/
def byLength (size : Nat) : List Span := rowsFrom size 1

/-- A span comes before another bottom-up. -/
def Precedes (s t : Span) : Prop :=
  s.length < t.length ∨ (s.length = t.length ∧ s.start.toNat < t.start.toNat)

theorem mem_byLength {size : Nat} (hsize : size ≤ 65535) {s : Span} :
    s ∈ byLength size ↔ s.within size = true := by
  unfold byLength rowsFrom rowFrom
  rw [List.mem_flatMap]
  constructor
  · rintro ⟨length, hlength, hmem⟩
    obtain ⟨start, hstart, rfl⟩ := List.mem_map.1 hmem
    rw [List.mem_range'_1] at hlength hstart
    obtain ⟨hfirst, hstop⟩ := toNat_ofLength start length (by omega)
    rw [within_iff, hfirst, hstop]
    omega
  · intro h
    have hspan := ofLength_length h
    rw [within_iff] at h
    refine ⟨s.length, ?_, List.mem_map.2 ⟨s.start.toNat, ?_, hspan⟩⟩
    · rw [List.mem_range'_1]
      unfold length
      omega
    · rw [List.mem_range'_1]
      unfold length
      omega

theorem length_ofLength {start length : Nat} (h : start + length ≤ 65535) :
    (ofLength start length).length = length := by
  obtain ⟨hstart, hstop⟩ := toNat_ofLength start length h
  unfold Span.length
  rw [hstart, hstop]
  omega

theorem pairwise_byLength {size : Nat} (hsize : size ≤ 65535) :
    (byLength size).Pairwise Precedes := by
  unfold byLength rowsFrom rowFrom
  rw [List.pairwise_flatMap]
  constructor
  · intro length hlength
    rw [List.mem_range'_1] at hlength
    rw [List.pairwise_map]
    refine (List.pairwise_lt_range' 1).imp_of_mem fun {i j} hi hj hij => ?_
    rw [List.mem_range'_1] at hi hj
    right
    rw [length_ofLength (by omega), length_ofLength (by omega), (toNat_ofLength _ _ (by omega)).1,
      (toNat_ofLength _ _ (by omega)).1]
    exact ⟨rfl, hij⟩
  · refine (List.pairwise_lt_range' 1).imp_of_mem fun {i j} hi hj hij s hs t ht => ?_
    rw [List.mem_range'_1] at hi hj
    obtain ⟨k, hk, rfl⟩ := List.mem_map.1 hs
    obtain ⟨l, hl, rfl⟩ := List.mem_map.1 ht
    rw [List.mem_range'_1] at hk hl
    left
    rw [length_ofLength (by omega), length_ofLength (by omega)]
    exact hij

end Span

/-- The spans that a cursor goes on to hand out. -/
inductive Cursor.Yields : Cursor → List Span → Prop
  | nil {c : Cursor} (h : c.next? = none) : Yields c []
  | cons {c rest : Cursor} {span : Span} {spans : List Span} (h : c.next? = some (span, rest))
      (hrest : Yields rest spans) : Yields c (span :: spans)

namespace BottomUp

open Cursor

/-- A walk that is past the longest spans hands out nothing. -/
theorem yields_nil (length width start : UInt16)
    (h : width.toNat = 0 ∨ length.toNat < width.toNat) :
    Yields (.bottomUp ⟨length, width, start⟩) [] := by
  refine .nil ?_
  unfold Cursor.next? BottomUp.next?
  dsimp only
  rw [if_pos, Option.map_none]
  rw [UInt16.lt_iff_toNat_lt, ← UInt16.toNat_inj]
  exact h

/-- A walk hands out the span at its position, and goes on in the row or with the next one. -/
theorem yields_cons {length width start : UInt16} (hwidth : 0 < width.toNat)
    (hstop : start.toNat + width.toNat ≤ length.toNat) {spans : List Span}
    (h : Yields (.bottomUp (if start.toNat + width.toNat = length.toNat
      then ⟨length, width + 1, 0⟩ else ⟨length, width, start + 1⟩)) spans) :
    Yields (.bottomUp ⟨length, width, start⟩)
      (Span.ofLength start.toNat width.toNat :: spans) := by
  have hlength := length.toNat_lt
  have hsum : (start + width).toNat = start.toNat + width.toNat := by
    rw [UInt16.toNat_add]
    exact Nat.mod_eq_of_lt (by omega)
  have hspan : (⟨start, start + width⟩ : Span) = Span.ofLength start.toNat width.toNat := by
    obtain ⟨hfirst, hlast⟩ := Span.toNat_ofLength start.toNat width.toNat (by omega)
    exact Span.ext_toNat hfirst.symm (hsum.trans hlast.symm)
  have hwidth0 : ¬(width = 0 ∨ length < width) := by
    rw [UInt16.lt_iff_toNat_lt, ← UInt16.toNat_inj]
    change ¬(width.toNat = 0 ∨ _)
    omega
  refine .cons ?_ h
  unfold Cursor.next? BottomUp.next?
  dsimp only
  rw [if_neg hwidth0, Option.map_some, hspan]
  simp only [← UInt16.toNat_inj, hsum]

/-- A walk goes on to the end of the row and through all rows after it. -/
theorem yields (length width start : UInt16) (hwidth : 0 < width.toNat)
    (hstop : start.toNat + width.toNat ≤ length.toNat) :
    Yields (.bottomUp ⟨length, width, start⟩)
      (Span.rowFrom length.toNat width.toNat start.toNat
        ++ Span.rowsFrom length.toNat (width.toNat + 1)) := by
  have hlength := length.toNat_lt
  rw [Span.rowFrom_eq_cons hstop, List.cons_append]
  refine yields_cons hwidth hstop ?_
  split_ifs with hlast
  · have hnext : (width + 1).toNat = (width.toNat + 1) % 65536 := by simp [UInt16.toNat_add]
    rw [Span.rowFrom_eq_nil (by omega), List.nil_append]
    by_cases hmore : width.toNat < length.toNat
    · have hnext' : (width + 1).toNat = width.toNat + 1 := by omega
      have ih := yields length (width + 1) 0 (by omega) (by change 0 + _ ≤ _; omega)
      rw [hnext'] at ih
      rw [Span.rowsFrom_eq_append hmore]
      exact ih
    · rw [Span.rowsFrom_eq_nil (by omega)]
      exact yields_nil length (width + 1) 0 (by omega)
  · have hnext : (start + 1).toNat = start.toNat + 1 := by
      rw [UInt16.toNat_add]
      exact Nat.mod_eq_of_lt (by change start.toNat + 1 < _; omega)
    have ih := yields length width (start + 1) hwidth (by omega)
    rw [hnext] at ih
    exact ih
termination_by (length.toNat - width.toNat, length.toNat - start.toNat)
decreasing_by
  · exact Prod.Lex.left _ _ (by omega)
  · exact Prod.Lex.right _ (by omega)

end BottomUp

namespace Cursor

/-- A listed cursor hands out what is pending. -/
theorem yields_listed (order pending : List Span) : Yields (.listed order pending) pending := by
  induction pending with
  | nil => exact .nil rfl
  | cons span pending ih => exact .cons rfl ih

/-- The spans that a cursor hands out for a sentence. -/
def spansFor (length : UInt16) : Cursor → List Span
  | bottomUp _ => Span.byLength length.toNat
  | listed order _ => fitting length order

theorem yields_reset (length : UInt16) (c : Cursor) :
    Yields (c.reset length) (spansFor length c) := by
  cases c with
  | listed order pending => exact yields_listed order _
  | bottomUp walk =>
    change Yields (.bottomUp ⟨length, 1, 0⟩) (Span.rowsFrom length.toNat 1)
    by_cases hlength : 1 ≤ length.toNat
    · rw [Span.rowsFrom_eq_append hlength]
      exact BottomUp.yields length 1 0 (by decide) (by change 0 + 1 ≤ _; omega)
    · obtain rfl : length = 0 := UInt16.toNat_inj.1 (by change length.toNat = 0; omega)
      exact .nil rfl

/-- A cursor hands out spans of the sentence only. -/
theorem within_of_mem_spansFor {length : UInt16} {c : Cursor} {s : Span}
    (h : s ∈ spansFor length c) : s.within length.toNat = true := by
  cases c with
  | bottomUp walk => exact (Span.mem_byLength (by have := length.toNat_lt; omega)).1 h
  | listed order pending =>
    obtain ⟨-, hfits⟩ := List.mem_filter.1 h
    rw [Bool.and_eq_true, decide_eq_true_iff, decide_eq_true_iff, UInt16.lt_iff_toNat_lt,
      UInt16.le_iff_toNat_le] at hfits
    exact Span.within_iff.2 hfits

end Cursor

namespace Schedule

theorem next?_of_none {s : Schedule} (h : s.cursor.next? = none) : s.next? = (none, s) := by
  rw [next?]
  split
  · rfl
  · rename_i hsome
    rw [h] at hsome
    cases hsome

theorem next?_of_some {s : Schedule} {span : Span} {cursor : Cursor}
    (h : s.cursor.next? = some (span, cursor)) :
    s.next? = if s.skips span then { s with cursor }.next? else (some span, { s with cursor }) := by
  rw [next?]
  split
  · rename_i hnone
    rw [h] at hnone
    cases hnone
  · rename_i hsome
    rw [h] at hsome
    cases hsome
    rfl

theorem drain_of_none {s : Schedule} (h : s.cursor.next? = none) (reversed : List Span) :
    s.drain reversed = (reversed, s) := by
  have hnext := next?_of_none h
  rw [drain]
  split <;> simp_all

theorem drain_of_some {s : Schedule} {span : Span} {cursor : Cursor}
    (h : s.cursor.next? = some (span, cursor)) (reversed : List Span) :
    s.drain reversed = { s with cursor }.drain
      (if s.skips span then reversed else span :: reversed) := by
  have hnext := next?_of_some h
  by_cases hskip : s.skips span = true
  · rw [if_pos hskip] at hnext ⊢
    rw [drain, drain]
    split <;> split <;> simp_all
  · rw [if_neg hskip] at hnext ⊢
    rw [drain]
    split <;> simp_all

/-- Draining hands out what the cursor yields, less what is skipped. -/
theorem drain_eq {s : Schedule} {spans : List Span} (h : s.cursor.Yields spans)
    (reversed : List Span) :
    (s.drain reversed).1 = (spans.filter fun span => !s.skips span).reverse ++ reversed ∧
      (s.drain reversed).2.layers = s.layers := by
  generalize hcursor : s.cursor = cursor at h
  induction h generalizing s reversed with
  | nil hnone =>
    rw [drain_of_none (by rw [hcursor, hnone])]
    exact ⟨rfl, rfl⟩
  | @cons c rest span spans hnext hrest ih =>
    rw [drain_of_some (by rw [hcursor]; exact hnext)]
    obtain ⟨hspans, hlayers⟩ := ih (s := { s with cursor := rest }) _ rfl
    refine ⟨hspans.trans ?_, hlayers⟩
    change (spans.filter fun span => !s.skips span).reverse ++ _ = _
    rw [List.filter_cons]
    by_cases hskip : s.skips span = true
    · simp [hskip]
    · simp [hskip]

/-- The spans of a sentence are those that the cursor hands out and no layer skips. -/
theorem spans_eq (s : Schedule) (length : UInt16) :
    (s.spans length).1 = (s.cursor.spansFor length).filter (fun span => !s.skips span) ∧
      (s.spans length).2.layers = s.layers := by
  obtain ⟨hspans, hlayers⟩ := drain_eq (s := s.reset length)
    (Cursor.yields_reset length s.cursor) []
  unfold spans
  dsimp only
  rw [hspans, List.append_nil, List.reverse_reverse]
  exact ⟨rfl, hlayers⟩

theorem within_of_mem_spans {s : Schedule} {length : UInt16} {span : Span}
    (h : span ∈ (s.spans length).1) : span.within length.toNat = true := by
  rw [(s.spans_eq length).1] at h
  exact Cursor.within_of_mem_spansFor (List.mem_filter.1 h).1

/-- The limits that a schedule gives are those of its layers. -/
theorem limit?_spans (s : Schedule) (length : UInt16) (span : Span) :
    (s.spans length).2.limit? span = s.limit? span := by
  unfold limit?
  rw [(s.spans_eq length).2]

/-- The schedule bottom-up that leaves some spans out. -/
def skipping (walk : BottomUp) (skipped : List Span) : Schedule :=
  ⟨.bottomUp walk, [.skip skipped]⟩

/-- The spans of a sentence that are not left out, the shorter first. -/
def unskipped (length : Nat) (skipped : List Span) : List Span :=
  (Span.byLength length).filter fun s => !skipped.contains s

theorem spans_skipping (walk : BottomUp) {skipped : List Span} {length : Nat}
    (hlength : (UInt16.ofNat length).toNat = length) :
    ((skipping walk skipped).spans (UInt16.ofNat length)).1 = unskipped length skipped := by
  rw [(spans_eq _ _).1]
  unfold unskipped Cursor.spansFor skipping skips
  dsimp only
  rw [hlength]
  apply List.filter_congr
  intro s _
  simp [Layer.skips]

theorem mem_unskipped {length : Nat} (hlength : length ≤ 65535) {skipped : List Span} {s : Span} :
    s ∈ unskipped length skipped ↔ s.within length = true ∧ s ∉ skipped := by
  unfold unskipped
  rw [List.mem_filter, Span.mem_byLength hlength]
  simp

theorem pairwise_unskipped (length : Nat) (hlength : length ≤ 65535) (skipped : List Span) :
    (unskipped length skipped).Pairwise Span.Precedes :=
  (Span.pairwise_byLength hlength).filter _

end Schedule
end ChartParsing

import ChartParsing.Chart.Basic

/-!
# Schedules

A schedule hands out the spans of a sentence one by one, in the order in which
their cells are to be filled; cells of spans that are not handed out stay empty.
It walks the spans bottom-up or follows a list, and may be wrapped in layers that
leave spans out or limit the number of entries of single cells.
-/

namespace ChartParsing

/-- A walk over all spans, the shorter first and from left to right. -/
structure BottomUp where
  length : UInt16
  width : UInt16
  start : UInt16
  deriving DecidableEq, Repr, Inhabited

namespace BottomUp

def fresh : BottomUp := ⟨0, 0, 0⟩

def reset (length : UInt16) : BottomUp := ⟨length, 1, 0⟩

/-- The next span; positions count modulo `2 ^ 16`. -/
def next? (w : BottomUp) : Option (Span × BottomUp) :=
  if w.width = 0 ∨ w.length < w.width then none
  else
    let stop := w.start + w.width
    let rest : BottomUp :=
      if stop = w.length then { w with width := w.width + 1, start := 0 }
      else { w with start := w.start + 1 }
    some (⟨w.start, stop⟩, rest)

/-- More than the number of spans that are left: what is left of the row, and a
full row of positions for each greater width. -/
def remaining (w : BottomUp) : Nat :=
  if w.width = 0 ∨ w.length < w.width then 0
  else (w.length.toNat - w.width.toNat) * 65536
    + (w.length - w.width - w.start).toNat + 1

theorem remaining_lt {w rest : BottomUp} {span : Span} (h : w.next? = some (span, rest)) :
    rest.remaining < w.remaining := by
  unfold next? at h
  split at h
  · contradiction
  · rename_i hw
    simp only [not_or, UInt16.not_lt] at hw
    simp only [Option.some.injEq, Prod.mk.injEq] at h
    obtain ⟨-, rfl⟩ := h
    have hwl := UInt16.le_iff_toNat_le.1 hw.2
    have hl := w.length.toNat_lt
    have hs := w.start.toNat_lt
    have hpos : 0 < w.width.toNat := by
      rcases Nat.eq_zero_or_pos w.width.toNat with h0 | h0
      · exact absurd (UInt16.toNat_inj.1 (by simpa using h0)) hw.1
      · exact h0
    have hcur : w.remaining = (w.length.toNat - w.width.toNat) * 65536
        + (w.length - w.width - w.start).toNat + 1 := by
      unfold remaining
      rw [if_neg]
      rintro (h0 | h0)
      · exact hw.1 h0
      · have := UInt16.lt_iff_toNat_lt.1 h0; omega
    rw [hcur]
    split
    · unfold remaining
      split
      · omega
      · rename_i hn
        simp only [not_or, UInt16.not_lt] at hn
        have h2 := UInt16.le_iff_toNat_le.1 hn.2
        have hadd : (w.width + 1).toNat = (w.width.toNat + 1) % 65536 := by
          simp [UInt16.toNat_add]
        have hne : (w.width + 1).toNat ≠ 0 := fun h0 =>
          hn.1 (UInt16.toNat_inj.1 (by simpa using h0))
        have hlt := (w.length - (w.width + 1) - 0).toNat_lt
        simp only [] at h2 ⊢
        have hw1 : (w.width + 1).toNat = w.width.toNat + 1 := by
          have hwlt := w.width.toNat_lt
          omega
        rw [hw1] at h2 ⊢
        generalize (w.length - (w.width + 1) - 0).toNat = r at hlt ⊢
        omega
    · rename_i hne
      have hstep : (w.length - w.width - (w.start + 1)).toNat + 1
          = (w.length - w.width - w.start).toNat := by
        have hd : w.length - w.width - w.start ≠ 0 := by
          intro h0
          apply hne
          have : w.length - w.width = w.start := by
            have := congrArg (· + w.start) h0
            simpa using this
          rw [← this, UInt16.sub_add_cancel]
        have hnz : (w.length - w.width - w.start).toNat ≠ 0 := fun h0 =>
          hd (UInt16.toNat_inj.1 (by simpa using h0))
        have heq : w.length - w.width - (w.start + 1) = w.length - w.width - w.start - 1 := by
          grind
        rw [heq]
        generalize w.length - w.width - w.start = d at hnz ⊢
        have hd := d.toNat_lt
        simp only [UInt16.toNat_sub, UInt16.reduceToNat]
        omega
      unfold remaining
      split
      · omega
      · simp only [] at *
        omega

end BottomUp

/-- What a schedule walks: all spans, or those of a list that fit the sentence. -/
inductive Cursor
  | bottomUp (walk : BottomUp)
  | listed (order pending : List Span)
  deriving DecidableEq, Repr

namespace Cursor

/-- Spans of a list that are spans of a sentence. -/
def fitting (length : UInt16) (order : List Span) : List Span :=
  order.filter fun s => s.start < s.stop && s.stop ≤ length

def reset (length : UInt16) : Cursor → Cursor
  | bottomUp _ => bottomUp (.reset length)
  | listed order _ => listed order (fitting length order)

def next? : Cursor → Option (Span × Cursor)
  | bottomUp walk => walk.next?.map fun (span, walk) => (span, bottomUp walk)
  | listed _ [] => none
  | listed order (span :: pending) => some (span, listed order pending)

def remaining : Cursor → Nat
  | bottomUp walk => walk.remaining
  | listed _ pending => pending.length

theorem remaining_lt {c rest : Cursor} {span : Span} (h : c.next? = some (span, rest)) :
    rest.remaining < c.remaining := by
  match c with
  | bottomUp walk =>
    simp only [next?, Option.map_eq_some_iff, Prod.exists, Prod.mk.injEq] at h
    obtain ⟨_, walk', hw, rfl, rfl⟩ := h
    exact BottomUp.remaining_lt hw
  | listed order (_ :: pending) =>
    simp only [next?, Option.some.injEq, Prod.mk.injEq] at h
    obtain ⟨-, rfl⟩ := h
    simp [remaining]

end Cursor

/-- What is wrapped around a walk. -/
inductive Layer
  /-- Leaves spans out. -/
  | skip (spans : List Span)
  /-- Limits the entries of cells; of two limits for one span the later counts. -/
  | widths (limits : List (Span × Nat))
  deriving DecidableEq, Repr

namespace Layer

def skips (span : Span) : Layer → Bool
  | skip spans => spans.contains span
  | widths _ => false

def limit? (span : Span) : Layer → Option Nat
  | skip _ => none
  | widths limits => limits.reverse.lookup span

end Layer

def tighter : Option Nat → Option Nat → Option Nat
  | some a, some b => some (min a b)
  | some a, none => some a
  | none, b => b

/-- A walk with its layers, the innermost first. -/
structure Schedule where
  cursor : Cursor
  layers : List Layer
  deriving DecidableEq, Repr

namespace Schedule

def bottomUp : Schedule := ⟨.bottomUp .fresh, []⟩

variable (s : Schedule)

/-- The schedule at the start of a sentence, whatever was handed out before. -/
def reset (length : UInt16) : Schedule := { s with cursor := s.cursor.reset length }

def skips (span : Span) : Bool := s.layers.any (·.skips span)

def limit? (span : Span) : Option Nat :=
  s.layers.foldl (fun limit layer => tighter (layer.limit? span) limit) none

/-- The next span that no layer leaves out. -/
def next? (s : Schedule) : Option Span × Schedule :=
  match h : s.cursor.next? with
  | none => (none, s)
  | some (span, cursor) =>
    have := Cursor.remaining_lt h
    let rest := { s with cursor }
    if s.skips span then rest.next? else (some span, rest)
termination_by s.cursor.remaining

theorem remaining_next?_le (s : Schedule) :
    s.next?.2.cursor.remaining ≤ s.cursor.remaining := by
  fun_induction next? s with
  | case1 s h => exact Nat.le_refl _
  | case2 s span cursor h hlt rest hs ih => exact Nat.le_trans ih (Nat.le_of_lt hlt)
  | case3 s span cursor h hlt rest hs => exact Nat.le_of_lt hlt

theorem remaining_lt {s rest : Schedule} {span : Span} (h : s.next? = (some span, rest)) :
    rest.cursor.remaining < s.cursor.remaining := by
  rw [next?] at h
  split at h
  · simp at h
  · rename_i span' cursor hc
    have hlt := Cursor.remaining_lt hc
    split at h
    · have := remaining_next?_le { s with cursor }
      rw [h] at this
      exact Nat.lt_of_le_of_lt this hlt
    · simp only [Prod.mk.injEq] at h
      rw [← h.2]
      exact hlt

/-- Hands out all spans that are left, last first. -/
def drain (s : Schedule) (reversed : List Span) : List Span × Schedule :=
  match h : s.next? with
  | (some span, rest) =>
    have := remaining_lt h
    rest.drain (span :: reversed)
  | (none, rest) => (reversed, rest)
termination_by s.cursor.remaining

/-- The spans of a sentence in the order in which they are handed out, and the
schedule after them. -/
def spans (length : UInt16) : List Span × Schedule :=
  let (reversed, rest) := (s.reset length).drain []
  (reversed.reverse, rest)

end Schedule
end ChartParsing

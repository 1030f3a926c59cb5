import ChartParsing.Proofs.Parser.Order
import Mathlib.Order.Bounds.Basic

/-!
# Calls for the next span

A schedule is asked for one span after another. Its layers act as if each were wrapped around the
schedule inside it. However they are stacked around a walk bottom-up, the calls after a reset have
every span that no layer skips for an answer, each once and the shorter first, and after these no
more; and the limit of a cell is the least that a layer gives it.
-/

namespace ChartParsing

theorem Span.not_precedes_self (s : Span) : ¬s.Precedes s := by
  simp [Span.Precedes]

/-! ## Limits -/

/-- The least of some limits, or none if there are none. -/
def LeastOf (limits : Set Nat) : Option Nat → Prop
  | some width => IsLeast limits width
  | none => limits = ∅

theorem LeastOf.eq_some_iff {limits : Set Nat} {limit : Option Nat} (h : LeastOf limits limit)
    {width : Nat} : limit = some width ↔ IsLeast limits width := by
  cases limit with
  | none =>
    obtain rfl : limits = ∅ := h
    simp [IsLeast]
  | some least =>
    constructor
    · rintro ⟨⟩
      exact h
    · intro hwidth
      exact congrArg some (IsLeast.unique h hwidth)

theorem LeastOf.eq_none_iff {limits : Set Nat} {limit : Option Nat} (h : LeastOf limits limit) :
    limit = none ↔ ∀ width, width ∉ limits := by
  cases limit with
  | none => simpa using Set.eq_empty_iff_forall_notMem.1 h
  | some least => simpa using ⟨least, h.1⟩

/-- The tighter of two limits is the least of all that they are the least of. -/
theorem LeastOf.tighter {limits limits' : Set Nat} {limit limit' : Option Nat}
    (h : LeastOf limits limit) (h' : LeastOf limits' limit') :
    LeastOf (limits ∪ limits') (tighter limit limit') := by
  cases limit with
  | none =>
    obtain rfl : limits = ∅ := h
    simpa [ChartParsing.tighter] using h'
  | some width =>
    cases limit' with
    | none =>
      obtain rfl : limits' = ∅ := h'
      simpa [ChartParsing.tighter] using h
    | some width' => exact IsLeast.union h h'

/-- A layer gives a limit to the cell of a span: the last that its list has for the span. -/
def Layer.Limits (layer : Layer) (span : Span) (width : Nat) : Prop :=
  ∃ before later, layer = .widths (before ++ (span, width) :: later) ∧ ∀ w, (span, w) ∉ later

theorem Layer.limit?_eq_some {layer : Layer} {span : Span} {width : Nat} :
    layer.limit? span = some width ↔ layer.Limits span width := by
  cases layer with
  | skip spans => simp [Layer.limit?, Layer.Limits]
  | widths limits =>
    simp only [Layer.limit?, List.lookup_eq_some_iff, Layer.Limits, Layer.widths.injEq]
    constructor
    · rintro ⟨later, before, hreverse, hlater⟩
      refine ⟨before.reverse, later.reverse, ?_, fun w hw => ?_⟩
      · simpa using congrArg List.reverse hreverse
      · simpa using hlater (span, w) (List.mem_reverse.1 hw)
    · rintro ⟨before, later, rfl, hlater⟩
      refine ⟨later.reverse, before.reverse, by simp, ?_⟩
      rintro ⟨span', w⟩ hw
      simp only [bne_iff_ne]
      rintro rfl
      exact hlater w (List.mem_reverse.1 hw)

theorem Layer.limit?_eq_none {layer : Layer} {span : Span} :
    layer.limit? span = none ↔ ∀ limits, layer = .widths limits → ∀ w, (span, w) ∉ limits := by
  cases layer with
  | skip spans => simp [Layer.limit?]
  | widths limits =>
    simp only [Layer.limit?, List.lookup_eq_none_iff, Layer.widths.injEq, forall_eq']
    constructor
    · intro h w hw
      simpa using h (span, w) (List.mem_reverse.2 hw)
    · rintro h ⟨span', w⟩ hw
      simp only [bne_iff_ne]
      rintro rfl
      exact h w (List.mem_reverse.1 hw)

theorem Layer.leastOf_limit? (layer : Layer) (span : Span) :
    LeastOf {w | layer.Limits span w} (layer.limit? span) := by
  simp only [← Layer.limit?_eq_some]
  cases layer.limit? span with
  | none => simp [LeastOf]
  | some width => simp [LeastOf, IsLeast, lowerBounds]

namespace Schedule

variable {s : Schedule}

/-! ## Layers wrap one another -/

/-- The schedule with one more layer around it. -/
def wrap (s : Schedule) (layer : Layer) : Schedule := { s with layers := s.layers ++ [layer] }

@[simp] theorem skips_wrap (s : Schedule) (layer : Layer) (span : Span) :
    (s.wrap layer).skips span = (s.skips span || layer.skips span) := by
  simp [skips, wrap]

@[simp] theorem limit?_wrap (s : Schedule) (layer : Layer) (span : Span) :
    (s.wrap layer).limit? span = tighter (layer.limit? span) (s.limit? span) := by
  simp [limit?, wrap]

/-- A layer asks the schedule inside it for spans until there is one that it does not skip. -/
theorem next?_wrap (s : Schedule) (layer : Layer) :
    (s.wrap layer).next? =
      match s.next? with
      | (some span, rest) =>
        if layer.skips span then (rest.wrap layer).next? else (some span, rest.wrap layer)
      | (none, rest) => (none, rest.wrap layer) := by
  fun_induction next? s with
  | case1 s h => exact next?_of_none h
  | case2 s span cursor h hlt rest hskip ih =>
    have hwrap : (s.wrap layer).skips span = true := by simp [hskip]
    rw [next?_of_some (s := s.wrap layer) h, if_pos hwrap]
    exact ih
  | case3 s span cursor h hlt rest hskip =>
    rw [next?_of_some (s := s.wrap layer) h]
    simp [hskip]
    rfl

/-- The limit of a cell is the least that a layer gives it. -/
theorem leastOf_limit? (cursor : Cursor) (layers : List Layer) (span : Span) :
    LeastOf {w | ∃ layer ∈ layers, layer.Limits span w}
      ((⟨cursor, layers⟩ : Schedule).limit? span) := by
  induction layers using List.reverseRecOn with
  | nil => simp [limit?, LeastOf]
  | append_singleton layers layer ih =>
    have hset : {w | ∃ l ∈ layers ++ [layer], l.Limits span w} =
        {w | layer.Limits span w} ∪ {w | ∃ l ∈ layers, l.Limits span w} := by
      ext w
      simp [or_and_right, exists_or, or_comm]
    have hwrap := limit?_wrap ⟨cursor, layers⟩ layer span
    rw [hset]
    exact hwrap ▸ (Layer.leastOf_limit? layer span).tighter ih

example : (⟨.bottomUp .fresh, [.widths [(⟨0, 3⟩, 2)], .widths [(⟨0, 3⟩, 1), (⟨0, 3⟩, 5)]]⟩ :
    Schedule).limit? ⟨0, 3⟩ = some 2 := by decide

/-- A cell has no limit just if no layer lists its span. -/
theorem limit?_eq_none (cursor : Cursor) (layers : List Layer) (span : Span) :
    (⟨cursor, layers⟩ : Schedule).limit? span = none ↔
      ∀ limits, .widths limits ∈ layers → ∀ w, (span, w) ∉ limits := by
  have hlayer (layer : Layer) : (∀ w, ¬layer.Limits span w) ↔
      ∀ limits, layer = .widths limits → ∀ w, (span, w) ∉ limits := by
    rw [← Layer.limit?_eq_none, (Layer.leastOf_limit? layer span).eq_none_iff]
    rfl
  rw [(leastOf_limit? cursor layers span).eq_none_iff]
  constructor
  · intro h limits hlimits
    exact (hlayer _).1 (fun w hw => h w ⟨_, hlimits, hw⟩) limits rfl
  · rintro h w ⟨layer, hmem, hw⟩
    exact (hlayer layer).2 (fun limits hlimits => h limits (hlimits ▸ hmem)) w hw

/-! ## Calls one after another -/

/-- The schedule after so many calls for the next span. -/
def after (s : Schedule) : Nat → Schedule
  | 0 => s
  | count + 1 => s.next?.2.after count

@[simp] theorem after_zero (s : Schedule) : s.after 0 = s := rfl

@[simp] theorem after_succ (s : Schedule) (count : Nat) :
    s.after (count + 1) = s.next?.2.after count := rfl

theorem layers_next? (s : Schedule) : s.next?.2.layers = s.layers := by
  fun_induction next? s with
  | case1 s h => rfl
  | case2 s span cursor h hlt rest hskip ih => exact ih
  | case3 s span cursor h hlt rest hskip => rfl

theorem layers_after (s : Schedule) (count : Nat) : (s.after count).layers = s.layers := by
  induction count generalizing s with
  | zero => rfl
  | succ count ih => rw [after_succ, ih, layers_next?]

/-- Schedules that answer a call alike answer all calls after it alike. -/
theorem next?_after_congr {s t : Schedule} (h : s.next? = t.next?) (count : Nat) :
    (s.after count).next? = (t.after count).next? := by
  cases count with
  | zero => exact h
  | succ count => rw [after_succ, after_succ, h]

/-- The answers are what the cursor yields, less what is skipped, and after that there are none. -/
theorem next?_after {spans : List Span} (h : s.cursor.Yields spans) (count : Nat) :
    ((s.after count).next?).1 = (spans.filter fun span => !s.skips span)[count]? := by
  generalize hcursor : s.cursor = cursor at h
  induction h generalizing s count with
  | nil hnone =>
    have hnext := next?_of_none (s := s) (hcursor ▸ hnone)
    have hrest : (s.after count).next? = (none, s) := by
      induction count with
      | zero => exact hnext
      | succ count ih => rwa [after_succ, hnext]
    simp [hrest]
  | @cons c rest span spans hsome hrest ih =>
    have hnext := next?_of_some (s := s) (hcursor ▸ hsome)
    have ih (count : Nat) : (({ s with cursor := rest }.after count).next?).1 =
        (spans.filter fun span => !s.skips span)[count]? := ih count rfl
    by_cases hskip : s.skips span = true
    · rw [if_pos hskip] at hnext
      rw [next?_after_congr hnext, ih]
      simp [hskip]
    · rw [if_neg hskip] at hnext
      cases count with
      | zero => simp [hnext, hskip]
      | succ count => simp [hnext, hskip, ih]

theorem skips_eq_false {span : Span} :
    s.skips span = false ↔ ∀ skipped, .skip skipped ∈ s.layers → span ∉ skipped := by
  simp only [skips, List.any_eq_false]
  constructor
  · intro h skipped hskipped
    simpa [Layer.skips] using h _ hskipped
  · intro h layer hlayer
    cases layer with
    | skip skipped => simpa [Layer.skips] using h skipped hlayer
    | widths limits => simp [Layer.skips]

/-- A span comes before those that strictly contain it. -/
theorem lt_of_inside {size : Nat} {spans : List Span} (hspans : spans.Pairwise Span.Precedes)
    (hwithin : ∀ span ∈ spans, span.within size = true) {i j : Nat} {inner outer : Span}
    (hi : spans[i]? = some inner) (hj : spans[j]? = some outer) (h : inner.Inside outer) :
    i < j := by
  obtain ⟨hi', rfl⟩ := List.getElem?_eq_some_iff.1 hi
  obtain ⟨hj', rfl⟩ := List.getElem?_eq_some_iff.1 hj
  rcases Nat.lt_trichotomy i j with hlt | rfl | hgt
  · exact hlt
  · exact absurd h (Span.not_inside_self _)
  · have hprecedes := List.pairwise_iff_getElem.1 hspans j i hj' hi' hgt
    exact absurd h (Span.not_inside_of_precedes (hwithin _ (List.getElem_mem hj')) hprecedes)

/-- Whatever was asked of a walk before and whatever layers are around it, after a reset the calls
hand out the spans of the sentence that no layer skips, each once, the shorter first and from left
to right, and then none for good. The limit that goes with a span is the least that a layer gives
it, at any time. A list of layers stands for schedules wrapped in one another: by `next?_wrap` the
outermost layer asks the schedule without it, and by `limit?_wrap` it tightens its limit. -/
theorem next?_after_reset (walk : BottomUp) (layers : List Layer) (length : UInt16) :
    let s : Schedule := ⟨.bottomUp walk, layers⟩
    let spans := (s.spans length).1
    (∀ count, ((s.reset length).after count).next?.1 = spans[count]?) ∧
      (∀ span, span ∈ spans ↔ span.start < span.stop ∧ span.stop ≤ length ∧
        ∀ skipped, .skip skipped ∈ layers → span ∉ skipped) ∧
      spans.Pairwise Span.Precedes ∧ spans.Nodup ∧
      (∀ (i j : Nat) (inner outer : Span), spans[i]? = some inner → spans[j]? = some outer →
        inner.Inside outer → i < j) ∧
      ∀ count span,
        (∀ width, ((s.reset length).after count).limit? span = some width ↔
          IsLeast {w | ∃ layer ∈ layers, layer.Limits span w} width) ∧
        (((s.reset length).after count).limit? span = none ↔
          ∀ limits, .widths limits ∈ layers → ∀ w, (span, w) ∉ limits) := by
  intro s spans
  have hlength : length.toNat ≤ 65535 := Nat.le_of_lt_succ length.toNat_lt
  have hspans : spans = (Span.byLength length.toNat).filter fun span => !s.skips span :=
    (s.spans_eq length).1
  have hmem (span : Span) : span ∈ spans ↔
      span.within length.toNat = true ∧ s.skips span = false := by
    simp [hspans, Span.mem_byLength hlength]
  have hpairwise : spans.Pairwise Span.Precedes := by
    rw [hspans]
    exact (Span.pairwise_byLength hlength).filter _
  refine ⟨fun count => ?_, fun span => ?_, hpairwise, hpairwise.imp ?_, ?_, ?_⟩
  · rw [hspans]
    exact next?_after (s := s.reset length) (Cursor.yields_reset length (.bottomUp walk)) count
  · rw [hmem, Span.within_iff, skips_eq_false, UInt16.lt_iff_toNat_lt, UInt16.le_iff_toNat_le,
      and_assoc]
  · rintro span _ hprecedes rfl
    exact Span.not_precedes_self span hprecedes
  · intro i j inner outer
    exact lt_of_inside hpairwise fun span hspan => ((hmem span).1 hspan).1
  · intro count span
    have hlayers : ((s.reset length).after count).layers = layers := layers_after _ count
    rw [← hlayers]
    exact ⟨fun width => (leastOf_limit? _ _ span).eq_some_iff, limit?_eq_none _ _ span⟩

end Schedule
end ChartParsing

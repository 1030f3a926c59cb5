import ChartParsing.Proofs.Chart.UnaryStep
import ChartParsing.Proofs.Grammar.Repacked
import Mathlib.Data.List.Forall2

/-!
# Charts alike but for keys

Under two packings the same children go by different keys. Entries are alike if they differ
in nothing else, and cells, charts and tables are alike if they have alike entries in the
same places. Filling a cell looks at keys only to find rules, so with grammars that are one
the other packed anew all steps lead from what is alike to what is alike.
-/

namespace ChartParsing

/-- Two pointers lead to the same children, each under a packing of its own. -/
inductive Children.Alike (p q : Packing) : Children → Children → Prop
  | binary {key key' : UInt32} {pair : UInt16 × UInt16} (h : p.unpack key = some pair)
      (h' : q.unpack key' = some pair) : Alike p q (.binary key) (.binary key')
  | unary (child : UInt16) : Alike p q (.unary child) (.unary child)
  | lexical (word : UInt32) : Alike p q (.lexical word) (.lexical word)

/-- Two entries differ at most in the key of their children. -/
structure ChartEntry.Alike (p q : Packing) (d e : ChartEntry) : Prop where
  nt : e.nt = d.nt
  inside : e.inside = d.inside
  children : d.children.Alike p q e.children
  midpoint : e.midpoint = d.midpoint

/-- Two cells have alike entries. -/
def Cell.Alike (p q : Packing) (c d : Cell) : Prop :=
  List.Forall₂ (ChartEntry.Alike p q) c.toList d.toList

/-- Two charts have alike cells. -/
structure Chart.Alike (p q : Packing) (c d : Chart) : Prop where
  size : d.size = c.size
  cells : List.Forall₂ (Cell.Alike p q) c.cells.toList d.cells.toList

/-- Two tables have alike entries, also in places that are not listed. -/
structure Scratch.Alike (p q : Packing) (s t : Scratch) : Prop where
  inside : t.inside = s.inside
  children : List.Forall₂ (Children.Alike p q) s.children.toList t.children.toList
  midpoints : t.midpoints = s.midpoints
  populated : t.populated = s.populated
  places : s.children.size = s.inside.size

theorem rel_getElem? {α β : Type} {R : α → β → Prop} {xs : List α} {ys : List β}
    (h : List.Forall₂ R xs ys) (i : Nat) : Option.Rel R xs[i]? ys[i]? := by
  induction h generalizing i with
  | nil => exact .none
  | cons hxy _ ih =>
    cases i with
    | zero => exact .some hxy
    | succ i => exact ih i

theorem forall₂_set {α β : Type} {R : α → β → Prop} {xs : List α} {ys : List β}
    (h : List.Forall₂ R xs ys) {x : α} {y : β} (hxy : R x y) (i : Nat) :
    List.Forall₂ R (xs.set i x) (ys.set i y) := by
  induction h generalizing i with
  | nil => exact .nil
  | cons hhead htail ih =>
    cases i with
    | zero => exact .cons hxy htail
    | succ i => exact .cons hhead (ih i)

theorem forall₂_takeWhile {α β : Type} {R : α → β → Prop} {p : α → Bool} {q : β → Bool}
    (hpq : ∀ x y, R x y → q y = p x) {xs : List α} {ys : List β} (h : List.Forall₂ R xs ys) :
    List.Forall₂ R (xs.takeWhile p) (ys.takeWhile q) := by
  induction h with
  | nil => exact .nil
  | @cons x y xs ys hxy _ ih =>
    rw [List.takeWhile_cons, List.takeWhile_cons, hpq x y hxy]
    split_ifs
    · exact .cons hxy ih
    · exact .nil

/-- Lists that are mapped alike are mapped to one list. -/
theorem map_eq_of_forall₂ {α β γ : Type} {R : α → β → Prop} {f : α → γ} {g : β → γ}
    (hfg : ∀ x y, R x y → g y = f x) {xs : List α} {ys : List β} (h : List.Forall₂ R xs ys) :
    ys.map g = xs.map f := by
  induction h with
  | nil => rfl
  | cons hxy _ ih => rw [List.map_cons, List.map_cons, hfg _ _ hxy, ih]

theorem flatMap_eq_of_forall₂ {α β γ : Type} {R : α → β → Prop} {f : α → List γ}
    {g : β → List γ} (hfg : ∀ x y, R x y → g y = f x) {xs : List α} {ys : List β}
    (h : List.Forall₂ R xs ys) : ys.flatMap g = xs.flatMap f := by
  rw [List.flatMap_def, List.flatMap_def, map_eq_of_forall₂ hfg h]

theorem map_eq_of_rel {α β γ : Type} {R : α → β → Prop} {f : α → γ} {g : β → γ}
    (hfg : ∀ x y, R x y → g y = f x) {x : Option α} {y : Option β} (h : Option.Rel R x y) :
    y.map g = x.map f := by
  cases h with
  | none => rfl
  | some hxy => exact congrArg some (hfg _ _ hxy)

theorem getD_of_rel {α β : Type} {R : α → β → Prop} {x : Option α} {y : Option β}
    (h : Option.Rel R x y) {a : α} {b : β} (hab : R a b) : R (x.getD a) (y.getD b) := by
  cases h with
  | none => exact hab
  | some hxy => exact hxy

variable {p q : Packing}

theorem Children.Alike.symm {x y : Children} (h : x.Alike p q y) : y.Alike q p x := by
  cases h with
  | binary hkey hkey' => exact .binary hkey' hkey
  | unary child => exact .unary child
  | lexical word => exact .lexical word

theorem ChartEntry.Alike.symm {d e : ChartEntry} (h : d.Alike p q e) : e.Alike q p d :=
  ⟨h.nt.symm, h.inside.symm, h.children.symm, h.midpoint.symm⟩

namespace Cell

variable {c d : Cell}

theorem Alike.symm (h : Alike p q c d) : Alike q p d c :=
  (List.Forall₂.imp (fun _ _ hentry => hentry.symm) h).flip

theorem Alike.getElem? (h : Alike p q c d) (i : Nat) :
    Option.Rel (ChartEntry.Alike p q) c.entries[i]? d.entries[i]? := by
  rw [← getElem?_toList, ← getElem?_toList]
  exact rel_getElem? h i

theorem Alike.size (h : Alike p q c d) : d.size = c.size := by
  rw [← length_toList, ← length_toList, List.Forall₂.length_eq h]

theorem Alike.nt (h : Alike p q c d) :
    (fun i : Nat => d.entries[i]?.map (·.nt)) = fun i : Nat => c.entries[i]?.map (·.nt) := by
  funext i
  exact map_eq_of_rel (fun _ _ hentry => hentry.nt) (h.getElem? i)

/-- Non-terminals are found in the same places. -/
theorem Alike.get? (h : Alike p q c d) (nt : UInt16) :
    Option.Rel (ChartEntry.Alike p q) (c.get? nt) (d.get? nt) := by
  unfold Cell.get? indexOf?
  rw [h.nt, h.size]
  cases SortedSearch.find? nt (fun i => c.entries[i]?.map (·.nt)) 0 c.size with
  | none => exact .none
  | some i => exact h.getElem? i

theorem Alike.siblingsIn (h : Alike p q c d) (range : UInt16 × UInt16) :
    List.Forall₂ (ChartEntry.Alike p q) (PairTable.siblingsIn range c)
      (PairTable.siblingsIn range d) := by
  have hfirst : (fun i : Nat => (d.entries[i]?).any fun e => decide (e.nt < range.1)) =
      fun i : Nat => (c.entries[i]?).any fun e => decide (e.nt < range.1) := by
    funext i
    have hnt := congrArg (Option.any fun nt => decide (nt < range.1)) (congrFun h.nt i)
    simpa only [Option.any_map] using hnt
  unfold PairTable.siblingsIn
  dsimp only
  rw [hfirst, h.size, Array.toList_extract, Array.toList_extract, List.extract_eq_take_drop,
    List.extract_eq_take_drop]
  refine forall₂_takeWhile (fun e e' he => ?_) (List.forall₂_take _ (List.forall₂_drop _ h))
  rw [he.nt]

end Cell

namespace Chart

variable {c d : Chart}

theorem Alike.symm (h : Alike p q c d) : Alike q p d c :=
  ⟨h.size.symm, (h.cells.imp fun _ _ hcell => hcell.symm).flip⟩

theorem Alike.cell (h : Alike p q c d) (s : Span) : (c.cell s).Alike p q (d.cell s) := by
  unfold Chart.cell Chart.index
  have hcells := rel_getElem? h.cells (s.index c.size)
  rw [Array.getElem?_toList, Array.getElem?_toList] at hcells
  rw [h.size, Array.getD_eq_getD_getElem?, Array.getD_eq_getD_getElem?]
  exact getD_of_rel hcells List.Forall₂.nil

theorem Alike.replace (h : Alike p q c d) (s : Span) {cell cell' : Cell}
    (hcell : cell.Alike p q cell') : (c.replace s cell).2.Alike p q (d.replace s cell').2 := by
  refine ⟨h.size, ?_⟩
  unfold Chart.replace Chart.index
  dsimp only
  rw [h.size, Array.toList_setIfInBounds, Array.toList_setIfInBounds]
  exact forall₂_set h.cells hcell _

/-- Charts without entries are alike. -/
theorem alike_clear (c d : Chart) {size : Nat} (h : size ≤ 65535) :
    (c.clear size).Alike p q (d.clear size) := by
  refine ⟨rfl, ?_⟩
  rw [clear_congr d c h, List.forall₂_same]
  intro cell hcell
  rw [mem_clear size (Array.mem_toList_iff.1 hcell)]
  exact .nil

end Chart

namespace Scratch

variable {s t : Scratch}

theorem alike_new (p q : Packing) (count : Nat) : (new count).Alike p q (new count) := by
  refine ⟨rfl, ?_, rfl, rfl, ?_⟩
  · rw [List.forall₂_same]
    intro child hchild
    simp only [new, Array.toList_replicate] at hchild
    rw [List.eq_of_mem_replicate hchild]
    exact .unary 0
  · simp [new]

theorem Alike.insideOf (h : Alike p q s t) (nt : UInt16) : t.insideOf nt = s.insideOf nt := by
  unfold Scratch.insideOf
  rw [h.inside]

theorem Alike.write (h : Alike p q s t) {d e : ChartEntry} (hde : d.Alike p q e) :
    (s.write d).Alike p q (t.write e) := by
  refine ⟨?_, ?_, ?_, ?_, ?_⟩
  · simp only [Scratch.write, h.inside, hde.nt, hde.inside]
  · simp only [Scratch.write, hde.nt, Array.toList_setIfInBounds]
    exact forall₂_set h.children hde.children _
  · simp only [Scratch.write, h.midpoints, hde.nt, hde.midpoint]
  · simp only [Scratch.write, h.insideOf, h.populated, hde.nt]
  · simp only [Scratch.write, Array.size_setIfInBounds, h.places]

theorem Alike.update (h : Alike p q s t) {d e : ChartEntry} (hde : d.Alike p q e) :
    (s.update d).2.Alike p q (t.update e).2 := by
  rw [update_eq, update_eq, h.insideOf, hde.nt, hde.inside]
  split_ifs
  · exact h.write hde
  · exact h

theorem Alike.set (h : Alike p q s t) {d e : ChartEntry} (hde : d.Alike p q e) :
    (s.set d).Alike p q (t.set e) := by
  rw [set_eq, set_eq, hde.inside]
  split_ifs
  · exact h
  · exact h.write hde

theorem Alike.updateAll (h : Alike p q s t) {entries entries' : List ChartEntry}
    (hentries : List.Forall₂ (ChartEntry.Alike p q) entries entries') :
    (updateAll entries s).Alike p q (updateAll entries' t) := by
  induction hentries generalizing s t with
  | nil => exact h
  | cons hde _ ih => exact ih (h.update hde)

theorem Alike.reset (h : Alike p q s t) : s.reset.Alike p q t.reset := by
  refine ⟨?_, h.children, ?_, rfl, ?_⟩
  · simp only [Scratch.reset, h.inside, h.populated]
  · simp only [Scratch.reset, h.midpoints, h.populated]
  · simp only [Scratch.reset, ← Array.foldl_toList, size_foldl_set, h.places]

theorem Alike.sorted (h : Alike p q s t) : t.sorted = s.sorted := by
  unfold Scratch.sorted
  rw [h.populated]

theorem Alike.sort (h : Alike p q s t) : s.sort.Alike p q t.sort :=
  ⟨h.inside, h.children, h.midpoints, by simp only [Scratch.sort, h.sorted], h.places⟩

/-- What a place holds, if the table has it. -/
theorem Alike.place (h : Alike p q s t) {nt : UInt16} (hlt : nt.toNat < s.inside.size) :
    (s.place nt).Alike p q (t.place nt) := by
  refine ⟨rfl, h.insideOf nt, ?_, ?_⟩
  · have hchildren := rel_getElem? h.children nt.toNat
    rw [Array.getElem?_toList, Array.getElem?_toList,
      Array.getElem?_eq_getElem (h.places ▸ hlt)] at hchildren
    simp only [Scratch.place, Array.getD_eq_getD_getElem?,
      Array.getElem?_eq_getElem (h.places ▸ hlt)]
    generalize t.children[nt.toNat]? = child at hchildren
    cases hchildren with
    | some hchild => exact hchild
  · simp only [Scratch.place, h.midpoints]

theorem lt_of_insideOf {nt : UInt16} (h : s.insideOf nt ≠ Score.absent) :
    nt.toNat < s.inside.size := by
  by_contra hge
  rw [insideOf, Array.getD_eq_getD_getElem?, Array.getElem?_eq_none (by omega)] at h
  exact h rfl

theorem Alike.entryOf? (h : Alike p q s t) (nt : UInt16) :
    Option.Rel (ChartEntry.Alike p q) (s.entryOf? nt) (t.entryOf? nt) := by
  unfold Scratch.entryOf?
  rw [h.insideOf]
  split_ifs with hpresent
  · exact .some (h.place (lt_of_insideOf (bne_absent.1 hpresent)))
  · exact .none

/-- Finished cells are alike. -/
theorem Alike.finalizeInto {count : Nat} (h : Alike p q s t) (hs : s.Valid count)
    (cell cell' : Cell) : (s.finalizeInto cell).1.Alike p q (t.finalizeInto cell').1 := by
  unfold Cell.Alike
  rw [toList_finalizeInto, toList_finalizeInto, h.sorted, List.forall₂_map_left_iff,
    List.forall₂_map_right_iff, List.forall₂_same]
  intro nt hnt
  refine h.place ?_
  rw [hs.inside_size]
  exact hs.lt (s.sorted_perm.mem_iff.1 hnt)

end Scratch
end ChartParsing

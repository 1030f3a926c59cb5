import ChartParsing.Proofs.Chart.UnaryStep
import ChartParsing.Proofs.Grammar.Renumbered

/-!
# Charts with other numbers of words

The number of a word is kept in the entries of its tags, and nothing that is derived from them
looks at it. So when words are numbered anew, everything that fills a cell commutes with
writing the new numbers in place of the old ones.
-/

namespace ChartParsing

variable (f : UInt32 → UInt32)

/-! ## Entries, cells and charts -/

/-- The children with the word numbered anew. -/
def Children.mapWord : Children → Children
  | .binary key => .binary key
  | .unary child => .unary child
  | .lexical word => .lexical (f word)

def ChartEntry.mapWord (e : ChartEntry) : ChartEntry :=
  { e with children := e.children.mapWord f }

@[simp] theorem ChartEntry.nt_mapWord (e : ChartEntry) : (e.mapWord f).nt = e.nt := rfl

@[simp] theorem ChartEntry.inside_mapWord (e : ChartEntry) : (e.mapWord f).inside = e.inside := rfl

namespace Cell

def mapWord (c : Cell) : Cell := ⟨c.entries.map (·.mapWord f)⟩

variable (c : Cell)

@[simp] theorem mapWord_empty : (∅ : Cell).mapWord f = ∅ := by
  simp [mapWord, EmptyCollection.emptyCollection, empty]

@[simp] theorem size_mapWord : (c.mapWord f).size = c.size := by
  simp [mapWord, size]

@[simp] theorem toList_mapWord : (c.mapWord f).toList = c.toList.map (·.mapWord f) := by
  simp [mapWord, toList]

@[simp] theorem getElem?_mapWord (i : Nat) :
    (c.mapWord f).entries[i]? = c.entries[i]?.map (·.mapWord f) := by
  simp [mapWord]

@[simp] theorem mapWord_push (e : ChartEntry) :
    (c.mapWord f).push (e.mapWord f) = (c.push e).mapWord f := by
  simp [mapWord, push]

@[simp] theorem get?_mapWord (nt : UInt16) :
    (c.mapWord f).get? nt = (c.get? nt).map (·.mapWord f) := by
  have hindex : (c.mapWord f).indexOf? nt = c.indexOf? nt := by
    simp [indexOf?, Function.comp_def]
  rw [get?, get?, hindex]
  cases c.indexOf? nt <;> simp

end Cell

namespace Chart

def mapWord (c : Chart) : Chart := { c with cells := c.cells.map (·.mapWord f) }

variable (c : Chart)

@[simp] theorem size_mapWord : (c.mapWord f).size = c.size := rfl

@[simp] theorem mapWord_empty : (∅ : Chart).mapWord f = ∅ := by
  simp [mapWord, EmptyCollection.emptyCollection, empty]

@[simp] theorem cell_mapWord (span : Span) : (c.mapWord f).cell span = (c.cell span).mapWord f := by
  simp only [cell, mapWord, index, Array.getD_eq_getD_getElem?, Array.getElem?_map]
  cases c.cells[span.index c.size]? <;> simp

@[simp] theorem top?_mapWord : (c.mapWord f).top? = c.top?.map (·.mapWord f) := by
  unfold top? whole
  simp only [size_mapWord, cell_mapWord]
  split_ifs <;> rfl

/-- Putting cells on the chart and taking them off. -/
theorem replace_mapWord (span : Span) (cell : Cell) :
    (c.mapWord f).replace span (cell.mapWord f) =
      ((c.replace span cell).1.mapWord f, (c.replace span cell).2.mapWord f) := by
  have hcell := cell_mapWord f c span
  unfold Chart.cell at hcell
  unfold replace
  dsimp only
  rw [hcell]
  simp [mapWord, index, Array.map_setIfInBounds]

theorem mapWord_clear (size : Nat) : (c.clear size).mapWord f = c.clear size := by
  have hcleared (cells : Array Cell) : (cells.map Cell.clear).map (·.mapWord f) =
      cells.map Cell.clear := by
    simp
  unfold clear mapWord
  dsimp only
  rw [Array.map_append, hcleared, Array.map_replicate, Cell.mapWord_empty]

end Chart

/-! ## Child pairs -/

variable (g : Grammar) (lexicon : LabelTable) (lexical : ColumnMatrix)

namespace PairTable

theorem siblingsIn_mapWord (range : UInt16 × UInt16) (rights : Cell) :
    siblingsIn range (rights.mapWord f) = (siblingsIn range rights).map (·.mapWord f) := by
  have hsmall (i : Nat) : ((rights.mapWord f).entries[i]?).any (fun e => decide (e.nt < range.1)) =
      (rights.entries[i]?).any fun e => decide (e.nt < range.1) := by
    rw [Cell.getElem?_mapWord]
    cases rights.entries[i]? <;> rfl
  have hentries : (rights.mapWord f).entries.toList = rights.entries.toList.map (·.mapWord f) :=
    Cell.toList_mapWord f rights
  unfold siblingsIn
  simp only [hsmall, Cell.size_mapWord, Array.toList_extract, hentries,
    List.extract_eq_take_drop, ← List.map_drop, ← List.map_take, List.takeWhile_map]
  rfl

theorem offersOf_mapWord (rights : Cell) (midpoint : UInt16) (left : ChartEntry) :
    offersOf (g.withLexicon lexicon lexical) (rights.mapWord f) midpoint (left.mapWord f) =
      offersOf g rights midpoint left := by
  unfold offersOf
  have hrange : (g.withLexicon lexicon lexical).siblingRange? left.nt =
      g.siblingRange? left.nt := rfl
  have hpacking : (g.withLexicon lexicon lexical).packing = g.packing := rfl
  rw [ChartEntry.nt_mapWord, hrange, hpacking]
  cases g.siblingRange? left.nt with
  | none => rfl
  | some range =>
    cases g.packing.leftBlock? left.nt with
    | none => rfl
    | some block =>
      dsimp only
      rw [siblingsIn_mapWord, List.filterMap_map]
      rfl

/-- Child pairs are offered by their non-terminals and scores alone. -/
theorem addSpan_mapWord (c : Chart) (span : Span) (t : PairTable) :
    addSpan (g.withLexicon lexicon lexical) (c.mapWord f) span t = addSpan g c span t := by
  rw [addSpan_eq, addSpan_eq]
  simp [offersFor, List.flatMap_map, offersOf_mapWord]

end PairTable

/-! ## Scratch tables -/

namespace Scratch

def mapWord (s : Scratch) : Scratch := { s with children := s.children.map (·.mapWord f) }

variable (s : Scratch)

@[simp] theorem insideOf_mapWord (nt : UInt16) : (s.mapWord f).insideOf nt = s.insideOf nt := rfl

@[simp] theorem populated_mapWord : (s.mapWord f).populated = s.populated := rfl

@[simp] theorem sorted_mapWord : (s.mapWord f).sorted = s.sorted := rfl

theorem mapWord_new (size : Nat) : (new size).mapWord f = new size := by
  simp [new, mapWord, Children.mapWord]

theorem reset_mapWord : (s.mapWord f).reset = s.reset.mapWord f := rfl

theorem sort_mapWord : (s.mapWord f).sort = s.sort.mapWord f := rfl

@[simp] theorem place_mapWord (nt : UInt16) :
    (s.mapWord f).place nt = (s.place nt).mapWord f := by
  have hchildren : (s.children.map (·.mapWord f)).getD nt.toNat default =
      (s.children.getD nt.toNat default).mapWord f := by
    simp only [Array.getD_eq_getD_getElem?, Array.getElem?_map]
    cases s.children[nt.toNat]? <;> rfl
  simp [place, ChartEntry.mapWord, mapWord, hchildren, insideOf]

@[simp] theorem entryOf?_mapWord (nt : UInt16) :
    (s.mapWord f).entryOf? nt = (s.entryOf? nt).map (·.mapWord f) := by
  unfold entryOf?
  rw [insideOf_mapWord, place_mapWord]
  split_ifs <;> rfl

@[simp] theorem write_mapWord (e : ChartEntry) :
    (s.mapWord f).write (e.mapWord f) = (s.write e).mapWord f := by
  simp [write, mapWord, ChartEntry.mapWord, Array.map_setIfInBounds, insideOf]

@[simp] theorem set_mapWord (e : ChartEntry) :
    (s.mapWord f).set (e.mapWord f) = (s.set e).mapWord f := by
  unfold set
  rw [ChartEntry.inside_mapWord, write_mapWord]
  split_ifs <;> rfl

@[simp] theorem update_mapWord (e : ChartEntry) :
    ((s.mapWord f).update (e.mapWord f)).2 = (s.update e).2.mapWord f := by
  unfold update
  rw [ChartEntry.inside_mapWord, ChartEntry.nt_mapWord, insideOf_mapWord, write_mapWord]
  split_ifs <;> rfl

theorem updateAll_mapWord (entries : List ChartEntry) :
    updateAll (entries.map (·.mapWord f)) (s.mapWord f) = (updateAll entries s).mapWord f := by
  unfold updateAll
  rw [List.foldl_map]
  exact List.foldl_hom (mapWord f) fun s e => update_mapWord f s e

/-- Entries that are not of words stay as they are. -/
theorem updateAll_mapWord_of_forall {entries : List ChartEntry}
    (h : ∀ e ∈ entries, e.mapWord f = e) :
    updateAll entries (s.mapWord f) = (updateAll entries s).mapWord f := by
  rw [← updateAll_mapWord, List.map_congr_left h, List.map_id']

theorem finalizeInto_mapWord (cell : Cell) :
    (s.mapWord f).finalizeInto (cell.mapWord f) =
      ((s.finalizeInto cell).1.mapWord f, (s.finalizeInto cell).2.mapWord f) := by
  have hfill (nts : List UInt16) (c : Cell) :
      nts.foldl (fun c nt => c.push ((s.place nt).mapWord f)) (c.mapWord f) =
        (nts.foldl (fun c nt => c.push (s.place nt)) c).mapWord f :=
    List.foldl_hom (Cell.mapWord f) fun c nt => Cell.mapWord_push f c (s.place nt)
  have hempty := hfill s.sorted ∅
  rw [Cell.mapWord_empty] at hempty
  simp [finalizeInto, hempty, sort_mapWord]

/-- Words with the same tags enter them alike, each under its own number. -/
theorem addWord_mapWord {word : UInt32} (h : lexical.column (f word) = g.lexical.column word) :
    (s.mapWord f).addWord (g.withLexicon lexicon lexical) (f word) =
      (s.addWord g word).mapWord f := by
  have hentries : tagEntries (g.withLexicon lexicon lexical) (f word) =
      (tagEntries g word).map (·.mapWord f) := by
    unfold tagEntries Grammar.withLexicon
    dsimp only
    rw [h, List.map_map]
    rfl
  rw [addWord_eq, addWord_eq, hentries, updateAll_mapWord]

theorem addPairs_mapWord (pairs : PairTable) :
    (s.mapWord f).addPairs (g.withLexicon lexicon lexical) pairs =
      (s.addPairs g pairs).mapWord f := by
  unfold addPairs
  split_ifs
  · rfl
  · change g.binaryByPair.populated.size.fold (fun i _ s => addPair g.binaryByPair pairs i s) _ = _
    rw [fold_eq_updateAll (addPair_eq _ _), fold_eq_updateAll (addPair_eq _ _)]
    apply updateAll_mapWord_of_forall
    intro e he
    obtain ⟨i, -, he⟩ := List.mem_flatMap.1 he
    unfold entriesOfPair at he
    dsimp only at he
    split_ifs at he
    · cases he
    · obtain ⟨rule, -, rfl⟩ := List.mem_map.1 he
      rfl

end Scratch

/-! ## The unary step -/

namespace UnaryStep

variable (s old : Scratch) (stop : UInt16)

theorem candidates_mapWord :
    candidates (g.withLexicon lexicon lexical) (s.mapWord f) stop (old.mapWord f) =
      (candidates g s stop old).mapWord f := by
  unfold candidates
  rw [Scratch.reset_mapWord]
  apply Scratch.updateAll_mapWord_of_forall
  intro e he
  obtain ⟨child, -, he⟩ := List.mem_flatMap.1 (List.mem_filter.1 he).1
  obtain ⟨rule, -, rfl⟩ := List.mem_map.1 he
  rfl

theorem childOf_mapWord (parent : UInt16) :
    childOf (s.mapWord f) parent = childOf s parent := by
  unfold childOf
  rw [Scratch.entryOf?_mapWord]
  cases s.entryOf? parent with
  | none => rfl
  | some e =>
    obtain ⟨nt, inside, children, midpoint⟩ := e
    cases children <;> rfl

theorem commit_mapWord (blocked : Std.HashSet UInt16) (parent : UInt16) :
    commit (old.mapWord f) blocked (s.mapWord f) parent = (commit old blocked s parent).mapWord f := by
  unfold commit
  rw [Scratch.entryOf?_mapWord]
  split_ifs
  · rfl
  · cases old.entryOf? parent with
    | none => rfl
    | some e => exact Scratch.set_mapWord f s e

end UnaryStep

theorem Scratch.addUnaries_mapWord (s old : Scratch) (stop : UInt16) :
    (s.mapWord f).addUnaries (g.withLexicon lexicon lexical) stop (old.mapWord f) =
      ((s.addUnaries g stop old).1.mapWord f, (s.addUnaries g stop old).2.mapWord f) := by
  unfold addUnaries
  dsimp only
  rw [UnaryStep.foldl_addChild, UnaryStep.foldl_addChild, UnaryStep.candidates_mapWord]
  have hchild : UnaryStep.childOf ((UnaryStep.candidates g s stop old).mapWord f) =
      UnaryStep.childOf (UnaryStep.candidates g s stop old) :=
    funext (UnaryStep.childOf_mapWord f _)
  rw [hchild, populated_mapWord]
  refine congrArg (Prod.mk · _) ?_
  exact List.foldl_hom (mapWord f) fun s parent => UnaryStep.commit_mapWord f s _ _ parent

end ChartParsing

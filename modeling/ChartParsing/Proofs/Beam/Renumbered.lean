import ChartParsing.Proofs.Beam.Selection
import ChartParsing.Proofs.Chart.Renumbered

/-!
# Selections with other numbers of words

A selection goes by non-terminals, scores and the order in which entries come, so it chooses
the same entries whatever the numbers of words in them are.
-/

namespace ChartParsing.BeamSelector

variable (f : UInt32 → UInt32)

def mapWord (b : BeamSelector) : BeamSelector := { b with chosen := b.chosen.mapWord f }

/-- A selection and its scratch table with the words numbered anew. -/
def mapState (state : BeamSelector × Scratch) : BeamSelector × Scratch :=
  (state.1.mapWord f, state.2.mapWord f)

variable (b : BeamSelector) (s : Scratch)

@[simp] theorem queue_mapWord : (b.mapWord f).queue = b.queue := rfl

@[simp] theorem queuedAt_mapWord (nt : UInt16) : (b.mapWord f).queuedAt nt = b.queuedAt nt := rfl

@[simp] theorem admittedAt_mapWord (nt : UInt16) :
    (b.mapWord f).admittedAt nt = b.admittedAt nt := rfl

theorem mapWord_withQueue (queue : BeamQueue) :
    { b.mapWord f with queue } = ({ b with queue } : BeamSelector).mapWord f := rfl

theorem mapWord_new (size : Nat) : (new size).mapWord f = new size := by
  simp [new, mapWord, Scratch.mapWord_new]

theorem accept_mapWord (e : ChartEntry) (merit : Score) :
    (b.mapWord f).accept (e.mapWord f) merit = (b.accept e merit).mapWord f := by
  simp [accept, mapWord]

theorem offer_mapWord (merit : Merit) (span : Span) (child : ChartEntry)
    (edge : UInt16 × Score) :
    offer merit span (child.mapWord f) (b.mapWord f, s.mapWord f) edge =
      mapState f (offer merit span child (b, s) edge) := by
  unfold offer
  dsimp only
  rw [ChartEntry.inside_mapWord, ChartEntry.nt_mapWord, queuedAt_mapWord, admittedAt_mapWord,
    queue_mapWord]
  split_ifs
  · generalize b.queue.replace edge.1 _ = replaced
    obtain ⟨changed, queue⟩ := replaced
    cases changed with
    | true =>
      have hset := Scratch.set_mapWord f s ⟨edge.1, edge.2 + child.inside, .unary child.nt, span.stop⟩
      exact congrArg (Prod.mk _) hset
    | false => rfl
  · rfl

theorem foldl_offer_mapWord (merit : Merit) (span : Span) (child : ChartEntry)
    (edges : List (UInt16 × Score)) :
    edges.foldl (offer merit span (child.mapWord f)) (b.mapWord f, s.mapWord f) =
      mapState f (edges.foldl (offer merit span child) (b, s)) := by
  induction edges generalizing b s with
  | nil => rfl
  | cons edge edges ih =>
    rw [List.foldl_cons, offer_mapWord]
    exact ih _ _

variable (g : Grammar) (lexicon : LabelTable) (lexical : ColumnMatrix)

theorem weigh_mapWord (merit : Merit) (span : Span) (places : Nat) (taken : UInt16 × Score) :
    weigh (g.withLexicon lexicon lexical) merit span places taken (b.mapWord f, s.mapWord f) =
      Prod.map id (mapState f) (weigh g merit span places taken (b, s)) := by
  have hcolumn : (g.withLexicon lexicon lexical).unaryByChild = g.unaryByChild := rfl
  unfold weigh
  simp only [Scratch.entryOf?_mapWord, admittedAt_mapWord, hcolumn]
  cases s.entryOf? taken.1 with
  | none => rfl
  | some entry =>
    simp only [Option.map_some, accept_mapWord, foldl_offer_mapWord]
    split_ifs <;> rfl

theorem choose_mapWord (merit : Merit) (span : Span) (steps places : Nat) :
    choose (g.withLexicon lexicon lexical) merit span steps places (b.mapWord f, s.mapWord f) =
      mapState f (choose g merit span steps places (b, s)) := by
  induction steps generalizing places b s with
  | zero =>
    simp only [choose]
    rfl
  | succ steps ih =>
    cases places with
    | zero =>
      simp only [choose]
      rfl
    | succ places =>
      rw [choose_succ, choose_succ, queue_mapWord]
      cases b.queue.pop? with
      | none => rfl
      | some popped =>
        obtain ⟨taken, queue⟩ := popped
        dsimp only
        rw [mapWord_withQueue, weigh_mapWord]
        exact ih _ _ _

theorem prepare_mapWord (merit : Merit) (span : Span) (width held : Nat) :
    prepare merit span width held (s.mapWord f) (b.mapWord f) =
      (prepare merit span width held s b).mapWord f := by
  have hqueued (rank : UInt16 → Score → Score) (nts : List UInt16) (b : BeamSelector) :
      nts.foldl (enqueue rank (s.mapWord f)) (b.mapWord f) =
        (nts.foldl (enqueue rank s) b).mapWord f :=
    List.foldl_hom (mapWord f) fun b nt => rfl
  unfold prepare
  simp only [queue_mapWord, mapWord_withQueue, Scratch.populated_mapWord, hqueued]
  split_ifs <;> rfl

/-- A selection chooses the same entries. -/
theorem select_mapWord (merit : Merit) (span : Span) (width held : Nat) (cell : Cell) :
    (b.mapWord f).select (g.withLexicon lexicon lexical) merit span width held (s.mapWord f)
        (cell.mapWord f) =
      Prod.map (Cell.mapWord f) (Prod.map (Scratch.mapWord f) (mapWord f))
        (b.select g merit span width held s cell) := by
  rw [select_eq, select_eq]
  simp only [Scratch.sort_mapWord, prepare_mapWord, queue_mapWord, choose_mapWord]
  generalize choose g merit span _ width _ = state
  obtain ⟨b, s⟩ := state
  have hfinal := Scratch.finalizeInto_mapWord f b.chosen cell
  change (((b.chosen.mapWord f).finalizeInto (cell.mapWord f)).1, s.mapWord f,
    { (b.forget s).mapWord f with
      chosen := ((b.chosen.mapWord f).finalizeInto (cell.mapWord f)).2.reset }) = _
  rw [hfinal]
  rfl

end ChartParsing.BeamSelector

import ChartParsing.Proofs.Chart.Scratch

/-!
# Scratch tables as finite maps

A table stands for a map from non-terminals to entries. That a non-terminal has an entry is told by
its score alone, and the table keeps a list of those that do. No step breaks this, whatever scores
it brings, so the list, the look-ups and the finished cells are those of the map. After a reset the
children of old entries are still in their places, but no later step can tell.
-/

namespace ChartParsing

namespace Scratch

/-- What can be done with a table. -/
inductive Step where
  | update (e : ChartEntry)
  | set (e : ChartEntry)
  | reset
  | sort
  | finalizeInto (cell : Cell)

/-- The table has a place for the non-terminal of a step. -/
def Step.Within (count : Nat) : Step → Prop
  | .update e => e.nt.toNat < count
  | .set e => e.nt.toNat < count
  | .reset => True
  | .sort => True
  | .finalizeInto _ => True

/-- What a step gives back: whether an update was kept, or the finished cell. -/
inductive Answer where
  | nothing
  | kept (above : Bool)
  | finished (cell : Cell)

/-- The table after a step, and what the step gives back. -/
def step (s : Scratch) : Step → Answer × Scratch
  | .update e => (.kept (s.update e).1, (s.update e).2)
  | .set e => (.nothing, s.set e)
  | .reset => (.nothing, s.reset)
  | .sort => (.nothing, s.sort)
  | .finalizeInto cell => (.finished (s.finalizeInto cell).1, (s.finalizeInto cell).2)

/-- The table after steps one after another, and what they give back. -/
def run : List Step → Scratch → List Answer × Scratch
  | [], s => ([], s)
  | t :: steps, s => ((s.step t).1 :: (run steps (s.step t).2).1, (run steps (s.step t).2).2)

end Scratch

/-! ## Maps -/

/-- Entries by their non-terminals. -/
def EntryMap : Type := UInt16 → Option ChartEntry

namespace EntryMap

def empty : EntryMap := fun _ => none

variable (m : EntryMap)

/-- The score of a non-terminal, that of what is absent if it has no entry. -/
def insideOf (nt : UInt16) : Score := ((m nt).map (·.inside)).getD Score.absent

/-- The map with an entry for its non-terminal, and all others as they were. -/
def put (e : ChartEntry) : EntryMap := fun nt => if nt = e.nt then some e else m nt

/-- The map after a step: an update keeps an entry if its score is above the present one, and
anything but what is absent can be set. -/
def step : Scratch.Step → EntryMap
  | .update e => if m.insideOf e.nt < e.inside then m.put e else m
  | .set e => if e.inside = Score.absent then m else m.put e
  | .reset => empty
  | .sort => m
  | .finalizeInto _ => m

/-- The map after steps one after another. -/
def run (steps : List Scratch.Step) : EntryMap := steps.foldl step m

end EntryMap

namespace Scratch

variable {count : Nat} {s t : Scratch} {m : EntryMap}

/-! ## Tables stand for maps -/

/-- The table is in order, and its look-ups are those of the map. -/
structure Represents (count : Nat) (s : Scratch) (m : EntryMap) : Prop where
  valid : s.Valid count
  entry : ∀ nt, s.entryOf? nt = m nt

theorem represents_new (count : Nat) : (new count).Represents count .empty :=
  ⟨valid_new count, (valid_new count).entryOf?_of_empty rfl⟩

theorem insideOf_eq (s : Scratch) (nt : UInt16) :
    s.insideOf nt = ((s.entryOf? nt).map (·.inside)).getD Score.absent := by
  cases h : s.entryOf? nt with
  | none => exact entryOf?_eq_none.1 h
  | some e => exact (inside_of_entryOf? h).symm

namespace Represents

theorem insideOf (h : s.Represents count m) (nt : UInt16) : s.insideOf nt = m.insideOf nt := by
  rw [insideOf_eq, h.entry, EntryMap.insideOf]

theorem write (h : s.Represents count m) {e : ChartEntry} (hlt : e.nt.toNat < count)
    (hne : e.inside ≠ Score.absent) : (s.write e).Represents count (m.put e) where
  valid := h.valid.write hlt hne
  entry nt := by simp [h.valid.entryOf?_write hlt hne, h.entry, EntryMap.put]

/-- Each step does to the table what it does to the map. -/
theorem step (h : s.Represents count m) {t : Step} (ht : t.Within count) :
    (s.step t).2.Represents count (m.step t) := by
  cases t with
  | update e =>
    simp only [Scratch.step, EntryMap.step, update_eq, h.insideOf]
    split_ifs with habove
    · exact h.write ht (Score.ne_absent_of_lt habove)
    · exact h
  | set e =>
    simp only [Scratch.step, EntryMap.step, set_eq]
    split_ifs with habsent
    · exact h
    · exact h.write ht habsent
  | reset =>
    obtain ⟨hvalid, hempty, -⟩ := h.valid.reset
    exact ⟨hvalid, hvalid.entryOf?_of_empty hempty⟩
  | sort => exact ⟨h.valid.sort, h.entry⟩
  | finalizeInto cell => exact ⟨h.valid.sort, h.entry⟩

theorem run {steps : List Step} (h : s.Represents count m)
    (hsteps : ∀ t ∈ steps, t.Within count) :
    (s.run steps).2.Represents count (m.run steps) := by
  induction steps generalizing s m with
  | nil => exact h
  | cons t steps ih =>
    obtain ⟨ht, hsteps⟩ := List.forall_mem_cons.1 hsteps
    exact ih (h.step ht) hsteps

end Represents

end Scratch

/-! ## Finished cells -/

namespace Cell

variable {c : Cell}

/-- A non-terminal is found where its entry is. -/
theorem Ordered.indexOf?_eq_some (h : c.Ordered) {nt : UInt16} {i : Nat} :
    c.indexOf? nt = some i ↔ ∃ e, c.entries[i]? = some e ∧ e.nt = nt := by
  have hfind := SortedSearch.find?_eq_some (fun _ _ => UInt16.lt_iff_toNat_lt) (Nat.zero_le _)
    h.increasing nt i
  have hlt : c.entries[i]?.map (·.nt) = some nt → i < c.size := by
    intro hget
    obtain ⟨e, he, -⟩ := Option.map_eq_some_iff.1 hget
    exact (Array.getElem?_eq_some_iff.1 he).1
  rw [indexOf?, hfind, ← Option.map_eq_some_iff]
  simp only [Nat.zero_le, true_and, and_iff_right_iff_imp]
  exact hlt

/-- A cell has the entries of a map in ascending order, and answers for each non-terminal as the
map does. -/
structure Tabulates (c : Cell) (m : EntryMap) : Prop where
  ascending : c.nonTerminals.Pairwise (· < ·)
  mem : ∀ e, e ∈ c.toList ↔ m e.nt = some e
  get : ∀ nt, c.get? nt = m nt
  inside : ∀ nt, c.inside nt = m.insideOf nt
  indexOf : ∀ nt i, c.indexOf? nt = some i ↔ ∃ e, m nt = some e ∧ c.entries[i]? = some e
  indexOf_none : ∀ nt, c.indexOf? nt = none ↔ m nt = none

theorem Ordered.tabulates {m : EntryMap} (h : c.Ordered) (hget : ∀ nt, c.get? nt = m nt) :
    c.Tabulates m := by
  have hsome (nt : UInt16) (e : ChartEntry) : m nt = some e ↔ e ∈ c.toList ∧ e.nt = nt := by
    rw [← hget, h.get?_eq_some]
  have hindex (nt : UInt16) (i : Nat) :
      c.indexOf? nt = some i ↔ ∃ e, m nt = some e ∧ c.entries[i]? = some e := by
    rw [h.indexOf?_eq_some]
    constructor
    · rintro ⟨e, he, rfl⟩
      have hmem : e ∈ c.toList := List.mem_of_getElem? ((getElem?_toList i).trans he)
      exact ⟨e, (hsome _ e).2 ⟨hmem, rfl⟩, he⟩
    · rintro ⟨e, he, hi⟩
      exact ⟨e, hi, ((hsome nt e).1 he).2⟩
  constructor
  case ascending =>
    simp only [nonTerminals, List.pairwise_map, UInt16.lt_iff_toNat_lt]
    exact h
  case mem =>
    intro e
    simp [hsome]
  case get => exact hget
  case inside =>
    intro nt
    rw [Cell.inside, hget, EntryMap.insideOf]
    cases m nt <;> rfl
  case indexOf => exact hindex
  case indexOf_none =>
    intro nt
    constructor
    · intro hnone
      rw [← hget, get?, hnone]
      rfl
    · intro hnone
      apply Option.eq_none_iff_forall_not_mem.2
      intro i hi
      obtain ⟨e, he, -⟩ := (hindex nt i).1 hi
      simp [hnone] at he

end Cell

namespace Scratch

variable {count : Nat} {s t : Scratch} {m : EntryMap}

/-- The finished cell is a table of the map, whatever cell it is written over. -/
theorem Represents.tabulates (h : s.Represents count m) (cell : Cell) :
    (s.finalizeInto cell).1.Tabulates m := by
  apply (h.valid.ordered_finalizeInto cell).tabulates
  intro nt
  rw [h.valid.get?_finalizeInto, h.entry]

/-! ## Tables that agree -/

/-- Tables that agree give the same back at each step, and go on to agree. -/
theorem Agree.step (h : Agree s t) (hs : s.Valid count) (ht : t.Valid count) {next : Step}
    (hnext : next.Within count) :
    (s.step next).1 = (t.step next).1 ∧ Agree (s.step next).2 (t.step next).2 := by
  cases next with
  | update e =>
    refine ⟨?_, h.update hs ht hnext⟩
    simp only [Scratch.step, Scratch.update, h.insideOf]
    split_ifs <;> rfl
  | set e => exact ⟨rfl, h.set hs ht hnext⟩
  | reset => exact ⟨rfl, hs.agree_reset ht⟩
  | sort => exact ⟨rfl, h.sort⟩
  | finalizeInto cell =>
    exact ⟨congrArg Answer.finished (hs.finalizeInto_congr ht h.entry cell cell), h.sort⟩

theorem Valid.step (h : s.Valid count) {next : Step} (hnext : next.Within count) :
    (s.step next).2.Valid count :=
  (Represents.step ⟨h, fun _ => rfl⟩ hnext).valid

theorem Agree.run {steps : List Step} (h : Agree s t) (hs : s.Valid count) (ht : t.Valid count)
    (hsteps : ∀ next ∈ steps, next.Within count) :
    (s.run steps).1 = (t.run steps).1 ∧ Agree (s.run steps).2 (t.run steps).2 := by
  induction steps generalizing s t with
  | nil => exact ⟨rfl, h⟩
  | cons next steps ih =>
    obtain ⟨hnext, hsteps⟩ := List.forall_mem_cons.1 hsteps
    obtain ⟨hanswer, hstep⟩ := h.step hs ht hnext
    obtain ⟨hanswers, hend⟩ := ih hstep (hs.step hnext) (ht.step hnext) hsteps
    simp only [Scratch.run, hanswer, hanswers]
    exact ⟨trivial, hend⟩

/-- After any steps the table lists just the non-terminals that have a score, each once, and its
entries are those of the map after these steps. A cell finished then is a table of the map. If it is
reset, all it gives back and all that can be seen of it from then on is as with a new table, though
the children of its entries stay in their places. -/
theorem run_represents (count : Nat) {steps : List Step}
    (hsteps : ∀ next ∈ steps, next.Within count) :
    let s := ((new count).run steps).2
    let m := EntryMap.empty.run steps
    (s.populated.toList.Nodup ∧ ∀ nt, nt ∈ s.populated.toList ↔ s.insideOf nt ≠ Score.absent) ∧
      (∀ nt, s.entryOf? nt = m nt) ∧ (∀ cell, (s.finalizeInto cell).1.Tabulates m) ∧
      s.reset.children = s.children ∧
      ∀ later, (∀ next ∈ later, next.Within count) →
        let r := s.reset.run later
        let u := (new count).run later
        r.1 = u.1 ∧ r.2.populated = u.2.populated ∧ (∀ nt, r.2.entryOf? nt = u.2.entryOf? nt) ∧
          ∀ nt, r.2.insideOf nt = u.2.insideOf nt := by
  intro s m
  have h : s.Represents count m := (represents_new count).run hsteps
  have hreset : s.reset.Agree (new count) :=
    h.valid.reset.1.agree_of_empty (valid_new count) rfl rfl
  refine ⟨⟨h.valid.nodup, h.valid.mem⟩, h.entry, h.tabulates, rfl, ?_⟩
  intro later hlater
  obtain ⟨hanswers, hagree⟩ := hreset.run h.valid.reset.1 (valid_new count) hlater
  exact ⟨hanswers, hagree.populated, hagree.entry, hagree.insideOf⟩

/-- A score that is no number is set and not improved on, and one that is lower is not kept. -/
theorem run_represents_notANumber :
    let steps : List Step := [.set ⟨1, Float32.ofBits 0x7fc00000, .lexical 5, 0⟩,
      .update ⟨1, -1, .unary 0, 2⟩, .update ⟨0, -1, .unary 1, 2⟩, .sort,
      .update ⟨0, -2, .unary 1, 2⟩]
    let s := ((new 2).run steps).2
    (∀ next ∈ steps, next.Within 2) ∧ s.entryOf? 0 = some ⟨0, -1, .unary 1, 2⟩ ∧
      s.entryOf? 1 = some ⟨1, Float32.ofBits 0x7fc00000, .lexical 5, 0⟩ := by
  intro steps
  have hsteps : ∀ next ∈ steps, next.Within 2 := by simp [steps, Step.Within]
  obtain ⟨-, hentry, -⟩ := run_represents 2 hsteps
  exact ⟨hsteps, (hentry 0).trans rfl, (hentry 1).trans rfl⟩

end Scratch
end ChartParsing

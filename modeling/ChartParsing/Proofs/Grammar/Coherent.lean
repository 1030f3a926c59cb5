import ChartParsing.Grammar.Basic
import ChartParsing.Proofs.Matrix.Entries
import ChartParsing.Proofs.Packing.PairHash

/-!
# The rules of a compiled grammar

A compiled grammar stores its rules more than once. Here its rules are read off the
copies by parent and the lexicon, and the other copies are shown to agree with them:
the columns by pair and by child, the ranges of siblings, and the scores by look-up.
-/

namespace ChartParsing

theorem bind_eq_ok {ε α β : Type} {x : Except ε α} {f : α → Except ε β} {b : β} :
    (x >>= f) = .ok b ↔ ∃ a, x = .ok a ∧ f a = .ok b := by
  cases x with
  | error e => simp [bind, Except.bind]
  | ok a => simp [bind, Except.bind]

/-- What each step of a run that succeeds keeps, the run keeps. -/
theorem of_foldlM_eq_ok {α β ε : Type} {step : β → α → Except ε β} {P : β → Prop}
    (hstep : ∀ {s s' x}, step s x = .ok s' → P s → P s') {xs : List α} {s s' : β}
    (h : xs.foldlM step s = .ok s') (hs : P s) : P s' := by
  induction xs generalizing s with
  | nil =>
    obtain rfl := Except.ok.inj h
    exact hs
  | cons x xs ih =>
    rw [List.foldlM_cons, bind_eq_ok] at h
    obtain ⟨t, ht, h⟩ := h
    exact ih h (hstep ht hs)

theorem toUInt32_inj {m n : UInt16} (h : m.toUInt32 = n.toUInt32) : m = n := by
  have := congrArg UInt32.toUInt16 h
  simpa using this

namespace Grammar

variable (g : Grammar)

/-- The grammar has a binary rule with this score. -/
def HasBinary (parent left right : UInt16) (score : Score) : Prop :=
  ∃ key, g.packing.pack left right = some key ∧ (key, score) ∈ g.binaryByParent.row parent

/-- The grammar has a unary rule with this score. -/
def HasUnary (parent child : UInt16) (score : Score) : Prop :=
  (child.toUInt32, score) ∈ g.unaryByParent.row parent

/-- The lexicon has a word under a tag with this score. -/
def HasTag (tag : UInt16) (word : UInt32) (score : Score) : Prop :=
  (tag, score) ∈ g.lexical.column word

/-- The copies of the rules agree, and what they name is in the grammar. -/
structure Coherent : Prop where
  size_le : g.size ≤ 65535
  start_lt : g.start.toNat < g.size
  unpack_of_pack : ∀ {left right key}, g.packing.pack left right = some key →
    g.packing.unpack key = some (left, right) ∧ key.toNat < g.packing.size
  populated : ∀ i < g.binaryByPair.populated.size, g.binaryByPair.populatedColumn i
    = g.binaryByPair.column (g.binaryByPair.populated.getD i 0)
  mem_populated : ∀ key, key ∈ g.binaryByPair.populated.toList ↔ g.binaryByPair.column key ≠ []
  binary : ∀ {key parent score}, (parent, score) ∈ g.binaryByPair.column key ↔
    ∃ left right, g.packing.pack left right = some key ∧ g.HasBinary parent left right score
  unary : ∀ {child parent score}, (parent, score) ∈ g.unaryByChild.column child.toUInt32 ↔
    g.HasUnary parent child score
  range : ∀ {parent left right score}, g.HasBinary parent left right score →
    ∃ lo hi, g.siblingRange? left = some (lo, hi) ∧ lo ≤ right ∧ right ≤ hi
  binary_lt : ∀ {parent left right score}, g.HasBinary parent left right score →
    parent.toNat < g.size
  unary_lt : ∀ {parent child score}, g.HasUnary parent child score → parent.toNat < g.size
  tag_lt : ∀ {tag word score}, g.HasTag tag word score → tag.toNat < g.size
  binaryLogProb : ∀ {parent left right score}, g.HasBinary parent left right score →
    g.binaryLogProb parent left right = score
  unaryLogProb : ∀ {parent child score}, g.HasUnary parent child score →
    g.unaryLogProb parent child = score
  lexicalLogProb : ∀ {tag word score}, g.HasTag tag word score →
    g.lexicalLogProb tag word = score
  binary_of_logProb : ∀ {parent left right}, g.binaryLogProb parent left right ≠ Score.absent →
    ∃ score, g.HasBinary parent left right score
  unary_of_logProb : ∀ {parent child}, g.unaryLogProb parent child ≠ Score.absent →
    ∃ score, g.HasUnary parent child score
  tag_of_logProb : ∀ {tag word}, g.lexicalLogProb tag word ≠ Score.absent →
    ∃ score, g.HasTag tag word score

theorem inRange_eq_ok {α : Type} {x : Option α} {a : α} : inRange x = .ok a ↔ x = some a := by
  cases x <;> simp [inRange]

/-- The pairs of children of the binary productions. -/
abbrev pairsOf (productions : List Production) : List (UInt16 × UInt16) :=
  (binaryOf productions).map fun (_, left, right, _) => (left, right)

variable {g}
variable {start : UInt16} {labels lexicon : LabelTable} {bounds : ClassBounds}
  {productions : List Production} {kind : PackingKind}

theorem mem_binaryOf {rule : UInt16 × UInt16 × UInt16 × Score} :
    rule ∈ binaryOf productions ↔
      ⟨rule.1, .binary rule.2.1 rule.2.2.1, rule.2.2.2⟩ ∈ productions := by
  rw [binaryOf, List.mem_filterMap]
  constructor
  · rintro ⟨⟨parent, expansion, score⟩, hp, heq⟩
    cases expansion with
    | binary left right => exact Option.some.inj heq ▸ hp
    | unary child => cases heq
    | lexical word => cases heq
  · exact fun hp => ⟨_, hp, rfl⟩

theorem mem_unaryOf {rule : UInt16 × UInt16 × Score} :
    rule ∈ unaryOf productions ↔ ⟨rule.1, .unary rule.2.1, rule.2.2⟩ ∈ productions := by
  rw [unaryOf, List.mem_filterMap]
  constructor
  · rintro ⟨⟨parent, expansion, score⟩, hp, heq⟩
    cases expansion with
    | binary left right => cases heq
    | unary child => exact Option.some.inj heq ▸ hp
    | lexical word => cases heq
  · exact fun hp => ⟨_, hp, rfl⟩

theorem mem_lexicalOf {entry : UInt16 × UInt32 × Score} :
    entry ∈ lexicalOf productions ↔ ⟨entry.1, .lexical entry.2.1, entry.2.2⟩ ∈ productions := by
  rw [lexicalOf, List.mem_filterMap]
  constructor
  · rintro ⟨⟨parent, expansion, score⟩, hp, heq⟩
    cases expansion with
    | binary left right => cases heq
    | unary child => cases heq
    | lexical word => exact Option.some.inj heq ▸ hp
  · exact fun hp => ⟨_, hp, rfl⟩

/-- What making a grammar of productions puts in its tables; `binary` are the keyed rules. -/
structure Made (labels lexicon : LabelTable) (bounds : ClassBounds)
    (productions : List Production) (kind : PackingKind) (g : Grammar)
    (binary : List (UInt16 × UInt32 × Score)) : Prop where
  lefts : ∀ pair ∈ pairsOf productions, pair.1.toNat < labels.size
  packing : Packing.build kind bounds (pairsOf productions) = .ok g.packing
  keyed : keyed kind g.packing (binaryOf productions) = .ok binary
  binaryByParent : RowMatrix.ofTriples? labels.size
    (binary.map fun (p, key, v) => ⟨p.toUInt32, key, v⟩) = some g.binaryByParent
  binaryByPair : ColumnMatrix.ofTriples? g.packing.size
    (binary.map fun (p, key, v) => .inColumn p key v) = some g.binaryByPair
  unaryByParent : RowMatrix.ofTriples? labels.size
    ((unaryOf productions).map fun (p, c, v) => ⟨p.toUInt32, c.toUInt32, v⟩)
      = some g.unaryByParent
  unaryByChild : ColumnMatrix.ofTriples? labels.size
    ((unaryOf productions).map fun (p, c, v) => .inColumn p c.toUInt32 v)
      = some g.unaryByChild
  lexical : ColumnMatrix.ofTriples? lexicon.size
    ((lexicalOf productions).map fun (p, w, v) => .inColumn p w v) = some g.lexical
  leftChildren : SiblingIndex.ofEntries? labels.size ((binaryOf productions).map
    fun (p, left, right, v) => ⟨p, right, left, v⟩) = some g.leftChildren
  rightChildren : SiblingIndex.ofEntries? labels.size ((binaryOf productions).map
    fun (p, left, right, v) => ⟨p, left, right, v⟩) = some g.rightChildren
  labels_eq : g.labels = labels
  lexicon_eq : g.lexicon = lexicon
  ranges : g.siblingRanges = rangesOf labels.size (pairsOf productions)

theorem ofProductions_ok
    (h : ofProductions start labels lexicon bounds productions kind = .ok g) :
    g.start = start ∧ ∃ binary, Made labels lexicon bounds productions kind g binary := by
  unfold ofProductions at h
  dsimp only at h
  split_ifs at h with hleft
  · cases h
  · simp only [bind_eq_ok, inRange_eq_ok] at h
    obtain ⟨packing, hpacking, binary, hbinary, byParent, hbyParent, byPair, hbyPair, unaryByParent,
      hunaryByParent, unaryByChild, hunaryByChild, lexical, hlexical, left, hleft', right, hright,
      hg⟩ := h
    obtain rfl := Except.ok.inj hg
    refine ⟨rfl, binary, ?_, hpacking, hbinary, hbyParent, hbyPair, hunaryByParent, hunaryByChild,
      hlexical, hleft', hright, rfl, rfl, rfl⟩
    intro pair hpair
    by_contra hge
    exact hleft (List.any_eq_true.2 ⟨pair, hpair, by simpa using hge⟩)

/-- Rules are keyed one by one. -/
theorem keyed_eq_map {packing : Packing} {rules : List (UInt16 × UInt16 × UInt16 × Score)}
    {binary : List (UInt16 × UInt32 × Score)} (h : keyed kind packing rules = .ok binary) :
    (binary = rules.map fun (p, l, r, v) => (p, (packing.pack l r).getD 0, v)) ∧
      ∀ rule ∈ rules, ∃ key, packing.pack rule.2.1 rule.2.2.1 = some key := by
  unfold keyed at h
  induction rules generalizing binary with
  | nil =>
    rw [List.mapM_nil] at h
    obtain rfl := Except.ok.inj h
    simp
  | cons rule rules ih =>
    obtain ⟨p, l, r, v⟩ := rule
    rw [List.mapM_cons] at h
    simp only [bind_eq_ok] at h
    obtain ⟨entry, hentry, rest, hrest, hbinary⟩ := h
    obtain rfl := Except.ok.inj hbinary
    obtain ⟨rfl, hall⟩ := ih hrest
    split at hentry
    · rename_i key hkey
      obtain rfl := Except.ok.inj hentry
      simp only [List.map_cons, List.mem_cons, forall_eq_or_imp, hkey, Option.getD_some, true_and]
      exact ⟨⟨key, rfl⟩, hall⟩
    · cases hentry

theorem mem_keyed {packing : Packing} {rules : List (UInt16 × UInt16 × UInt16 × Score)}
    {binary : List (UInt16 × UInt32 × Score)} (h : keyed kind packing rules = .ok binary)
    {parent : UInt16} {key : UInt32} {score : Score} : (parent, key, score) ∈ binary ↔
      ∃ left right, (parent, left, right, score) ∈ rules ∧ packing.pack left right = some key := by
  obtain ⟨rfl, hall⟩ := keyed_eq_map h
  simp only [List.mem_map, Prod.exists, Prod.mk.injEq]
  constructor
  · rintro ⟨p, left, right, value, hmem, rfl, rfl, rfl⟩
    obtain ⟨key, hkey⟩ := hall _ hmem
    exact ⟨left, right, hmem, by rw [hkey]; rfl⟩
  · rintro ⟨left, right, hmem, hpack⟩
    exact ⟨parent, left, right, score, hmem, rfl, by rw [hpack]; rfl, rfl⟩

/-- A range of siblings has a right child in it. -/
def Covers (ranges : Array (Option (UInt16 × UInt16))) (left right : UInt16) : Prop :=
  ∃ lo hi, ranges.getD left.toNat none = some (lo, hi) ∧ lo ≤ right ∧ right ≤ hi

theorem widen_covers (n : UInt16) (range : Option (UInt16 × UInt16)) :
    ∃ lo hi, widen n range = some (lo, hi) ∧ (lo ≤ n ∧ n ≤ hi) ∧
      ∀ lo' hi', range = some (lo', hi') → lo ≤ lo' ∧ hi' ≤ hi := by
  cases range with
  | none => exact ⟨n, n, rfl, ⟨UInt16.le_refl n, UInt16.le_refl n⟩, fun _ _ h => by cases h⟩
  | some range =>
    obtain ⟨lo, hi⟩ := range
    refine ⟨min lo n, max hi n, rfl, ?_, fun lo' hi' h => ?_⟩
    · simp only [min, max, UInt16.le_iff_toNat_le]
      split_ifs <;> omega
    · cases h
      simp only [min, max, UInt16.le_iff_toNat_le]
      split_ifs <;> omega

theorem covers_modify {ranges : Array (Option (UInt16 × UInt16))} {left right : UInt16}
    (h : Covers ranges left right) (left' right' : UInt16) :
    Covers (ranges.modify left'.toNat (widen right')) left right := by
  obtain ⟨lo, hi, hget, hlo, hhi⟩ := h
  unfold Covers
  rw [Array.getD_eq_getD_getElem?] at hget ⊢
  rw [Array.getElem?_modify]
  split_ifs with heq
  · cases hx : ranges[left.toNat]? with
    | none => rw [hx] at hget; cases hget
    | some range =>
      rw [hx, Option.getD_some] at hget
      obtain ⟨lo', hi', hwiden, -, hold⟩ := widen_covers right' range
      obtain ⟨hlo', hhi'⟩ := hold lo hi hget
      exact ⟨lo', hi', hwiden, UInt16.le_trans hlo' hlo, UInt16.le_trans hhi hhi'⟩
  · exact ⟨lo, hi, hget, hlo, hhi⟩

theorem covers_foldl {pairs : List (UInt16 × UInt16)} {ranges : Array (Option (UInt16 × UInt16))}
    {left right : UInt16} (hleft : left.toNat < ranges.size)
    (h : Covers ranges left right ∨ (left, right) ∈ pairs) :
    Covers (pairs.foldl (fun ranges (left, right) => ranges.modify left.toNat (widen right)) ranges)
      left right := by
  induction pairs generalizing ranges with
  | nil => simpa using h
  | cons pair pairs ih =>
    obtain ⟨left', right'⟩ := pair
    refine ih (by simpa using hleft) ?_
    rcases h with h | h
    · exact Or.inl (covers_modify h left' right')
    · rcases List.mem_cons.1 h with heq | h
      · cases heq
        left
        obtain ⟨lo, hi, hwiden, hin, -⟩ := widen_covers right ranges[left.toNat]
        refine ⟨lo, hi, ?_, hin⟩
        rw [Array.getD_eq_getD_getElem?, Array.getElem?_modify, if_pos rfl,
          Array.getElem?_eq_getElem hleft]
        exact hwiden
      · exact Or.inr h

/-- The range of a left child reaches over every right child it has in a rule. -/
theorem covers_rangesOf {count : Nat} {pairs : List (UInt16 × UInt16)} {left right : UInt16}
    (hleft : left.toNat < count) (h : (left, right) ∈ pairs) :
    Covers (rangesOf count pairs) left right :=
  covers_foldl (by simpa using hleft) (Or.inr h)

namespace Made

variable {binary : List (UInt16 × UInt32 × Score)}

theorem narrow_inColumn {α : Type} (xs : List α) (row : α → UInt16) (column : α → UInt32)
    (value : α → Score) :
    ColumnMatrix.Narrow (xs.map fun x => .inColumn (row x) (column x) (value x)) := by
  intro t ht
  obtain ⟨x, -, rfl⟩ := List.mem_map.1 ht
  simpa [Triple.inColumn] using (row x).toNat_lt

/-- Both copies of the binary rules hold the same totals. -/
theorem mem_column_iff (h : Made labels lexicon bounds productions kind g binary)
    {key : UInt32} {parent : UInt16} {score : Score} :
    (parent, score) ∈ g.binaryByPair.column key ↔ (key, score) ∈ g.binaryByParent.row parent := by
  rw [ColumnMatrix.mem_column h.binaryByPair (narrow_inColumn binary _ _ _),
    RowMatrix.mem_row h.binaryByParent]
  rw [Triple.total?_map_congr (g := fun (p, key, v) => ⟨p.toUInt32, key, v⟩)
    (j := Triple.place parent.toUInt32 key)]
  · rintro ⟨p, k, v⟩ -
    unfold Triple.rank
    rw [Triple.place_eq_iff, Triple.place_eq_iff]
    exact And.comm
  · intro x
    rfl

theorem mem_unaryColumn_iff (h : Made labels lexicon bounds productions kind g binary)
    {child parent : UInt16} {score : Score} :
    (parent, score) ∈ g.unaryByChild.column child.toUInt32 ↔ g.HasUnary parent child score := by
  unfold HasUnary
  rw [ColumnMatrix.mem_column h.unaryByChild (narrow_inColumn (unaryOf productions) _ _ _),
    RowMatrix.mem_row h.unaryByParent]
  rw [Triple.total?_map_congr (g := fun (p, c, v) => ⟨p.toUInt32, c.toUInt32, v⟩)
    (j := Triple.place parent.toUInt32 child.toUInt32)]
  · rintro ⟨p, c, v⟩ -
    unfold Triple.rank
    rw [Triple.place_eq_iff, Triple.place_eq_iff]
    exact And.comm
  · intro x
    rfl

/-- An entry of a row comes from a rule whose pair has the key. -/
theorem exists_rule (h : Made labels lexicon bounds productions kind g binary)
    {parent : UInt16} {key : UInt32} {score : Score}
    (hmem : (key, score) ∈ g.binaryByParent.row parent) :
    ∃ left right value, (parent, left, right, value) ∈ binaryOf productions ∧
      g.packing.pack left right = some key := by
  rw [RowMatrix.mem_row h.binaryByParent] at hmem
  obtain ⟨t, ht, hrank⟩ := Triple.exists_of_total? hmem
  obtain ⟨⟨p, k, v⟩, hentry, rfl⟩ := List.mem_map.1 ht
  obtain ⟨hp, rfl⟩ := Triple.place_eq_iff.1 hrank
  obtain rfl := toUInt32_inj hp
  obtain ⟨left, right, hrule, hpack⟩ := (mem_keyed h.keyed).1 hentry
  exact ⟨left, right, v, hrule, hpack⟩

theorem row_lt {rows : Nat} {entries : List Triple} {m : RowMatrix}
    (h : RowMatrix.ofTriples? rows entries = some m) {row : UInt16} {column : UInt32}
    {value : Score} (hmem : (column, value) ∈ m.row row) : row.toNat < rows := by
  obtain ⟨hbucketed, -⟩ := RowMatrix.ofTriples?_eq h
  have ht := (RowMatrix.mem_row h).1 hmem
  have hlt := hbucketed.major_lt ⟨row.toUInt32, column, value⟩
    (((Triple.accumulate_spec entries).mem _).2 ht)
  simpa using hlt

theorem get_of_mem {rows : Nat} {entries : List Triple} {m : RowMatrix}
    (h : RowMatrix.ofTriples? rows entries = some m) {row : UInt16} {column : UInt32}
    {value : Score} (hmem : (column, value) ∈ m.row row) : m.get row column = value := by
  rw [RowMatrix.get_eq h, (RowMatrix.mem_row h).1 hmem, Option.getD_some]

theorem mem_of_get {rows : Nat} {entries : List Triple} {m : RowMatrix}
    (h : RowMatrix.ofTriples? rows entries = some m) {row : UInt16} {column : UInt32}
    (hget : m.get row column ≠ Score.absent) : ∃ value, (column, value) ∈ m.row row := by
  rw [RowMatrix.get_eq h] at hget
  cases htotal : Triple.total? entries (Triple.place row.toUInt32 column) with
  | none => rw [htotal] at hget; exact absurd rfl hget
  | some value => exact ⟨value, (RowMatrix.mem_row h).2 htotal⟩

/-- The tables of a grammar agree, if its start symbol and its tags are in it. -/
theorem coherent (h : Made labels lexicon bounds productions kind g binary)
    (hsize : g.size ≤ 65535) (hstart : g.start.toNat < g.size)
    (htags : ∀ entry ∈ lexicalOf productions, entry.1.toNat < g.size) : g.Coherent := by
  have hcount : g.size = labels.size := congrArg LabelTable.size h.labels_eq
  have hlexical := narrow_inColumn (lexicalOf productions) (·.1) (·.2.1) (·.2.2)
  constructor
  case size_le => exact hsize
  case start_lt => exact hstart
  case unpack_of_pack =>
    intro left right key hpack
    exact Packing.unpack_of_pack h.packing hpack
  case populated =>
    intro i hi
    exact ColumnMatrix.populatedColumn_eq h.binaryByPair hi
  case mem_populated => exact ColumnMatrix.mem_populated h.binaryByPair
  case binary =>
    intro key parent score
    rw [h.mem_column_iff]
    constructor
    · intro hmem
      obtain ⟨left, right, value, -, hpack⟩ := h.exists_rule hmem
      exact ⟨left, right, hpack, key, hpack, hmem⟩
    · rintro ⟨left, right, hpack, key', hpack', hmem⟩
      rw [hpack] at hpack'
      rwa [Option.some.inj hpack']
  case unary => exact h.mem_unaryColumn_iff
  case range =>
    rintro parent left right score ⟨key, hpack, hmem⟩
    obtain ⟨left', right', value, hrule, hpack'⟩ := h.exists_rule hmem
    have hpair := (Packing.unpack_of_pack h.packing hpack).1
    rw [(Packing.unpack_of_pack h.packing hpack').1] at hpair
    cases hpair
    have hin : (left, right) ∈ pairsOf productions := List.mem_map.2 ⟨_, hrule, rfl⟩
    unfold siblingRange?
    rw [h.ranges]
    exact covers_rangesOf (h.lefts _ hin) hin
  case binary_lt =>
    rintro parent left right score ⟨key, -, hmem⟩
    rw [hcount]
    exact row_lt h.binaryByParent hmem
  case unary_lt =>
    intro parent child score hmem
    rw [hcount]
    exact row_lt h.unaryByParent hmem
  case tag_lt =>
    intro tag word score hmem
    obtain ⟨t, ht, hrank⟩ :=
      Triple.exists_of_total? ((ColumnMatrix.mem_column h.lexical hlexical).1 hmem)
    obtain ⟨entry, hentry, rfl⟩ := List.mem_map.1 ht
    obtain ⟨-, htag⟩ := Triple.place_eq_iff.1 hrank
    obtain rfl := toUInt32_inj htag
    exact htags entry hentry
  case binaryLogProb =>
    rintro parent left right score ⟨key, hpack, hmem⟩
    unfold Grammar.binaryLogProb
    rw [hpack]
    exact get_of_mem h.binaryByParent hmem
  case unaryLogProb =>
    intro parent child score hmem
    exact get_of_mem h.unaryByParent hmem
  case lexicalLogProb =>
    intro tag word score hmem
    unfold Grammar.lexicalLogProb
    rw [ColumnMatrix.get_eq h.lexical hlexical,
      (ColumnMatrix.mem_column h.lexical hlexical).1 hmem, Option.getD_some]
  case binary_of_logProb =>
    intro parent left right hne
    unfold Grammar.binaryLogProb at hne
    split at hne
    · rename_i key hpack
      obtain ⟨score, hmem⟩ := mem_of_get h.binaryByParent hne
      exact ⟨score, key, hpack, hmem⟩
    · exact absurd rfl hne
  case unary_of_logProb =>
    intro parent child hne
    exact mem_of_get h.unaryByParent hne
  case tag_of_logProb =>
    intro tag word hne
    unfold Grammar.lexicalLogProb at hne
    rw [ColumnMatrix.get_eq h.lexical hlexical] at hne
    cases htotal : Triple.total? ((lexicalOf productions).map fun (p, w, v) => .inColumn p w v)
        (Triple.place word tag.toUInt32) with
    | none => rw [htotal] at hne; exact absurd rfl hne
    | some score => exact ⟨score, (ColumnMatrix.mem_column h.lexical hlexical).2 htotal⟩

end Made

end Grammar
end ChartParsing

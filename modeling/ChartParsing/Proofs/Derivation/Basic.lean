import ChartParsing.Proofs.Grammar.Coherent
import ChartParsing.Proofs.Schedule
import ChartParsing.Tree.Basic

/-!
# Derivations

A derivation puts a tag over a single word, and other non-terminals over one or two
derivations. It says nothing of positions: from a first word on it covers as many words
as it has tags.
-/

namespace ChartParsing

inductive Derivation
  | tag (nt : UInt16)
  | unary (nt : UInt16) (child : Derivation)
  | binary (nt : UInt16) (left right : Derivation)
  deriving DecidableEq, Repr

namespace Derivation

def root : Derivation → UInt16
  | tag nt | unary nt _ | binary nt _ _ => nt

/-- The number of words. -/
def width : Derivation → Nat
  | tag _ => 1
  | unary _ child => child.width
  | binary _ left right => left.width + right.width

/-- The score from a first word on: those of its rules, added in the order in which they
are written. -/
def score (g : Grammar) (words : Array UInt32) : Nat → Derivation → Score
  | start, tag nt => g.lexicalLogProb nt (words.getD start 0)
  | start, unary nt child => g.unaryLogProb nt child.root + child.score g words start
  | start, binary nt left right => g.binaryLogProb nt left.root right.root +
      (left.score g words start + right.score g words (start + left.width))

/-- Every node stands for a rule of the grammar or an entry of the lexicon. -/
def Licensed (g : Grammar) (words : Array UInt32) : Nat → Derivation → Prop
  | start, tag nt => ∃ score, g.HasTag nt (words.getD start 0) score
  | start, unary nt child => (∃ score, g.HasUnary nt child.root score) ∧
      child.Licensed g words start
  | start, binary nt left right => (∃ score, g.HasBinary nt left.root right.root score) ∧
      left.Licensed g words start ∧ right.Licensed g words (start + left.width)

/-- The span of every node is open. -/
def Open (isOpen : Span → Prop) : Nat → Derivation → Prop
  | start, tag _ => isOpen (Span.ofLength start 1)
  | start, unary _ child => isOpen (Span.ofLength start child.width) ∧ child.Open isOpen start
  | start, binary _ left right => isOpen (Span.ofLength start (left.width + right.width)) ∧
      left.Open isOpen start ∧ right.Open isOpen (start + left.width)

def IsUnary : Derivation → Prop
  | unary .. => True
  | _ => False

/-- There is no unary node. -/
def Binary : Derivation → Prop
  | tag _ => True
  | unary .. => False
  | binary _ left right => left.Binary ∧ right.Binary

/-- No unary node has a unary node as its child. -/
def Unchained : Derivation → Prop
  | tag _ => True
  | unary _ child => ¬child.IsUnary ∧ child.Unchained
  | binary _ left right => left.Unchained ∧ right.Unchained

/-- The tree from a first position on. -/
def tree : Nat → Derivation → Tree UInt16 Nat
  | start, tag nt => .branch ⟨nt, start, start + 1⟩ [.leaf ⟨start, start, start + 1⟩]
  | start, unary nt child => .branch ⟨nt, start, start + child.width⟩ [child.tree start]
  | start, binary nt left right => .branch ⟨nt, start, start + (left.width + right.width)⟩
      [left.tree start, right.tree (start + left.width)]

theorem width_pos (d : Derivation) : 0 < d.width := by
  induction d with
  | tag nt => exact Nat.one_pos
  | unary nt child ih => exact ih
  | binary nt left right ihl ihr => exact Nat.add_pos_left ihl _

/-- Without unary rules a licensed derivation has no unary node. -/
theorem Licensed.binary {g : Grammar} {words : Array UInt32} {start : Nat} {d : Derivation}
    (h : d.Licensed g words start) (hnone : ∀ parent child rule, ¬g.HasUnary parent child rule) :
    d.Binary := by
  induction d generalizing start with
  | tag nt => trivial
  | unary nt child ih =>
    obtain ⟨⟨rule, hrule⟩, -⟩ := h
    exact (hnone _ _ _ hrule).elim
  | binary nt left right ihl ihr => exact ⟨ihl h.2.1, ihr h.2.2⟩

/-- The span of a derivation is that of its root node. -/
theorem Open.root {isOpen : Span → Prop} {start : Nat} {d : Derivation}
    (h : d.Open isOpen start) : isOpen (Span.ofLength start d.width) := by
  cases d with
  | tag nt => exact h
  | unary nt child => exact h.1
  | binary nt left right => exact h.1

/-- The positions a tree covers. -/
theorem range_tree (d : Derivation) (start : Nat) :
    (d.tree start).range = (start, start + d.width) := by
  cases d <;> rfl

/-- The leaves of a tree are its positions from left to right. -/
theorem leaves_tree (d : Derivation) (start : Nat) :
    (d.tree start).leaves = List.range' start d.width := by
  induction d generalizing start with
  | tag nt => rfl
  | unary nt child ih =>
    change (child.tree start).leaves ++ [] = _
    rw [List.append_nil, ih]
    rfl
  | binary nt left right ihl ihr =>
    change (left.tree start).leaves ++ ((right.tree (start + left.width)).leaves ++ []) = _
    rw [List.append_nil, ihl, ihr, List.range'_append_1]
    rfl

end Derivation

namespace Tree

/-- Trees that follow one another without gaps from one position to another. -/
def Abut : Nat → Nat → List (Tree α β) → Prop
  | start, stop, [] => start = stop
  | start, stop, t :: ts => t.range.1 = start ∧ Abut t.range.2 stop ts

mutual

/-- The children of every branch abut and cover what it covers. -/
def Contiguous : Tree α β → Prop
  | branch c children => Abut c.start c.stop children ∧ ContiguousAll children
  | leaf _ => True

/-- Every tree of a list is contiguous. -/
def ContiguousAll : List (Tree α β) → Prop
  | [] => True
  | t :: ts => t.Contiguous ∧ ContiguousAll ts

end

mutual

/-- Mapping a tree maps its words. -/
theorem leaves_map (f : Covering α → γ) (h : β → δ) (t : Tree α β) :
    (t.map f fun w => h w.value).leaves = t.leaves.map h := by
  cases t with
  | leaf w => rfl
  | branch c children => exact leavesOfAll_mapAll f h children

theorem leavesOfAll_mapAll (f : Covering α → γ) (h : β → δ) (ts : List (Tree α β)) :
    leavesOfAll (mapAll f (fun w => h w.value) ts) = (leavesOfAll ts).map h := by
  cases ts with
  | nil => rfl
  | cons t ts =>
    change (t.map f fun w => h w.value).leaves ++ leavesOfAll (mapAll f _ ts) =
      (t.leaves ++ leavesOfAll ts).map h
    rw [leaves_map f h t, leavesOfAll_mapAll f h ts, List.map_append]

end

/-- Mapping a tree leaves its positions. -/
theorem range_map (f : Covering α → γ) (h : Covering β → δ) (t : Tree α β) :
    (t.map f h).range = t.range := by
  cases t <;> rfl

theorem abut_mapAll (f : Covering α → γ) (h : Covering β → δ) (start stop : Nat)
    (ts : List (Tree α β)) : Abut start stop (mapAll f h ts) ↔ Abut start stop ts := by
  induction ts generalizing start with
  | nil => rfl
  | cons t ts ih =>
    change (t.map f h).range.1 = start ∧ Abut (t.map f h).range.2 stop (mapAll f h ts) ↔ _
    rw [range_map, ih]
    rfl

mutual

theorem contiguous_map (f : Covering α → γ) (h : Covering β → δ) (t : Tree α β)
    (ht : t.Contiguous) : (t.map f h).Contiguous := by
  cases t with
  | leaf w => trivial
  | branch c children =>
    exact ⟨(abut_mapAll f h c.start c.stop children).2 ht.1,
      contiguousAll_mapAll f h children ht.2⟩

theorem contiguousAll_mapAll (f : Covering α → γ) (h : Covering β → δ) (ts : List (Tree α β))
    (hts : ContiguousAll ts) : ContiguousAll (mapAll f h ts) := by
  cases ts with
  | nil => trivial
  | cons t ts => exact ⟨contiguous_map f h t hts.1, contiguousAll_mapAll f h ts hts.2⟩

end

end Tree

namespace Derivation

theorem contiguous_tree (d : Derivation) (start : Nat) : (d.tree start).Contiguous := by
  induction d generalizing start with
  | tag nt => exact ⟨⟨rfl, rfl⟩, trivial, trivial⟩
  | unary nt child ih =>
    refine ⟨⟨?_, ?_⟩, ih start, trivial⟩
    · rw [range_tree]
    · rw [range_tree]
      rfl
  | binary nt left right ihl ihr =>
    refine ⟨⟨?_, ?_, ?_⟩, ihl start, ihr _, trivial⟩
    · rw [range_tree]
    · rw [range_tree, range_tree]
    · rw [range_tree]
      exact Nat.add_assoc start left.width right.width

end Derivation
end ChartParsing

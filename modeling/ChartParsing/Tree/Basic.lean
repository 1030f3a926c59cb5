/-!
# Trees

A tree over a sentence has constituents as its branches and words as its leaves,
each over the positions it covers.
-/

namespace ChartParsing

/-- A value over the positions of a sentence from `start` to `stop`. -/
structure Covering (α : Type) where
  value : α
  start : Nat
  stop : Nat
  deriving DecidableEq, Repr

namespace Covering

def text (render : α → String) (c : Covering α) : String :=
  toString c.start ++ ".." ++ toString c.stop ++ ": " ++ render c.value

def map (f : Covering α → β) (c : Covering α) : Covering β := ⟨f c, c.start, c.stop⟩

/-- Whether the positions are in order, so that they have a number. -/
def isOrdered (c : Covering α) : Bool := c.start ≤ c.stop

end Covering

inductive Tree (α β : Type)
  | branch (constituent : Covering α) (children : List (Tree α β))
  | leaf (word : Covering β)

namespace Tree

def isLeaf : Tree α β → Bool
  | branch .. => false
  | leaf _ => true

/-- The positions a tree covers. -/
def range : Tree α β → Nat × Nat
  | branch c _ => (c.start, c.stop)
  | leaf w => (w.start, w.stop)

mutual

/-- The words under a tree from left to right. -/
def leaves : Tree α β → List β
  | branch _ children => leavesOfAll children
  | leaf w => [w.value]

def leavesOfAll : List (Tree α β) → List β
  | [] => []
  | t :: ts => t.leaves ++ leavesOfAll ts

end

mutual

/-- The constituents of a tree, a branch before its children. -/
def constituents : Tree α β → List (Covering α)
  | branch c children => c :: constituentsOfAll children
  | leaf _ => []

def constituentsOfAll : List (Tree α β) → List (Covering α)
  | [] => []
  | t :: ts => t.constituents ++ constituentsOfAll ts

end

mutual

/-- The tree with other values at its branches and leaves. -/
def map (f : Covering α → γ) (g : Covering β → δ) : Tree α β → Tree γ δ
  | branch c children => branch (c.map f) (mapAll f g children)
  | leaf w => leaf (w.map g)

def mapAll (f : Covering α → γ) (g : Covering β → δ) : List (Tree α β) → List (Tree γ δ)
  | [] => []
  | t :: ts => t.map f g :: mapAll f g ts

end

mutual

/-- The tree in brackets, as in `(S (NP (n dog)) (VP (v barks)))`. -/
def brackets (branchText : α → String) (leafText : β → String) : Tree α β → String
  | branch c children =>
    "(" ++ branchText c.value ++ bracketsOfAll branchText leafText children ++ ")"
  | leaf w => leafText w.value

def bracketsOfAll (branchText : α → String) (leafText : β → String) :
    List (Tree α β) → String
  | [] => ""
  | t :: ts => " " ++ t.brackets branchText leafText ++ bracketsOfAll branchText leafText ts

end

mutual

/-- The texts of all constituents and words, a branch before its children. -/
def nodes (branchText : α → String) (leafText : β → String) : Tree α β → List String
  | branch c children => c.text branchText :: nodesOfAll branchText leafText children
  | leaf w => [w.text leafText]

def nodesOfAll (branchText : α → String) (leafText : β → String) :
    List (Tree α β) → List String
  | [] => []
  | t :: ts => t.nodes branchText leafText ++ nodesOfAll branchText leafText ts

end

mutual

def same [DecidableEq α] [DecidableEq β] : Tree α β → Tree α β → Bool
  | branch c cs, branch d ds => c = d && sameAll cs ds
  | leaf v, leaf w => v = w
  | _, _ => false

def sameAll [DecidableEq α] [DecidableEq β] : List (Tree α β) → List (Tree α β) → Bool
  | [], [] => true
  | s :: ss, t :: ts => s.same t && sameAll ss ts
  | _, _ => false

end

instance [DecidableEq α] [DecidableEq β] : BEq (Tree α β) := ⟨same⟩

end Tree
end ChartParsing

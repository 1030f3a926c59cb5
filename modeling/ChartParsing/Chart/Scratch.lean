import ChartParsing.Chart.Cell

/-!
# Scratch tables

A cell is filled in a table with a place for every non-terminal, and compacted
when it is done. A place without an entry holds the score of what is absent. The
non-terminals with entries are also listed, so that a reset touches only those.
-/

namespace ChartParsing

structure Scratch where
  inside : Array Score
  children : Array Children
  midpoints : Array UInt16
  /-- The non-terminals with entries, in the order in which they got them. -/
  populated : Array UInt16

namespace Scratch

def new (size : Nat) : Scratch :=
  ⟨Array.replicate size Score.absent, Array.replicate size (.unary 0), Array.replicate size 0, #[]⟩

variable (s : Scratch)

def holds (nt : UInt16) : Bool := nt.toNat < s.inside.size

def size : Nat := s.populated.size

def isEmpty : Bool := s.populated.isEmpty

def insideOf (nt : UInt16) : Score := s.inside.getD nt.toNat Score.absent

/-- What a place holds, whether or not it counts as an entry. -/
def place (nt : UInt16) : ChartEntry :=
  ⟨nt, s.insideOf nt, s.children.getD nt.toNat default, s.midpoints.getD nt.toNat 0⟩

def entryOf? (nt : UInt16) : Option ChartEntry :=
  if s.insideOf nt != Score.absent then some (s.place nt) else none

def reset : Scratch :=
  { s with
    inside := s.populated.foldl (fun xs nt => xs.setIfInBounds nt.toNat Score.absent) s.inside
    midpoints := s.populated.foldl (fun xs nt => xs.setIfInBounds nt.toNat 0) s.midpoints
    populated := #[] }

/-- Writes an entry, listing its non-terminal if it had none. -/
def write (e : ChartEntry) : Scratch :=
  let i := e.nt.toNat
  let listed := s.insideOf e.nt != Score.absent
  { inside := s.inside.setIfInBounds i e.inside
    children := s.children.setIfInBounds i e.children
    midpoints := s.midpoints.setIfInBounds i e.midpoint
    populated := if listed then s.populated else s.populated.push e.nt }

/-- Keeps an entry if its score is above the present one. -/
def update (e : ChartEntry) : Bool × Scratch :=
  if e.inside > s.insideOf e.nt then (true, s.write e) else (false, s)

/-- Writes an entry whatever the present one is; an absent score writes nothing. -/
def set (e : ChartEntry) : Scratch :=
  if e.inside == Score.absent then s else s.write e

def sorted : List UInt16 := s.populated.toList.mergeSort fun a b => a ≤ b

/-- Lists the populated non-terminals in increasing order from here on. -/
def sort : Scratch := { s with populated := s.sorted.toArray }

/-- Fills a cell with the entries in increasing order, in place of its own. -/
def finalizeInto (cell : Cell) : Cell × Scratch :=
  (s.sorted.foldl (fun cell nt => cell.push (s.place nt)) cell.clear, s.sort)

end Scratch
end ChartParsing

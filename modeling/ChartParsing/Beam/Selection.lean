import ChartParsing.Beam.Queue
import ChartParsing.Capacity
import ChartParsing.Chart.RuleSteps
import ChartParsing.Merit

/-!
# Choosing the entries of a cell

The entries of a scratch table compete for a limited number of places in a cell,
best first. Each non-terminal that gets in offers its unary parents, which
compete for the places that are left. A parent that was let in before and comes
again with a better edge only has its edge exchanged.
-/

namespace ChartParsing

/-- The queue and the tables of a selection, kept from cell to cell. -/
structure BeamSelector where
  queue : BeamQueue
  /-- The merit with which a non-terminal was last queued. -/
  queued : Array Score
  /-- The merit with which a non-terminal was let in. -/
  admitted : Array Score
  chosen : Scratch

namespace BeamSelector

def new (size : Nat) : BeamSelector :=
  ⟨BeamQueue.empty, Array.replicate size Score.absent, Array.replicate size Score.absent,
    Scratch.new size⟩

variable (b : BeamSelector)

def queuedAt (nt : UInt16) : Score := b.queued.getD nt.toNat Score.absent

def admittedAt (nt : UInt16) : Score := b.admitted.getD nt.toNat Score.absent

def enqueue (rank : UInt16 → Score → Score) (s : Scratch) (b : BeamSelector) (nt : UInt16) :
    BeamSelector :=
  let merit := rank nt (s.insideOf nt)
  { b with
    queue := (b.queue.insert nt merit).2
    queued := b.queued.setIfInBounds nt.toNat merit }

/-- Lets an entry in, or exchanges the edge it was let in with. -/
def accept (e : ChartEntry) (merit : Score) : BeamSelector :=
  { b with
    chosen := b.chosen.set e
    admitted := b.admitted.setIfInBounds e.nt.toNat merit }

/-- Offers a unary parent of an entry just let in. -/
def offer (merit : Merit) (span : Span) (child : ChartEntry) (state : BeamSelector × Scratch)
    (edge : UInt16 × Score) : BeamSelector × Scratch :=
  let (b, s) := state
  let (parent, rule) := edge
  let inside := rule + child.inside
  let rank := merit.score span.start span.stop parent inside
  if rank > b.queuedAt parent ∧ rank > b.admittedAt parent then
    match b.queue.replace parent rank with
    | (true, queue) =>
      ({ b with queue, queued := b.queued.setIfInBounds parent.toNat rank },
        s.set ⟨parent, inside, .unary child.nt, span.stop⟩)
    | (false, queue) => ({ b with queue }, s)
  else (b, s)

/-- Takes entries out of the queue while places are left. The queue hands out no
more than its capacity, which bounds the steps. -/
def choose (g : Grammar) (merit : Merit) (span : Span) :
    (steps places : Nat) → BeamSelector × Scratch → BeamSelector × Scratch
  | 0, _, state => state
  | _, 0, state => state
  | steps + 1, places + 1, (b, s) =>
    match b.queue.pop? with
    | none => (b, s)
    | some ((nt, rank), queue) =>
      let b := { b with queue }
      match s.entryOf? nt with
      | none => choose g merit span steps (places + 1) (b, s)
      | some entry =>
        if b.admittedAt nt != Score.absent then
          let b := if rank > b.admittedAt nt then b.accept entry rank else b
          choose g merit span steps (places + 1) (b, s)
        else
          let state := (g.unaryByChild.column nt.toUInt32).foldl (offer merit span entry)
            (b.accept entry rank, s)
          choose g merit span steps places state

def forget (s : Scratch) : BeamSelector :=
  { b with
    queued := s.populated.foldl (fun xs nt => xs.setIfInBounds nt.toNat Score.absent) b.queued
    admitted := b.chosen.populated.foldl
      (fun xs nt => xs.setIfInBounds nt.toNat Score.absent) b.admitted }

def allows (span : Span) (width : Nat) : Bool := span.start ≤ span.stop && canHold width

/-- Fills a cell with at most `width` entries of a scratch table and their unary
parents. In the cell of a single word, `held` places are kept for parents: the
tags compete for the others alone. -/
def select (g : Grammar) (merit : Merit) (span : Span) (width held : Nat) (s : Scratch)
    (cell : Cell) (b : BeamSelector) : Cell × Scratch × BeamSelector :=
  let single := span.width = 1
  let queue := b.queue.clear width
  let queue := if single then queue.setMaxSize (width - held) else queue
  let s := s.sort
  let rank (nt : UInt16) (inside : Score) : Score :=
    if single then merit.lexicalScore span.start span.stop nt inside
    else merit.score span.start span.stop nt inside
  let b := s.populated.foldl (enqueue rank s) { b with queue }
  let b := if single then { b with queue := b.queue.setMaxSize width } else b
  let (b, s) := choose g merit span b.queue.capacity width (b, s)
  let b := b.forget s
  let (cell, chosen) := b.chosen.finalizeInto cell
  (cell, s, { b with chosen := chosen.reset })

end BeamSelector
end ChartParsing

import ChartParsing.Score

/-!
# Bounded priority queues

A queue of non-terminals, best first, in a pair of arrays with a place for every
entry that it may come to hold. The entries lie from `head` to `tail`, and `tail`
never passes `maxTail`. Taking an entry out moves `head` and leaves `maxTail` where it
is, so it also takes away a place: a queue never hands out more entries than its size,
however many are put in. Entries of equal merit keep the order in which they came.
-/

namespace ChartParsing

structure BeamQueue where
  nts : Array UInt16
  merits : Array Score
  head : Nat
  tail : Nat
  maxTail : Nat

namespace BeamQueue

def empty : BeamQueue := ⟨#[], #[], 0, 0, 0⟩

/-- The array with at least `size` places; those that are added hold `x`. -/
def padTo {α : Type} (size : Nat) (x : α) (xs : Array α) : Array α :=
  xs ++ Array.replicate (size - xs.size) x

variable (q : BeamQueue)

def reserve (size : Nat) : BeamQueue :=
  { q with nts := padTo size 0 q.nts, merits := padTo size Score.absent q.merits }

def clear (size : Nat) : BeamQueue :=
  { q.reserve size with head := 0, tail := 0, maxTail := size }

def new (size : Nat) : BeamQueue := empty.clear size

def size : Nat := q.tail - q.head

def isEmpty : Bool := q.head = q.tail

/-- The places that are left, taken or not. -/
def capacity : Nat := q.maxTail - q.head

/-- Limits the queue to `size` places from its head on, dropping the worst
entries if it has more. -/
def setMaxSize (size : Nat) : BeamQueue :=
  let maxTail := q.head + size
  { q.reserve maxTail with maxTail := maxTail, tail := min q.tail maxTail }

def slot (i : Nat) : UInt16 × Score := (q.nts.getD i 0, q.merits.getD i Score.absent)

def meritAt (i : Nat) : Score := q.merits.getD i Score.absent

def toList : List (UInt16 × Score) := (List.range' q.head q.size).map q.slot

def head? : Option (UInt16 × Score) := if q.isEmpty then none else some (q.slot q.head)

def pop? : Option ((UInt16 × Score) × BeamQueue) :=
  q.head?.map fun entry => (entry, { q with head := q.head + 1 })

def swapUp (i : Nat) : BeamQueue :=
  { q with nts := q.nts.swapIfInBounds (i - 1) i, merits := q.merits.swapIfInBounds (i - 1) i }

/-- Moves the entry at an index up past the entries of lower merit. -/
def sortUp (q : BeamQueue) : Nat → BeamQueue
  | 0 => q
  | i + 1 =>
    if q.head ≤ i ∧ q.meritAt i < q.meritAt (i + 1) then (q.swapUp (i + 1)).sortUp i else q

def put (i : Nat) (nt : UInt16) (merit : Score) : BeamQueue :=
  sortUp { q with
    nts := q.nts.setIfInBounds i nt
    merits := q.merits.setIfInBounds i merit } i

/-- Adds an entry, in place of the worst if the queue is full. Tells whether the
entry got in. -/
def insert (nt : UInt16) (merit : Score) : Bool × BeamQueue :=
  if q.tail = q.maxTail then
    if q.tail = q.head ∨ merit ≤ q.meritAt (q.tail - 1) then (false, q)
    else (true, q.put (q.tail - 1) nt merit)
  else (true, { q with tail := q.tail + 1 }.put q.tail nt merit)

/-- The index of the first entry of a non-terminal. -/
def find? (nt : UInt16) : Option Nat :=
  (List.range' q.head q.size).find? fun i => q.nts.getD i 0 = nt

/-- Raises the merit of a non-terminal that has a lower one, or adds it if it is
not in the queue. Tells whether the queue changed. -/
def replace (nt : UInt16) (merit : Score) : Bool × BeamQueue :=
  match q.find? nt with
  | some i =>
    if merit > q.meritAt i then
      (true, sortUp { q with merits := q.merits.setIfInBounds i merit } i)
    else (false, q)
  | none => q.insert nt merit

/-- Takes out up to `count` entries, best first. -/
def drain : Nat → BeamQueue → List (UInt16 × Score) × BeamQueue
  | 0, q => ([], q)
  | count + 1, q =>
    match q.pop? with
    | some (entry, q) =>
      let (entries, q) := drain count q
      (entry :: entries, q)
    | none => ([], q)

end BeamQueue
end ChartParsing

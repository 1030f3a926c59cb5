import ChartParsing.Score

/-!
# Weighted positions

Both sparse formats are built from positions with a score. Scores given for one
position are added as probabilities, in the order in which they are listed.
-/

namespace ChartParsing

/-- A score at a position; the major index is the one a format is bucketed by. -/
structure Triple where
  major : UInt32
  minor : UInt32
  value : Score

namespace Triple

def le (t u : Triple) : Bool :=
  t.major < u.major || (t.major = u.major && t.minor ≤ u.minor)

def sameCell (t u : Triple) : Bool := t.major = u.major && t.minor = u.minor

/-- Appends a triple, or adds it to the last one if both are for one position. -/
def append (merged : Array Triple) (t : Triple) : Array Triple :=
  match merged.back? with
  | some last =>
    if last.sameCell t then
      merged.pop.push { last with value := Score.logSum last.value t.value }
    else merged.push t
  | none => merged.push t

/-- The triples in increasing order of position, one for each. -/
def accumulate (triples : List Triple) : Array Triple :=
  (triples.mergeSort le).foldl append #[]

/-- The accumulated triples, if they can be bucketed. Their major indices must be below
`count`, and as the offsets of the buckets are sums in 32 bits, which overflow from
2^32 triples on, there must be fewer; a run stops where this does not hold. -/
def accumulate? (count : Nat) (triples : List Triple) : Option (Array Triple) :=
  let merged := accumulate triples
  if merged.size < 0x100000000 && merged.all fun t => t.major.toNat < count then some merged
  else none

/-- Where each bucket starts in a sequence sorted by bucket; the last offset is
the length of the sequence. -/
def offsets (count : Nat) (buckets : Array Nat) : Array UInt32 :=
  let counts : Array UInt32 := buckets.foldl (fun counts b => counts.modify (b + 1) (· + 1))
    (Array.replicate (count + 1) 0)
  (counts.foldl (fun (found, sum) n => (found.push (sum + n), sum + n)) (#[], 0)).1

end Triple
end ChartParsing

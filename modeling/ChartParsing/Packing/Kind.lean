/-!
# Packing strategies

A packing encodes a pair of children as one key. Three strategies trade the size
of the key space against the work of building it.
-/

namespace ChartParsing

/-- How child pairs are packed into keys. -/
inductive PackingKind
  | shift
  | bitVector
  | perfectHash
  deriving DecidableEq, Repr, Inhabited

namespace PackingKind

def name : PackingKind → String
  | shift => "shift"
  | bitVector => "bit-vector"
  | perfectHash => "perfect-hash"

/-- The strategy a name stands for, whatever the case of its letters. -/
def ofName? (name : String) : Option PackingKind :=
  let name := name.map Char.toLower
  if name = "shift" then some shift
  else if name ∈ ["bit-vector", "bitvector", "bv"] then some bitVector
  else if name ∈ ["perfect-hash", "perfecthash", "hash"] then some perfectHash
  else none

def unknownMessage (name : String) : String := "unknown packing function: " ++ name

end PackingKind
end ChartParsing

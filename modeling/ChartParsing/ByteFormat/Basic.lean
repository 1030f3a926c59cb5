/-!
# Byte formats

Data is saved as bytes by libraries: one for words, scores, texts and sequences of what it can
write, one for sets of keys, and one for maps, which settles the order in which their entries
are written. A byte format is what these make together. Records and variants are composed of
them field by field.
-/

namespace ChartParsing

/-- A way to write values as bytes, and to read one from the front of some bytes. -/
structure Codec (α : Type) where
  write : α → List UInt8
  read : List UInt8 → Except String (α × List UInt8)

namespace Codec

variable {α β : Type}

/-- Values that stand for values of another type. -/
def via (c : Codec β) (encode : α → β) (decode : β → α) : Codec α where
  write a := c.write (encode a)
  read bytes := (c.read bytes).map fun (b, rest) => (decode b, rest)

def pair (c : Codec α) (d : Codec β) : Codec (α × β) where
  write v := c.write v.1 ++ d.write v.2
  read bytes := do
    let (a, rest) ← c.read bytes
    let (b, rest) ← d.read rest
    return ((a, b), rest)

def zipped (c : Codec (List α)) (d : Codec (List β)) : Codec (List (α × β)) :=
  (c.pair d).via List.unzip fun (as, bs) => as.zip bs

def elements (c : Codec (List β)) (encode : α → β) (decode : β → α) : Codec (Array α) :=
  c.via (fun xs => xs.toList.map encode) fun ys => (ys.map decode).toArray

end Codec

structure ByteFormat where
  word8 : Codec UInt8
  word16 : Codec UInt16
  word32 : Codec UInt32
  word64 : Codec UInt64
  single : Codec Float32
  text : Codec String
  sequence : {α : Type} → Codec α → Codec (List α)
  /-- A set of keys, by its capacity and its members in increasing order. -/
  keySet : Codec (UInt64 × List UInt32)
  /-- The entries of a map in the order in which the map goes through them. -/
  mapOrder : List (String × UInt32) → List (String × UInt32)
  /-- What is said of a variant that a type does not have. -/
  unknownVariant : UInt32 → String

end ChartParsing

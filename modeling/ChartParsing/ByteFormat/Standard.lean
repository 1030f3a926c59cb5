import ChartParsing.ByteFormat.Basic

/-!
# The standard byte format

Words of more than one byte are written in as few bytes as they need: up to 250 as that byte,
and otherwise after a mark that tells whether two, four or eight bytes follow, least first. A
score is written by its bits, a text and a sequence after their lengths, and a set of keys as
the words whose bits are the keys in it.
-/

namespace ChartParsing.ByteFormat.Standard

def unexpectedEnd : String := "unexpected end of bytes"

def takeBytes : Nat → List UInt8 → Except String (List UInt8 × List UInt8)
  | 0, bytes => .ok ([], bytes)
  | _ + 1, [] => .error unexpectedEnd
  | n + 1, b :: bytes => (takeBytes n bytes).map fun (taken, rest) => (b :: taken, rest)

def littleEndian : Nat → Nat → List UInt8
  | 0, _ => []
  | width + 1, n => UInt8.ofNat n :: littleEndian width (n / 256)

def ofLittleEndian : List UInt8 → Nat
  | [] => 0
  | b :: bytes => b.toNat + 256 * ofLittleEndian bytes

def fixed (width : Nat) : Codec Nat where
  write := littleEndian width
  read bytes := (takeBytes width bytes).map fun (taken, rest) => (ofLittleEndian taken, rest)

/-- A number below `2 ^ 64`, in no more than so many bytes after the mark. -/
def number (width : Nat) : Codec Nat where
  write n :=
    if n < 251 then [UInt8.ofNat n]
    else if n < 0x10000 then 251 :: littleEndian 2 n
    else if n < 0x100000000 then 252 :: littleEndian 4 n
    else 253 :: littleEndian 8 n
  read
    | [] => .error unexpectedEnd
    | mark :: bytes =>
      if mark < 251 then .ok (mark.toNat, bytes)
      else if mark = 251 then (fixed 2).read bytes
      else if mark = 252 ∧ 4 ≤ width then (fixed 4).read bytes
      else if mark = 253 ∧ 8 ≤ width then (fixed 8).read bytes
      else .error "a number of another width"

def byte : Codec UInt8 := (fixed 1).via UInt8.toNat UInt8.ofNat

def word16 : Codec UInt16 := (number 2).via UInt16.toNat UInt16.ofNat

def word32 : Codec UInt32 := (number 4).via UInt32.toNat UInt32.ofNat

def word64 : Codec UInt64 := (number 8).via UInt64.toNat UInt64.ofNat

def single : Codec Float32 :=
  (fixed 4).via (fun x => x.toBits.toNat) fun n => Float32.ofBits (UInt32.ofNat n)

/-- The length of a sequence. What a machine can hold is below `2 ^ 64`; lists have no such
bound, so each further `2 ^ 64` is a mark of its own. -/
def writeLength (n : Nat) : List UInt8 :=
  if n < 0x10000000000000000 then (number 8).write n
  else 254 :: writeLength (n - 0x10000000000000000)
termination_by n

def readLength : List UInt8 → Except String (Nat × List UInt8)
  | [] => .error unexpectedEnd
  | mark :: bytes =>
    if mark = 254 then
      (readLength bytes).map fun (n, rest) => (n + 0x10000000000000000, rest)
    else (number 8).read (mark :: bytes)

def length : Codec Nat := ⟨writeLength, readLength⟩

variable {α : Type}

/-- Reads that many values, given those already read, last first. -/
def readMany (c : Codec α) : Nat → List α → List UInt8 → Except String (List α × List UInt8)
  | 0, reversed, bytes => .ok (reversed.reverse, bytes)
  | n + 1, reversed, bytes => do
    let (a, rest) ← c.read bytes
    readMany c n (a :: reversed) rest

def sequence (c : Codec α) : Codec (List α) where
  write xs := length.write xs.length ++ xs.flatMap c.write
  read bytes := do
    let (n, rest) ← length.read bytes
    readMany c n [] rest

def text : Codec String where
  write s := (sequence byte).write s.toByteArray.data.toList
  read bytes := do
    let (code, rest) ← (sequence byte).read bytes
    match String.fromUTF8? ⟨code.toArray⟩ with
    | some s => return (s, rest)
    | none => throw "not a text"

/-- The word whose bits are the keys from `32 * i` on. -/
def keyWord (keys : List UInt32) (i : Nat) : UInt32 :=
  keys.foldl (fun word (key : UInt32) =>
    if key.toNat / 32 = i then word ||| (1 <<< (key % 32)) else word) 0

/-- The keys of a word. -/
def keysOf (word : UInt32) (i : Nat) : List UInt32 :=
  (List.range 32).filterMap fun j =>
    if word.toNat.testBit j then some (UInt32.ofNat (32 * i + j)) else none

def keySet : Codec (UInt64 × List UInt32) :=
  ((sequence word32).pair word64).via
    (fun (capacity, keys) =>
      ((List.range ((capacity.toNat + 31) / 32)).map (keyWord keys), capacity))
    fun (words, capacity) => (capacity, words.zipIdx.flatMap fun (word, i) => keysOf word i)

end Standard

def standard : ByteFormat where
  word8 := Standard.byte
  word16 := Standard.word16
  word32 := Standard.word32
  word64 := Standard.word64
  single := Standard.single
  text := Standard.text
  sequence := Standard.sequence
  keySet := Standard.keySet
  mapOrder := id
  unknownVariant variant := s!"variant {variant} of three"

end ChartParsing.ByteFormat

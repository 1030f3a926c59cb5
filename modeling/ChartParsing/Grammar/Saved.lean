import ChartParsing.ByteFormat.Basic
import ChartParsing.Grammar.Basic

/-!
# Saved grammars

A compiled grammar is saved field by field: a record as its fields in their order, and a value
with variants as the number of its variant and what the variant holds. Bytes after the last
field are not looked at.
-/

namespace ChartParsing.Saved

variable (f : ByteFormat)

def array {α : Type} (c : Codec α) : Codec (Array α) := (f.sequence c).via Array.toList List.toArray

def interval : Codec Interval :=
  (f.word16.pair f.word16).via (fun r => (r.start, r.stop)) fun (start, stop) => ⟨start, stop⟩

def bounds : Codec ClassBounds :=
  (f.word16.pair (f.word16.pair (f.word16.pair (f.word16.pair (f.word16.pair f.word16))))).via
    (fun b => (b.rightChildOnly, b.partOfSpeech, b.eitherChild, b.leftChildOnly,
      b.unaryChildOnly, b.total))
    fun (r, p, e, l, u, n) => ⟨r, p, e, l, u, n⟩

def labelTable : Codec LabelTable :=
  ((array f f.text).pair (f.sequence (f.text.pair f.word32))).via
    (fun t => (t.labels, f.mapOrder t.entries))
    fun (labels, entries) => ⟨labels, .ofList entries⟩

/-! ## Packings -/

def shiftPacking : Codec ShiftPacking :=
  (f.word32.pair (f.word32.pair ((interval f).pair ((interval f).pair f.word64)))).via
    (fun p => (UInt32.ofNat p.shift, p.mask, p.lefts, p.rights, UInt64.ofNat p.size))
    fun (shift, mask, lefts, rights, size) => ⟨shift.toNat, mask, lefts, rights, size.toNat⟩

def bitVectorPacking : Codec BitVectorPacking :=
  ((shiftPacking f).pair f.keySet).via
    (fun p => (p.base, UInt64.ofNat p.base.size, p.keys.toList))
    fun (base, _, keys) => ⟨base, keys.toArray⟩

/-- Slot tables as the shifts, the masks and the offsets of all. -/
def leftBlocks : Codec (Array LeftBlock) :=
  ((f.sequence f.word8).zipped ((f.sequence f.word32).zipped (f.sequence f.word32))).elements
    (fun b => (b.shift.toUInt8, b.mask, b.offset))
    fun (shift, mask, offset) => ⟨shift.toUInt32, mask, offset⟩

def emptySlot : UInt32 := 0xffffffff

def slotWords : Option PairSlot → UInt32 × UInt32
  | some s => (s.right.toUInt32, s.key)
  | none => (emptySlot, emptySlot)

def ofSlotWords : UInt32 × UInt32 → Option PairSlot
  | (right, key) => if right = emptySlot then none else some ⟨right.toUInt16, key⟩

def pairSlots : Codec (Array (Option PairSlot)) :=
  ((f.sequence f.word32).zipped (f.sequence f.word32)).elements slotWords ofSlotWords

def pairHash : Codec PairHash :=
  ((interval f).pair ((leftBlocks f).pair ((pairSlots f).pair
    (array f (f.word16.pair f.word16))))).via
    (fun h => (h.lefts, h.blocks, h.slots, h.pairs))
    fun (lefts, blocks, slots, pairs) => ⟨lefts, blocks, slots, pairs⟩

def packing : Codec Packing where
  write
    | .shift p => f.word32.write 0 ++ (shiftPacking f).write p
    | .bitVector p => f.word32.write 1 ++ (bitVectorPacking f).write p
    | .perfectHash p => f.word32.write 2 ++ (pairHash f).write p
  read bytes := do
    let (variant, rest) ← f.word32.read bytes
    if variant = 0 then ((shiftPacking f).read rest).map (Prod.map .shift id)
    else if variant = 1 then ((bitVectorPacking f).read rest).map (Prod.map .bitVector id)
    else if variant = 2 then ((pairHash f).read rest).map (Prod.map .perfectHash id)
    else throw (f.unknownVariant variant)

/-! ## Matrices -/

def rowMatrix : Codec RowMatrix :=
  ((array f f.word32).pair ((f.sequence f.word32).zipped (f.sequence f.single))).via
    (fun m => (m.offsets, m.cells.toList)) fun (offsets, cells) => ⟨offsets, cells.toArray⟩

def columnMatrix : Codec ColumnMatrix :=
  ((array f f.word32).pair ((array f f.word32).pair ((array f f.word32).pair
    ((f.sequence f.word16).zipped (f.sequence f.single))))).via
    (fun m => (m.populated, m.populatedOffsets, m.offsets, m.cells.toList))
    fun (populated, populatedOffsets, offsets, cells) =>
      ⟨populated, populatedOffsets, offsets, cells.toArray⟩

def siblingIndex : Codec SiblingIndex :=
  ((pairHash f).pair (columnMatrix f)).via (fun s => (s.hash, s.matrix))
    fun (hash, matrix) => ⟨hash, matrix⟩

/-- The ends of a range; those of no range are the wrong way round. -/
def rangeEnds : Option (UInt16 × UInt16) → UInt16 × UInt16
  | some ends => ends
  | none => (0xffff, 0)

def ofRangeEnds : UInt16 × UInt16 → Option (UInt16 × UInt16)
  | (least, greatest) => if least ≤ greatest then some (least, greatest) else none

def siblingRanges : Codec (Array (Option (UInt16 × UInt16))) :=
  ((f.sequence f.word16).zipped (f.sequence f.word16)).elements rangeEnds ofRangeEnds

/-! ## Grammars -/

/-- The numbering of a grammar: its start symbol, tables, bounds and packing. -/
def numbering : Codec (UInt16 × LabelTable × LabelTable × ClassBounds × Packing) :=
  f.word16.pair ((labelTable f).pair ((labelTable f).pair ((bounds f).pair (packing f))))

/-- The matrices of a grammar, and the ranges of right siblings. -/
def matrices : Codec (RowMatrix × ColumnMatrix × RowMatrix × ColumnMatrix × ColumnMatrix
    × SiblingIndex × SiblingIndex × Array (Option (UInt16 × UInt16))) :=
  (rowMatrix f).pair ((columnMatrix f).pair ((rowMatrix f).pair ((columnMatrix f).pair
    ((columnMatrix f).pair ((siblingIndex f).pair ((siblingIndex f).pair (siblingRanges f)))))))

def grammar : Codec Grammar :=
  ((numbering f).pair (matrices f)).via
    (fun g => ((g.start, g.labels, g.lexicon, g.bounds, g.packing),
      (g.binaryByParent, g.binaryByPair, g.unaryByParent, g.unaryByChild, g.lexical,
        g.leftChildren, g.rightChildren, g.siblingRanges)))
    fun ((start, labels, lexicon, bounds, packing),
        (binaryByParent, binaryByPair, unaryByParent, unaryByChild, lexical,
          leftChildren, rightChildren, siblingRanges)) =>
      { start, labels, lexicon, bounds, packing, binaryByParent, binaryByPair,
        unaryByParent, unaryByChild, lexical, leftChildren, rightChildren, siblingRanges }

end Saved

namespace Grammar

def save (f : ByteFormat) (g : Grammar) : List UInt8 := (Saved.grammar f).write g

/-- The grammar that bytes begin with. -/
def load (f : ByteFormat) (bytes : List UInt8) : Except GrammarError Grammar :=
  match (Saved.grammar f).read bytes with
  | .ok (g, _) => .ok g
  | .error reason => .error (.serialization reason)

end Grammar
end ChartParsing

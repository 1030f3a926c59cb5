/-!
# Lines

A line ends at a line feed, and one carriage return before the line feed belongs
to its end. Characters after the last line feed form a line of their own.
-/

namespace ChartParsing.Text

/-- The pieces between the elements equal to `stop`; there is always at least one. -/
def pieces {α : Type} [BEq α] (stop : α) (xs : List α) : List (List α) :=
  xs.foldr (fun x found =>
    if x == stop then [] :: found
    else match found with
      | piece :: rest => (x :: piece) :: rest
      | [] => [[x]]) [[]]

/-- Drops one trailing element equal to `last`. -/
def dropTrailing {α : Type} [BEq α] (last : α) (xs : List α) : List α :=
  if xs.getLast? == some last then xs.dropLast else xs

/-- The lines of a sequence, given its line feed and carriage return. -/
def linesOf {α : Type} [BEq α] (feed carriage : α) (xs : List α) : List (List α) :=
  let found := pieces feed xs
  let last := found.getLastD []
  found.dropLast.map (dropTrailing carriage) ++ if last.isEmpty then [] else [last]

def lines (text : String) : List String :=
  (linesOf '\n' '\r' text.toList).map String.ofList

def byteLines (bytes : ByteArray) : List ByteArray :=
  (linesOf 10 13 bytes.toList).map fun line => ⟨line.toArray⟩

end ChartParsing.Text

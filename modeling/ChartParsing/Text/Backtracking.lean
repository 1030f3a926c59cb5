import ChartParsing.Text.Pattern

/-!
# Matching by backtracking

A match is looked for from left to right, with what is to come after a pattern as a
continuation: where that fails, the next way to match the pattern is tried.
-/

namespace ChartParsing.Text

/-- A part of a line by what stands from its beginning and what stands from its end. -/
structure Part where
  fromStart : List Char
  fromEnd : List Char

def Part.text (part : Part) : List Char :=
  part.fromStart.take (part.fromStart.length - part.fromEnd.length)

variable {α : Type}

/-- Looks for the longest run of characters that can be gone on from. -/
def CharClass.search (chars : CharClass) (next : List Char → Option α) :
    Nat → List Char → Option α
  | 0, [] => next []
  | _ + 1, [] => none
  | 0, c :: cs => if chars.has c then chars.search next 0 cs <|> next (c :: cs) else next (c :: cs)
  | least + 1, c :: cs => if chars.has c then chars.search next least cs else none

namespace Pattern

def unset (p : Pattern) : List (Option Part) := List.replicate p.groupCount none

/-- Looks for a way to match the front of a line that can be gone on from. -/
def search : Pattern → (List (Option Part) → List Char → Option α) → List Char → Option α
  | literal text, next, cs =>
    if text.toList.isPrefixOf cs then next [] (cs.drop text.toList.length) else none
  | run chars least, next, cs => chars.search (next []) least cs
  | concat p q, next, cs =>
    p.search (fun found => q.search fun more => next (found ++ more)) cs
  | either p q, next, cs =>
    p.search (fun found => next (found ++ q.unset)) cs <|>
      q.search (fun found => next (p.unset ++ found)) cs
  | optional p, next, cs => p.search next cs <|> next p.unset cs
  | group p, next, cs => p.search (fun found rest => next (some ⟨cs, rest⟩ :: found) rest) cs

end Pattern

def Matcher.backtracking : Matcher where
  captures? p line := p.search
    (fun found rest =>
      if rest.isEmpty then some (found.map (Option.map fun part => String.ofList part.text))
      else none)
    line.toList

end ChartParsing.Text

import ChartParsing.Text.Blank

/-!
# Patterns

Regular expressions that are matched against a whole line, from its first character to its
last. How a match is looked for is left to a matcher, which a program is given.
-/

namespace ChartParsing.Text

inductive CharClass
  | blank
  | mark
  /-- Any character that does not end a line. -/
  | inLine
  deriving DecidableEq, Repr

def CharClass.has : CharClass → Char → Bool
  | blank, c => isBlank c
  | mark, c => !isBlank c
  | inLine, c => c ≠ '\n'

inductive Pattern
  | literal (text : String)
  /-- At least so many characters of a class. -/
  | run (chars : CharClass) (least : Nat)
  | concat (p q : Pattern)
  | either (p q : Pattern)
  | optional (p : Pattern)
  /-- A pattern whose text is kept. -/
  | group (p : Pattern)
  deriving Repr

namespace Pattern

def sequence : List Pattern → Pattern
  | [] => literal ""
  | p :: ps => concat p (sequence ps)

def groupCount : Pattern → Nat
  | literal _ | run .. => 0
  | concat p q | either p q => p.groupCount + q.groupCount
  | optional p => p.groupCount
  | group p => p.groupCount + 1

end Pattern

/-- Finds matches of whole lines. A match gives the text of every group, in the order in which
the groups open; a group that took no part in it has none. -/
structure Matcher where
  captures? : Pattern → String → Option (List (Option String))

namespace Matcher

variable (matcher : Matcher) (p : Pattern) (line : String)

def isMatch : Bool := (matcher.captures? p line).isSome

/-- The texts of the groups of a match. -/
def groups? : Option (List String) :=
  (matcher.captures? p line).map (List.map (·.getD ""))

end Matcher
end ChartParsing.Text

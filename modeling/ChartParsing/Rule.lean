import ChartParsing.Score
import ChartParsing.Numeral.Write

/-!
# Rules

A rule expands its parent to one or two non-terminals, or to a word. Rules are
read with labels and compiled to numbers.
-/

namespace ChartParsing

/-- A rule as it is read, before its labels are numbered. A lexicon entry has
its word on the left. -/
structure LabelledRule where
  parent : String
  left : String
  right : Option String
  logProb : Score

namespace LabelledRule

variable (r : LabelledRule)

def isBinary : Bool := r.right.isSome

/-- The rule with its plain probability. -/
def text : String :=
  let children := match r.right with
    | some right => r.left ++ " " ++ right
    | none => r.left
  r.parent ++ " -> " ++ children ++ " " ++ Numeral.writeShortest (Score.exp r.logProb)

end LabelledRule

/-- What a production expands to. Words are numbered apart from non-terminals. -/
inductive Expansion
  | binary (left right : UInt16)
  | unary (child : UInt16)
  | lexical (word : UInt32)
  deriving DecidableEq, Repr

structure Production where
  parent : UInt16
  expansion : Expansion
  logProb : Score

namespace Production

variable (p : Production)

def isBinary : Bool := match p.expansion with
  | .binary .. => true
  | _ => false

def isUnary : Bool := match p.expansion with
  | .unary _ => true
  | _ => false

def isLexical : Bool := match p.expansion with
  | .lexical _ => true
  | _ => false

/-- The production with its log-probability to four places; a word is quoted. -/
def text : String :=
  let children := match p.expansion with
    | .binary left right => toString left.toNat ++ " " ++ toString right.toNat
    | .unary child => toString child.toNat
    | .lexical word => "'" ++ toString word.toNat
  toString p.parent.toNat ++ " -> " ++ children
    ++ " (" ++ Numeral.writeFixed 4 p.logProb ++ ")"

end Production
end ChartParsing

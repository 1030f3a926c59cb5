/-!
# Blanks and tokens

A token is a longest run of characters that are not blank.
-/

namespace ChartParsing.Text

/-- The characters of Unicode's `White_Space` property. -/
def isBlank (c : Char) : Bool :=
  let n := c.toNat
  (0x9 ≤ n && n ≤ 0xd) || n = 0x20 || n = 0x85 || n = 0xa0 || n = 0x1680
    || (0x2000 ≤ n && n ≤ 0x200a) || n = 0x2028 || n = 0x2029 || n = 0x202f
    || n = 0x205f || n = 0x3000

/-- Puts a run of characters in front of the tokens after it, unless it is empty. -/
def consRun (run : List Char) (tokens : List (List Char)) : List (List Char) :=
  if run.isEmpty then tokens else run :: tokens

/-- The run that reaches the front of `cs`, and the tokens after it. -/
def splitRuns (cs : List Char) : List Char × List (List Char) :=
  cs.foldr (fun c (run, tokens) =>
    if isBlank c then ([], consRun run tokens) else (c :: run, tokens)) ([], [])

/-- The tokens of a text, as lists of characters. -/
def tokenRuns (cs : List Char) : List (List Char) :=
  consRun (splitRuns cs).1 (splitRuns cs).2

def tokens (text : String) : List String :=
  (tokenRuns text.toList).map String.ofList

@[simp] theorem splitRuns_nil : splitRuns [] = ([], []) := rfl

theorem splitRuns_cons_blank {c : Char} (h : isBlank c = true) (cs : List Char) :
    splitRuns (c :: cs) = ([], tokenRuns cs) := by
  simp [splitRuns, tokenRuns, h]

theorem splitRuns_cons_mark {c : Char} (h : isBlank c = false) (cs : List Char) :
    splitRuns (c :: cs) = (c :: (splitRuns cs).1, (splitRuns cs).2) := by
  simp [splitRuns, h]

/-- A text of blanks alone has no token. -/
def isBlankText (text : String) : Bool := text.toList.all isBlank

end ChartParsing.Text

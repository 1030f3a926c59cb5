import ChartParsing.Text.CaseTable

/-!
# Lowercasing

Every capital has one small counterpart, with two exceptions: the dotted capital
I becomes an `i` and a combining dot, and a capital sigma is written in its final
form at the end of a word.
-/

namespace ChartParsing.Text

/-- The small counterpart of a letter. -/
def smallLetter (c : Char) : Char :=
  if c.toNat < 128 then c.toLower
  else
    let n := c.toNat
    match caseRuns.find? fun run => run.first ≤ n && n ≤ run.last
        && (n - run.first) % run.step = 0 with
    | some run => Char.ofNat (run.small + (n - run.first))
    | none => c

/-- The first character that casing does not look through has case. -/
def meetsCased (cs : List Char) : Bool :=
  match cs.find? fun c => !inRanges caseIgnorable c.toNat with
  | some c => inRanges cased c.toNat
  | none => false

/-- The small form of `cs`, standing after the characters `before`, nearest first. -/
def lowerFrom (before : List Char) : List Char → List Char
  | [] => []
  | c :: cs =>
    let small :=
      if c = 'Σ' then [if meetsCased before && !meetsCased cs then 'ς' else 'σ']
      else if c = 'İ' then ['i', Char.ofNat 0x307]
      else [smallLetter c]
    small ++ lowerFrom (c :: before) cs

def lowercase (text : String) : String :=
  String.ofList (lowerFrom [] text.toList)

end ChartParsing.Text

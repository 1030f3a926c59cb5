import ChartParsing.Text.CaseTable
import ChartParsing.Text.PrintTable

/-!
# Quoted text

The quoted form of a text names its control characters, its quotes and
backslashes by an escape, and spells out by number what cannot be printed or
would attach to the character before it.
-/

namespace ChartParsing.Text

/-- A character spelled out by its code point. -/
def spelledOut (c : Char) : String :=
  "\\u\x7b" ++ String.ofList (Nat.toDigits 16 c.toNat) ++ "\x7d"

/-- A character as it stands between quotes. -/
def quotedChar (c : Char) : String :=
  match c.toNat with
  | 0 => "\\0"
  | 9 => "\\t"
  | 10 => "\\n"
  | 13 => "\\r"
  | 34 => "\\\""
  | 92 => "\\\\"
  | n =>
    if n < 127 ∧ 32 ≤ n then c.toString
    else if inRanges attaching n || inRanges unprinted n then spelledOut c
    else c.toString

/-- A text between quotes. -/
def quoted (text : String) : String :=
  "\"" ++ String.join (text.toList.map quotedChar) ++ "\""

end ChartParsing.Text

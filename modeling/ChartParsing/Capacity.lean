/-!
# Sizes of tables

A table is made with a place for everything that may come into it. Sizes that come
from outside are looked at first, since no memory holds tables of any size.
-/

namespace ChartParsing

/-- The most entries that a table can have. -/
def maxEntries : Nat := 0x1000000000000

/-- Whether there can be a table of so many entries. -/
def canHold (entries : Nat) : Bool := entries ≤ maxEntries

end ChartParsing

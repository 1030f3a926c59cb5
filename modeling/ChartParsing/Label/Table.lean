import Std.Data.ExtHashMap

/-!
# Tables of labels

A table numbers the distinct labels it has been given, in the order they were
first seen, and finds the number of a label without a search.
-/

namespace ChartParsing

/-- Labels by number, and numbers by label. -/
structure LabelTable where
  labels : Array String
  numbers : Std.ExtHashMap String UInt32

namespace LabelTable

def empty : LabelTable := ⟨#[], ∅⟩

instance : EmptyCollection LabelTable := ⟨empty⟩
instance : Inhabited LabelTable := ⟨empty⟩

variable (t : LabelTable)

def size : Nat := t.labels.size

def isEmpty : Bool := t.labels.isEmpty

/-- The number of a label the table holds. -/
def number? (label : String) : Option UInt32 := t.numbers[label]?

def label? (number : UInt32) : Option String := t.labels[number.toNat]?

/-- The number of a label, which is added at the end if it is new. -/
def insert (label : String) : UInt32 × LabelTable :=
  match t.number? label with
  | some number => (number, t)
  | none =>
    let number := UInt32.ofNat t.size
    (number, ⟨t.labels.push label, t.numbers.insert label number⟩)

/-- The table of the distinct labels of a list. -/
def ofList (labels : List String) : LabelTable :=
  labels.foldl (fun t label => (t.insert label).2) ∅

def toList : List String := t.labels.toList

/-- The labels with the numbers they are found under. -/
def entries : List (String × UInt32) :=
  t.toList.filterMap fun label => (t.number? label).map (label, ·)

@[simp] theorem size_empty : (∅ : LabelTable).size = 0 := rfl

@[simp] theorem toList_empty : (∅ : LabelTable).toList = [] := rfl

@[simp] theorem length_toList : t.toList.length = t.size := Array.length_toList

theorem insert_of_number? {label : String} {number : UInt32}
    (h : t.number? label = some number) : t.insert label = (number, t) := by
  simp [insert, h]

theorem toList_insert_of_new {label : String} (h : t.number? label = none) :
    (t.insert label).2.toList = t.toList ++ [label] := by
  simp [insert, h, toList]

end LabelTable
end ChartParsing

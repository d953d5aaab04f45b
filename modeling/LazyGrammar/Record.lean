import LazyGrammar.Position

/-!
# LazyGrammar.Record

**Positions as stored data.** Positions and positioned values are kept outside a
program as plain records; this module says which records stand for which values.

A record can be read from named fields, where others are ignored, or from a list
that holds exactly the values of the fields in their order. Writing always names
the fields, and what is written is read back (`toLineColumn?_ofLineColumn`,
`toPositioned?_ofPositioned`).
-/

namespace LazyGrammar

/-- Plain data. -/
inductive Record
  | null
  | bool (b : Bool)
  | whole (n : Int)
  /-- A number that is not written as an integer. -/
  | fraction
  | text (s : String)
  | items (rs : List Record)
  | fields (fs : List (String × Record))
  deriving Inhabited, Repr

namespace Record

/-- The value of a field. -/
def field? (name : String) (fs : List (String × Record)) : Option Record :=
  fs.lookup name

/-- The first number that a count cannot hold. -/
def countBound : Nat := 0x10000000000000000

/-- A count: an integer from zero on, below `countBound`. -/
def toCount? : Record → Option Nat
  | .whole n => if 0 ≤ n ∧ n.toNat < countBound then some n.toNat else none
  | _ => none

/-- A text. -/
def toText? : Record → Option String
  | .text s => some s
  | _ => none

/-- A line and a column. -/
def toLineColumn? : Record → Option LineColumn
  | .items [line, column] => do return ⟨← line.toCount?, ← column.toCount?⟩
  | .fields fs => do return ⟨← (← field? "line" fs).toCount?, ← (← field? "column" fs).toCount?⟩
  | _ => none

/-- A text with the positions around it. -/
def toPositioned? : Record → Option (Positioned LineColumn String)
  | .items [start, value, stop] => do
    return ⟨← start.toLineColumn?, ← value.toText?, ← stop.toLineColumn?⟩
  | .fields fs => do
    return ⟨← (← field? "start" fs).toLineColumn?, ← (← field? "value" fs).toText?,
      ← (← field? "end" fs).toLineColumn?⟩
  | _ => none

/-- The record of a line and a column. -/
def ofLineColumn (p : LineColumn) : Record :=
  .fields [("line", .whole p.line), ("column", .whole p.column)]

/-- The record of a positioned value, given the record of the value. -/
def ofPositioned {α : Type} (ofValue : α → Record) (p : Positioned LineColumn α) : Record :=
  .fields [("start", ofLineColumn p.start), ("value", ofValue p.value),
    ("end", ofLineColumn p.stop)]

theorem toCount?_whole {n : Nat} (h : n < countBound) :
    (Record.whole (n : Int)).toCount? = some n := by
  simp [toCount?, h]

theorem toLineColumn?_ofLineColumn {p : LineColumn} (hl : p.line < countBound)
    (hc : p.column < countBound) : (ofLineColumn p).toLineColumn? = some p := by
  simp [ofLineColumn, toLineColumn?, field?, List.lookup_cons, toCount?_whole hl, toCount?_whole hc]

theorem toPositioned?_ofPositioned {p : Positioned LineColumn String}
    (hs : p.start.line < countBound ∧ p.start.column < countBound)
    (he : p.stop.line < countBound ∧ p.stop.column < countBound) :
    (ofPositioned .text p).toPositioned? = some p := by
  simp [ofPositioned, toPositioned?, field?, List.lookup_cons, toText?,
    toLineColumn?_ofLineColumn hs.1 hs.2, toLineColumn?_ofLineColumn he.1 he.2]

end Record

end LazyGrammar

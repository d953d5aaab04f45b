/-!
# LazyGrammar.Text.Ranges

**Sets of code points as ascending ranges.** Tables of character properties are
written as lists of ranges with both ends included; `Ranges` holds them for
membership by bisection.
-/

namespace LazyGrammar.Text

/-- Ascending, disjoint ranges of code points, both ends included. -/
structure Ranges where
  rows : Array (Nat × Nat)
  deriving DecidableEq, Repr, Inhabited

namespace Ranges

/-- The ranges of a table. -/
def ofList (rows : List (Nat × Nat)) : Ranges := ⟨rows.toArray⟩

/-- The ranges as a list. -/
def toList (r : Ranges) : List (Nat × Nat) := r.rows.toList

/-- Whether a range among those with an index from `lo` on and below `hi` holds `c`. -/
def holdsBetween (rows : Array (Nat × Nat)) (c lo hi : Nat) : Bool :=
  if lo < hi then
    let mid := (lo + hi) / 2
    match rows[mid]? with
    | none => false
    | some (first, last) =>
      if c < first then holdsBetween rows c lo mid
      else if last < c then holdsBetween rows c (mid + 1) hi
      else true
  else false
termination_by hi - lo

/-- Whether a code point is in one of the ranges. -/
def contains (r : Ranges) (c : Nat) : Bool := holdsBetween r.rows c 0 r.rows.size

/-- Whether a character is in one of the ranges. -/
def has (r : Ranges) (c : Char) : Bool := r.contains c.toNat

end Ranges

/-- The ranges of a progression from `first` to `last`: one range if the step is
one, single code points otherwise. -/
def progression (first last step : Nat) : List (Nat × Nat) :=
  if step ≤ 1 then [(first, last)]
  else (List.range ((last - first) / step + 1)).map fun i => (first + i * step, first + i * step)

/-- The ranges of a list of progressions. -/
def progressions (rows : List (Nat × Nat × Nat)) : List (Nat × Nat) :=
  rows.flatMap fun (first, last, step) => progression first last step

end LazyGrammar.Text

import LazyGrammar.Text.FoldTable
import LazyGrammar.Text.Ranges

/-!
# LazyGrammar.Regex.CharSet

**Sets of characters** as they arise in patterns: built from ranges, combined by the
operations of classes, and closed under simple case folding.

A `CharSet` is a list of ranges of code points. The operations keep it ascending and
without overlaps (`CharSet.ofRanges`), so that complements can be read off the gaps.
Surrogates are never in a set.
-/

namespace LazyGrammar.Regex

/-- Ascending, disjoint ranges of code points, both ends included. -/
structure CharSet where
  ranges : List (Nat × Nat)
  deriving DecidableEq, Repr, Inhabited

namespace CharSet

/-! ### Set operations -/

/-- Joins the range from `a` to `b` with those after it that it meets or overlaps, and
so on, where the ranges ascend by their first code point. -/
def joinFrom (a b : Nat) : List (Nat × Nat) → List (Nat × Nat)
  | [] => [(a, b)]
  | (c, d) :: rest =>
    if c ≤ b + 1 then joinFrom a (max b d) rest else (a, b) :: joinFrom c d rest

/-- Joins ranges that meet or overlap, where the ranges ascend by their first code
point. -/
def joinRanges : List (Nat × Nat) → List (Nat × Nat)
  | [] => []
  | (a, b) :: rest => joinFrom a b rest

/-- The set of all code points in some ranges, in any order. -/
def ofRanges (ranges : List (Nat × Nat)) : CharSet :=
  ⟨joinRanges (ranges.mergeSort fun p q => p.1 ≤ q.1)⟩

/-- The set without members. -/
def none : CharSet := ⟨[]⟩

/-- The set with one member. -/
def single (c : Char) : CharSet := ⟨[(c.toNat, c.toNat)]⟩

/-- Members of either set. -/
def union (s t : CharSet) : CharSet := ofRanges (s.ranges ++ t.ranges)

/-- What of a range is no surrogate. -/
def withoutSurrogates : Nat × Nat → List (Nat × Nat)
  | (a, b) => [(a, min b 0xD7FF), (max a 0xE000, b)].filter fun (a, b) => a ≤ b

/-- The gaps between ranges, from a code point on. -/
def gapsFrom (start : Nat) : List (Nat × Nat) → List (Nat × Nat)
  | [] => if start ≤ 0x10FFFF then [(start, 0x10FFFF)] else []
  | (a, b) :: rest =>
    if start < a then (start, a - 1) :: gapsFrom (b + 1) rest else gapsFrom (b + 1) rest

/-- All characters that are not members. -/
def complement (s : CharSet) : CharSet :=
  ⟨(gapsFrom 0 s.ranges).flatMap withoutSurrogates⟩

/-- Members of both sets. -/
def inter (s t : CharSet) : CharSet := (s.complement.union t.complement).complement

/-- Members of the first set only. -/
def diff (s t : CharSet) : CharSet := s.inter t.complement

/-- Members of exactly one set. -/
def symmDiff (s t : CharSet) : CharSet := (s.union t).diff (s.inter t)

/-- The set, ready for look-up. -/
def toRanges (s : CharSet) : Text.Ranges := .ofList s.ranges

/-- Whether all members are below 128. -/
def isAscii (s : CharSet) : Bool := s.ranges.all fun (_, b) => b < 128

/-! ### Case -/

/-- The members of a progression of the folding table, each with what it folds to. -/
def foldPairs : Nat × Nat × Nat × Nat → List (Nat × Nat)
  | (first, last, step, target) =>
    (List.range ((last - first) / step + 1)).map fun i => (first + i * step, target + i * step)

/-- All characters that fold to another one, each with that one. -/
def allFoldPairs : List (Nat × Nat) := Text.FoldTable.rows.flatMap foldPairs

/-- The set with everything that differs from a member in case only: first what the
members fold to, then all that folds to one of these. -/
def closeCase (s : CharSet) : CharSet :=
  let held := s.toRanges
  let targets := (allFoldPairs.filter fun (c, _) => held.contains c).map fun (_, t) => (t, t)
  let s := s.union ⟨targets⟩
  let held := s.toRanges
  s.union ⟨(allFoldPairs.filter fun (_, t) => held.contains t).map fun (c, _) => (c, c)⟩

/-- The same for the letters of ASCII alone. -/
def closeAsciiCase (s : CharSet) : CharSet :=
  let held := s.toRanges
  let letters := (List.range 26).flatMap fun i => [(65 + i, 97 + i), (97 + i, 65 + i)]
  s.union ⟨(letters.filter fun (c, _) => held.contains c).map fun (_, d) => (d, d)⟩

end CharSet

end LazyGrammar.Regex

import LazyGrammar.Regex.CharSet

/-!
# LazyGrammar.Regex.Term

**Patterns as terms.** A term says which texts match and which of several matches is
preferred: the earlier alternative, and more or fewer repetitions.
-/

namespace LazyGrammar.Regex

/-- A condition on a place in a text. -/
inductive Look
  | textStart
  | textEnd
  | lineStart
  | lineEnd
  /-- The same two, where a carriage return with or without a line feed ends a line. -/
  | returnLineStart
  | returnLineEnd
  /-- Between a word character and another one, or not. -/
  | wordEdge (unicode : Bool)
  | noWordEdge (unicode : Bool)
  deriving DecidableEq, Repr, Inhabited

/-- A pattern. -/
inductive Term
  | empty
  /-- One character of the set. -/
  | chars (set : CharSet)
  | look (condition : Look)
  /-- What the inner term matches, remembered under a number. -/
  | capture (index : Nat) (inner : Term)
  | concat (items : List Term)
  /-- Any of the terms, the earlier the better. -/
  | alternate (branches : List Term)
  /-- From `least` to `most` times the inner term, the more the better if `greedy` and
  the fewer the better otherwise. -/
  | repeated (inner : Term) (least : Nat) (most : Option Nat) (greedy : Bool)
  deriving Inhabited, Repr

namespace Term

mutual

/-- The length of the shortest match, if there is any match. -/
def shortest? : Term → Option Nat
  | .empty | .look _ => some 0
  | .chars set => if set.ranges.isEmpty then none else some 1
  | .capture _ inner => shortest? inner
  | .concat items => shortestSum? items
  | .alternate branches => shortestMin? branches
  | .repeated inner least _ _ => if least = 0 then some 0 else (shortest? inner).map (· * least)

/-- The sum of the shortest lengths of terms. -/
def shortestSum? : List Term → Option Nat
  | [] => some 0
  | t :: ts => do return (← shortest? t) + (← shortestSum? ts)

/-- The least of the shortest lengths of terms. -/
def shortestMin? : List Term → Option Nat
  | [] => none
  | t :: ts =>
    match shortest? t, shortestMin? ts with
    | some m, some n => some (min m n)
    | some m, none => some m
    | none, n => n

end

mutual

/-- Whether no match has any length. -/
def isHollow : Term → Bool
  | .empty | .look _ => true
  | .chars _ => false
  | .capture _ inner => isHollow inner
  | .concat items => areHollow items
  | .alternate branches => areHollow branches
  | .repeated inner _ most _ => most == some 0 || isHollow inner

/-- Whether no match of any of the terms has any length. -/
def areHollow : List Term → Bool
  | [] => true
  | t :: ts => isHollow t && areHollow ts

end

/-- A repetition. A term whose matches have no length need not be matched twice, and
a term that is matched no time at all is nothing. -/
def repetition (inner : Term) (least : Nat) (most : Option Nat) (greedy : Bool) : Term :=
  let least' := if inner.isHollow then min least 1 else least
  let most' := if inner.isHollow then some ((most.map (min · 1)).getD 1) else most
  if least' = 0 ∧ most' = some 0 then .empty
  else if least' = 1 ∧ most' = some 1 then inner
  else .repeated inner least' most' greedy

/-- A sequence of terms. -/
def sequence : List Term → Term
  | [] => .empty
  | [t] => t
  | ts => .concat ts

/-- A choice between terms. -/
def choice : List Term → Term
  | [t] => t
  | ts => .alternate ts

mutual

/-- The number of instructions that a term takes, roughly. -/
def weight : Term → Nat
  | .empty => 1
  | .chars set => 1 + set.ranges.length
  | .look _ => 1
  | .capture _ inner => weight inner + 2
  | .concat items => weightSum items
  | .alternate branches => weightSum branches + 1
  | .repeated inner least most _ => (weight inner + 1) * (max least (most.getD 0) + 1)

/-- The sum of the weights of terms. -/
def weightSum : List Term → Nat
  | [] => 0
  | t :: ts => weight t + 1 + weightSum ts

end

end Term

end LazyGrammar.Regex

import LazyGrammar.Regex.Atom

/-!
# LazyGrammar.Regex.ClassReader

**Written classes**: sets of characters in brackets, with ranges, nested and named
classes, and operations between sets.

Items that stand side by side are united first; the operations between such unions
have no precedence among each other and are done from left to right. What is open
while a class is read is kept on a stack, so nesting needs no recursion. How deep
a class is nested is counted, since patterns may not be nested without bound.
-/

namespace LazyGrammar.Regex

/-! ### Named classes of ASCII -/

/-- The members of a class of ASCII that has a name. -/
def asciiNamed? : String → Option (List (Nat × Nat))
  | "alnum" => some [(0x30, 0x39), (0x41, 0x5A), (0x61, 0x7A)]
  | "alpha" => some [(0x41, 0x5A), (0x61, 0x7A)]
  | "ascii" => some [(0x00, 0x7F)]
  | "blank" => some [(0x09, 0x09), (0x20, 0x20)]
  | "cntrl" => some [(0x00, 0x1F), (0x7F, 0x7F)]
  | "digit" => some [(0x30, 0x39)]
  | "graph" => some [(0x21, 0x7E)]
  | "lower" => some [(0x61, 0x7A)]
  | "print" => some [(0x20, 0x7E)]
  | "punct" => some [(0x21, 0x2F), (0x3A, 0x40), (0x5B, 0x60), (0x7B, 0x7E)]
  | "space" => some [(0x09, 0x0D), (0x20, 0x20)]
  | "upper" => some [(0x41, 0x5A)]
  | "word" => some [(0x30, 0x39), (0x41, 0x5A), (0x5F, 0x5F), (0x61, 0x7A)]
  | "xdigit" => some [(0x30, 0x39), (0x41, 0x46), (0x61, 0x66)]
  | _ => none

/-- Reads a class of ASCII by name, from after the first bracket. -/
def readAsciiNamed (cs : List Char) : Option ((List (Nat × Nat) × Bool) × List Char) :=
  match cs with
  | ':' :: rest =>
    let (negated, rest) :=
      match rest with
      | '^' :: rest => (true, rest)
      | rest => (false, rest)
    match rest.dropWhile (· != ':') with
    | ':' :: ']' :: after =>
      (asciiNamed? (String.ofList (rest.takeWhile (· != ':')))).map fun ranges =>
        ((ranges, negated), after)
    | _ => none
  | _ => none

/-! ### What is open -/

/-- An operation between sets. -/
inductive SetOperation
  | intersection
  | difference
  | symmetricDifference
  deriving DecidableEq, Repr, Inhabited

/-- The result of an operation. -/
def SetOperation.apply : SetOperation → CharSet → CharSet → CharSet
  | .intersection => CharSet.inter
  | .difference => CharSet.diff
  | .symmetricDifference => CharSet.symmDiff

/-- The depth of something that is made of parts: only two parts or more are a level
of their own. -/
def depthOf (parts : Nat) (deepest : Nat) : Nat := if 2 ≤ parts then deepest + 1 else deepest

/-- A set with the depth to which its notation is nested. -/
structure NestedSet where
  set : CharSet
  depth : Nat
  deriving Repr, Inhabited

/-- Items of a class that stand side by side. -/
structure Items where
  ranges : List (Nat × Nat)
  count : Nat
  /-- The depth of the deepest item. -/
  deepest : Nat
  deriving Repr, Inhabited

namespace Items

/-- No items. -/
def none : Items := ⟨[], 0, 0⟩

/-- One item more. -/
def add (items : Items) (item : NestedSet) : Items :=
  ⟨item.set.ranges ++ items.ranges, items.count + 1, max items.deepest item.depth⟩

/-- The union of the items. -/
def union (items : Items) : NestedSet :=
  ⟨.ofRanges items.ranges, depthOf items.count items.deepest⟩

end Items

/-- Something that is open while a class is read. -/
inductive OpenSet
  /-- A class, after the items that have been read of the class around it. -/
  | bracket (outer : Items) (negated : Bool)
  /-- An operation, with its left side. -/
  | operation (op : SetOperation) (left : NestedSet)
  deriving Repr, Inhabited

/-- A class under way: what is open, the innermost first, and the items being read. -/
structure ClassState where
  stack : List OpenSet
  items : Items
  deriving Repr, Inhabited

/-- Does the operation that waits for its right side, if there is one. -/
def closeOperation (f : Flags) (st : ClassState) : NestedSet × List OpenSet :=
  let right := st.items.union
  match st.stack with
  | .operation op left :: stack =>
    (⟨op.apply (foldCase f left.set) (foldCase f right.set), max left.depth right.depth + 1⟩, stack)
  | stack => (right, stack)

/-- Starts the right side of an operation. -/
def openOperation (f : Flags) (op : SetOperation) (st : ClassState) : ClassState :=
  let (left, stack) := closeOperation f st
  ⟨.operation op left :: stack, .none⟩

/-- An item that is a single character. -/
def charItem (c : Char) : NestedSet := ⟨.single c, 0⟩

/-- Leading hyphens of a class, which stand for themselves, and what follows. -/
def takeHyphens (verbose : Bool) : Nat → List Char → Items × List Char
  | 0, cs => (.none, cs)
  | fuel + 1, cs =>
    match cs with
    | '-' :: rest =>
      let (items, after) := takeHyphens verbose fuel (skip verbose rest)
      (items.add (charItem '-'), after)
    | _ => (.none, cs)

/-- Reads the start of a class, from after the bracket. A closing bracket that comes
first stands for itself. -/
def readOpening (f : Flags) (outer : Items) (stack : List OpenSet) (cs : List Char) :
    ClassState × List Char :=
  let cs := skip f.verbose cs
  let (negated, cs) :=
    match cs with
    | '^' :: rest => (true, skip f.verbose rest)
    | _ => (false, cs)
  let (hyphens, cs) := takeHyphens f.verbose cs.length cs
  let stack := .bracket outer negated :: stack
  match hyphens.count, cs with
  | 0, ']' :: rest => (⟨stack, Items.none.add (charItem ']')⟩, skip f.verbose rest)
  | _, _ => (⟨stack, hyphens⟩, cs)

/-! ### Items -/

/-- The set of an atom as an item of a class. -/
def Atom.toSet (f : Flags) : Atom → Option CharSet
  | .char c _ => if f.unicode || c.toNat < 128 then some (.single c) else none
  | .letterClass cls negated => cls.toSet negated f
  | .property ranges negated => propertySet ranges negated f
  | .look _ => none

/-- The character of an atom as an end of a range. -/
def Atom.toEnd (f : Flags) : Atom → Option Nat
  | .char c _ => if f.unicode || c.toNat < 128 then some c.toNat else none
  | _ => none

/-- Reads one character or escape of a class. -/
def readMember (f : Flags) : List Char → Option (Atom × List Char)
  | [] => none
  | '\\' :: rest => readEscape f.verbose rest
  | c :: rest => some (.char c false, rest)

/-- Whether a hyphen at the start of these characters makes a range. -/
def startsRange (f : Flags) : List Char → Bool
  | '-' :: rest =>
    match skip f.verbose rest with
    | ']' :: _ | '-' :: _ => false
    | _ => true
  | _ => false

/-- Reads a character, an escape or a range. -/
def readItem (f : Flags) (cs : List Char) : Option (CharSet × List Char) := do
  let (first, rest) ← readMember f cs
  match skip f.verbose rest with
  | [] => none
  | rest =>
    if startsRange f rest then
      let (last, rest) ← readMember f (skip f.verbose (rest.drop 1))
      let a ← first.toEnd f
      let b ← last.toEnd f
      if a ≤ b then return (⟨[(a, b)]⟩, rest) else none
    else return (← first.toSet f, rest)

/-! ### Whole classes -/

/-- Reads a class, from inside its brackets. -/
def readClassFrom (f : Flags) : Nat → ClassState → List Char → Option (NestedSet × List Char)
  | 0, _, _ => none
  | fuel + 1, st, cs =>
    match skip f.verbose cs with
    | [] => none
    | '[' :: rest =>
      match readAsciiNamed rest with
      | some ((ranges, negated), rest) => do
        let set ← negateIf f negated (foldCase f (.ofRanges ranges))
        readClassFrom f fuel { st with items := st.items.add ⟨set, 0⟩ } rest
      | none =>
        let (st, rest) := readOpening f st.items st.stack rest
        readClassFrom f fuel st rest
    | ']' :: rest =>
      match closeOperation f st with
      | (⟨set, depth⟩, .bracket outer negated :: stack) => do
        let item : NestedSet := ⟨← negateIf f negated (foldCase f set), depth + 1⟩
        if stack.isEmpty then return (item, rest)
        else readClassFrom f fuel ⟨stack, outer.add item⟩ rest
      | _ => none
    | '&' :: '&' :: rest => readClassFrom f fuel (openOperation f .intersection st) rest
    | '-' :: '-' :: rest => readClassFrom f fuel (openOperation f .difference st) rest
    | '~' :: '~' :: rest => readClassFrom f fuel (openOperation f .symmetricDifference st) rest
    | cs => do
      let (set, rest) ← readItem f cs
      readClassFrom f fuel { st with items := st.items.add ⟨set, 0⟩ } rest

/-- Reads a class, from after its first bracket. -/
def readClass (f : Flags) (cs : List Char) : Option (NestedSet × List Char) :=
  let (st, rest) := readOpening f .none [] cs
  readClassFrom f (cs.length + 1) st rest

end LazyGrammar.Regex

import LazyGrammar.LazyList.Machine

/-!
# LazyGrammar.LazyList.Operations

The **operations on lazy lists**: making them, combining them and walking along them.
Every operation changes a `Memory` and may end in a fault, after which the memory is
what it was at that moment.

An operation that can compute something is a run of the machine on its program. Steps
are counted against a budget; running out of it says nothing about the lists.
-/

namespace LazyGrammar.LazyList

variable {α β : Type}

/-- Why an operation gives nothing. -/
inductive Trouble
  | fault (f : Fault)
  /-- The budget was too small. -/
  | unfinished
  deriving DecidableEq, Repr, Inhabited

/-- An operation. -/
abbrev Action (α β : Type) := ExceptT Trouble (StateM (Memory α)) β

/-- Runs a program. -/
def perform (budget : Nat) (program : Program α .list) : Action α LazyList := fun m =>
  match run budget ⟨program, .bottom, m⟩ with
  | .finished list m => (.ok list, m)
  | .fault f m => (.error (.fault f), m)
  | .next s => (.error .unfinished, s.memory)

/-! ### Making lists -/

/-- A list with a tail that is known. -/
def cons (budget : Nat) (head : α) (tail : LazyList) : Action α LazyList :=
  perform budget (.cons head tail .give)

/-- A list of one element. -/
def single (budget : Nat) (head : α) : Action α LazyList := cons budget head .nil

/-- A list with a tail still to be computed, by a program that may know the address of
the list. -/
def new (budget : Nat) (head : α) (tail : Nat → Program α .list) : Action α LazyList :=
  perform budget (.new head tail .give)

/-- The list of some elements, with all tails known. -/
def ofList (budget : Nat) (items : List α) : Action α LazyList :=
  items.reverse.foldlM (fun tail head => cons budget head tail) .nil

/-- The list of the elements that an iterator gives. It is asked for the first one at
once. -/
def lazy (budget : Nat) (source : Nat → Program α .item) : Action α LazyList :=
  perform budget (.lazy source .give)

/-! ### Looking at lists -/

/-- The head of a list. -/
def head? (list : LazyList) : Action α (Option α) :=
  return ((← get).look list).map (·.1)

/-- The tail of a list, if the list is not empty. -/
def tail? (budget : Nat) : LazyList → Action α (Option LazyList)
  | .nil => return none
  | .link address => some <$> perform budget (.tail address .give)

/-- Whether the first tail of a list is known, if the list is not empty. -/
def isForced? (list : LazyList) : Action α (Option Bool) :=
  return ((← get).look list).map (·.2)

/-! ### Combining lists -/

/-- The list with a function applied to its elements, to the first one at once. -/
def map (budget : Nat) (f : α → Program α .element) (list : LazyList) : Action α LazyList :=
  perform budget (.map f list .give)

/-- The list with another one after its last element. -/
def concat (budget : Nat) (list : LazyList) (that : Program α .list) : Action α LazyList :=
  perform budget (.concat list that .give)

/-- The list with every element replaced by a list, the first one at once. -/
def flatMap (budget : Nat) (f : α → Program α .list) (list : LazyList) :
    Action α LazyList :=
  perform budget (.flatMap f list .give)

/-! ### Walking along lists -/

/-- Up to `count` elements after those in `found`. The tail after an element is
computed with it. Gives the elements and what is left of the list. -/
def takeFrom (budget : Nat) : Nat → Array α → LazyList → Action α (Array α × LazyList)
  | 0, found, list => return (found, list)
  | _, found, .nil => return (found, .nil)
  | count + 1, found, .link address => do
    let tail ← perform budget (.tail address .give)
    takeFrom budget count (found ++ ((← get).head? address).toArray) tail

/-- The first `count` elements, or all if there are fewer. -/
def take (budget count : Nat) (list : LazyList) : Action α (List α) := do
  return (← takeFrom budget count #[] list).1.toList

/-- All elements. -/
def toList (budget : Nat) (list : LazyList) : Action α (List α) := do
  match ← takeFrom budget budget #[] list with
  | (found, .nil) => return found.toList
  | (_, .link _) => throw .unfinished

/-! ### Showing lists -/

/-- The texts of the elements that are known, followed by two dots if a tail is not
known, over at most `links` links. -/
def Heap.shown (h : Heap α) (text : α → String) : Nat → LazyList → List String
  | 0, _ => []
  | _, .nil => []
  | links + 1, .link address =>
    match h.link? address with
    | none => []
    | some ⟨head, .ready tail⟩ => text head :: h.shown text links tail
    | some ⟨head, _⟩ => [text head, ".."]

/-- The text of what is known of a list. No list without a circle has more links than
the heap. -/
def Heap.render (h : Heap α) (text : α → String) (list : LazyList) : String :=
  "[" ++ ", ".intercalate (h.shown text (h.links.size + 1) list) ++ "]"

end LazyGrammar.LazyList

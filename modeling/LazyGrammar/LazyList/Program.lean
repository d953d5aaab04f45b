import LazyGrammar.Fault

/-!
# LazyGrammar.LazyList.Program

**Programs over lazy lists**: what a caller of the lists does, and what the functions
do that a caller hands over: the function that computes a tail, the function that is
mapped, the supplier of a second list, the iterator behind a list.

Design points:

* A program is the tree of its requests. A request for something continues with a
  program for each thing it may get, so a program can do with a list whatever its
  caller could: look at it, take its tail, make lists of it, at any time.
* The kind of a program says what it gives in the end. A tail is a list, a mapped
  function gives an element, an iterator gives an element or none.
* What functions do outside of the lists is notes, which they take and can read.
* A tree is well-founded. A function that may go on without end is, in a history that
  came to an end, the same as one that gives up behind the last request of the history.
-/

namespace LazyGrammar

/-- A lazy list: nothing, or the link at an address. -/
inductive LazyList
  | nil
  | link (address : Nat)
  deriving DecidableEq, Repr, Inhabited

namespace LazyList

/-- What a program gives. -/
inductive Kind
  | list
  | element
  /-- The next element of an iterator, if there is one. -/
  | item
  deriving DecidableEq, Repr, Inhabited

/-- The answers of a kind, for lists of elements from `α`. -/
abbrev Kind.Answer (α : Type) : Kind → Type
  | .list => LazyList
  | .element => α
  | .item => Option α

/-- A program that gives an answer of a kind, or gives up. -/
inductive Program (α : Type) : Kind → Type
  | done {kind : Kind} (answer : kind.Answer α) : Program α kind
  | raise {kind : Kind} (fault : Fault) : Program α kind
  | note {kind : Kind} (notes : List String) (next : Program α kind) : Program α kind
  /-- Reads the notes taken so far. -/
  | readNotes {kind : Kind} (next : Array String → Program α kind) : Program α kind
  /-- Reads the head of a list, if it has one, and whether its tail is computed. -/
  | look {kind : Kind} (list : LazyList) (next : Option (α × Bool) → Program α kind) :
      Program α kind
  /-- The tail of a link. -/
  | tail {kind : Kind} (address : Nat) (next : LazyList → Program α kind) : Program α kind
  /-- A list with a tail that is known. -/
  | cons {kind : Kind} (head : α) (tail : LazyList) (next : LazyList → Program α kind) :
      Program α kind
  /-- A list with a tail still to be computed. The function that computes it may know
  the address of the list. -/
  | new {kind : Kind} (head : α) (tail : Nat → Program α .list)
      (next : LazyList → Program α kind) : Program α kind
  /-- The list of the elements that an iterator gives. The iterator is a function of
  how often it was asked before. -/
  | lazy {kind : Kind} (source : Nat → Program α .item) (next : LazyList → Program α kind) :
      Program α kind
  /-- The list with a function applied to its elements. -/
  | map {kind : Kind} (f : α → Program α .element) (list : LazyList)
      (next : LazyList → Program α kind) : Program α kind
  /-- The list with a second one after its last element. -/
  | concat {kind : Kind} (list : LazyList) (that : Program α .list)
      (next : LazyList → Program α kind) : Program α kind
  /-- The list with every element replaced by a list. -/
  | flatMap {kind : Kind} (f : α → Program α .list) (list : LazyList)
      (next : LazyList → Program α kind) : Program α kind

namespace Program

variable {α : Type}

instance {kind : Kind} : Inhabited (Program α kind) := ⟨.raise default⟩

/-- Gives a list. -/
abbrev give (list : LazyList) : Program α .list := .done list

/-- How the tail is computed where a function is mapped over a list. -/
def mapTail (f : α → Program α .element) (address : Nat) : Program α .list :=
  .tail address fun list => .map f list .give

/-- How the tail is computed where a second list follows. -/
def concatTail (that : Program α .list) (address : Nat) : Program α .list :=
  .tail address fun list => .concat list that .give

/-- The lists of the elements after the first one: what follows the first one's list. -/
def flatTail (f : α → Program α .list) (address : Nat) : Program α .list :=
  .tail address fun list => .flatMap f list .give

end Program

end LazyList

end LazyGrammar

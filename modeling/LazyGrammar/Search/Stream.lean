import LazyGrammar.Rule.Error
import LazyGrammar.Rule.Graph
import LazyGrammar.Search.Crumbs

/-!
# LazyGrammar.Search.Stream

**Streams of outcomes.** Using a rule at a place gives one outcome at once and a
tail, which stands for the outcomes still to come. A tail is data: it says what work
has been put off, and nothing of that work has been done.

Design points:

* A tail is used up as it is walked, so it needs no memory of its own. The input, by
  contrast, is shared by all branches of a search; a place refers to it by index.
* There is one constructor for each way in which a rule goes on after its first
  outcome. `done` is the tail of a single outcome, and the only one that is known to
  be empty without any work.
* `Walk` is the stack of a depth-first walk over runs of items. `Visit` frames are
  the items of the current run, with the outcomes of each that are still to come.
-/

namespace LazyGrammar

variable {τ α : Type}

/-- A place in the input: how many tokens are counted as consumed, and the index of
the token that comes next. The two differ by a constant in one search. -/
structure Place where
  consumed : Nat
  next : Nat
  deriving DecidableEq, Repr, Inhabited

/-- The place after one token. -/
def Place.advance (p : Place) : Place := ⟨p.consumed + 1, p.next + 1⟩

/-- What a rule gives at a place: how far it got, and a value or a failure. -/
structure Outcome (τ α : Type) where
  place : Place
  result : Except (ParseError τ) α
  deriving Inhabited

namespace Outcome

/-- A success. -/
def success (place : Place) (value : α) : Outcome τ α := ⟨place, .ok value⟩

/-- A failure, at the position of the error. -/
def failure (error : ParseError τ) (next : Nat) : Outcome τ α :=
  ⟨⟨error.consumed, next⟩, .error error⟩

/-- Whether the rule succeeded. -/
def isSuccess (o : Outcome τ α) : Bool := o.result.isOk

end Outcome

/-- The alternatives of a choice that are still to be tried. -/
structure Later where
  rule : Rule
  others : List Rule
  place : Place
  crumbs : Crumbs
  deriving Repr, Inhabited

/-- What is left of a sequence once some of its rules have matched. -/
structure Chain (α : Type) where
  /-- The rules still to be matched after the current one. -/
  rules : List Rule
  /-- The values before the current rule, in order. -/
  values : List α
  crumbs : Crumbs
  build : List α → Except Fault α
  deriving Inhabited

/-- A frame of a walk over runs of items, for tails of type `ρ`. The depth is the
number of items before the frame. -/
inductive Visit (τ α ρ : Type)
  /-- The item has not been tried at this place yet. -/
  | start (depth : Nat) (place : Place)
  /-- The outcome of an item tried at position `start`, and those still to come. -/
  | visit (depth start : Nat) (current : Outcome τ α) (tail : ρ)
  deriving Inhabited

/-- A walk over runs of items. -/
structure Walk (τ α ρ : Type) where
  item : Rule
  /-- The repetition, to be named if an item consumes nothing. -/
  info : RuleInfo
  crumbs : Crumbs
  collect : List α → α
  /-- The values along the current run. A frame at depth `d` may only change those
  from index `d` on. -/
  values : List α
  /-- The frames, the deepest first. -/
  stack : List (Visit τ α ρ)
  deriving Inhabited

/-- The outcomes still to come. -/
inductive Tail (τ α : Type)
  /-- There are none. -/
  | done
  /-- Those of another tail, with other values. -/
  | mapped (f : α → Except Fault α) (inner : Tail τ α)
  /-- Those of an alternative, then those of later alternatives. -/
  | orElse (first : Tail τ α) (later : Later)
  /-- Those of the rest of a sequence, then those for further outcomes of its current
  rule. -/
  | chained (inner outer : Tail τ α) (chain : Chain α)
  /-- Those of further runs of items. -/
  | walking (walk : Walk τ α (Tail τ α))
  deriving Inhabited

/-- Whether a tail is known without any work. -/
def Tail.isKnown : Tail τ α → Bool
  | .done => true
  | _ => false

end LazyGrammar

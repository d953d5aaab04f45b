import LazyGrammar.LazyList.Operations
import LazyGrammar.Word

/-!
# LazyGrammar.LazyList.Script

**Scripts over lazy lists of integers.** A script is a sequence of steps over named
lists; a step makes a list, or looks at one. The answer of a step comes with the
notes that were taken during it, so that a script shows what is computed when.
-/

namespace LazyGrammar.LazyList

/-! ### Functions of a script -/

/-- A tag under which notes are taken. Nothing is noted under the empty tag. -/
abbrev Tag := String

/-- The note of a detail under a tag. -/
def noteOf (tag : Tag) (detail : String) : List String :=
  if tag.isEmpty then [] else [tag ++ ":" ++ detail]

/-- The note of an element. -/
def noteElement (tag : Tag) (x : Int) : List String := noteOf tag (toString x)

/-- The function `x ↦ x * mul + add`, which may give up at one argument. -/
structure Scaling where
  mul : Int
  add : Int
  tag : Tag
  failsAt : Option Int
  deriving DecidableEq, Repr, Inhabited

namespace Scaling

/-- The value at an argument. -/
def value (f : Scaling) (x : Int) : Int := word (word (x * f.mul) + f.add)

/-- The function as a program that goes on with its value. -/
def apply {kind : Kind} (f : Scaling) (x : Int) (next : Int → Program Int kind) :
    Program Int kind :=
  .note (noteElement f.tag x) <|
    if f.failsAt = some x then .raise (.raised "function failed") else next (f.value x)

/-- The element with an index among `x`, `f x`, `f (f x)` and so on. -/
def iterate (f : Scaling) : Nat → Int → Int
  | 0, x => x
  | n + 1, x => f.iterate n (f.value x)

/-- An iterator over the first `width` elements among `x`, `f x`, `f (f x)` and so on.
It finds the element after the one that it gives, too. -/
def successors (f : Scaling) (width : Nat) (x : Int) : Nat → Program Int .item := fun index =>
  if index < width then
    let y := f.iterate index x
    f.apply y fun _ => .done (some y)
  else .done none

/-- The list that an element becomes: the first `width` successors, or just the
element. -/
def expand (f : Scaling) (width : Nat) (x : Int) : Program Int .list :=
  .note (noteOf f.tag ("expand " ++ toString x)) <|
    .lazy (f.successors width x) fun list =>
      if list = .nil then .cons x .nil .give else .give list

end Scaling

/-- An iterator over given elements. -/
def overItems (tag : Tag) (items : Array Int) : Nat → Program Int .item := fun index =>
  match items[index]? with
  | some x => .note (noteElement tag x) (.done (some x))
  | none => .done none

/-- An iterator that counts without end. -/
def overCount (tag : Tag) (start : Int) : Nat → Program Int .item := fun index =>
  let x := word (start + index)
  .note (noteElement tag x) (.done (some x))

/-! ### Steps -/

/-- A step that makes a list. -/
inductive Making
  | empty
  /-- All tails known. -/
  | items (xs : List Int)
  /-- Elements asked for one by one. -/
  | lazy (xs : List Int) (tag : Tag)
  | count (start : Int) (tag : Tag)
  | single (head : Int)
  | cons (head : Int) (tail : String)
  /-- The tail is the given list, found by a thunk. -/
  | delay (head : Int) (tail : String) (tag : Tag)
  /-- The tail's thunk gives up. -/
  | failing (head : Int) (tag : Tag)
  /-- The tail is the list itself. -/
  | knot (head : Int) (tag : Tag)
  /-- The tail's thunk asks for the tail. -/
  | cyclic (head : Int) (tag : Tag)
  | copy (source : String)
  | tail (source : String)
  | map (source : String) (f : Scaling)
  | concat (source that : String) (tag : Tag)
  | flatMap (source : String) (f : Scaling) (width : Nat)
  deriving Repr, Inhabited

/-- A step that looks at a list. -/
inductive Looking
  | isEmpty
  | head
  | hasTail
  | isForced
  | toList
  | take (count : Option Nat)
  /-- The same, for a list that is known to have an element. -/
  | takeNonEmpty (count : Option Nat)
  | length
  | debug
  deriving DecidableEq, Repr, Inhabited

/-- A step. -/
inductive Step
  | make (target : String) (how : Making)
  | look (source : String) (what : Looking)
  | drop (name : String)
  deriving Repr, Inhabited

/-- The result of a step. -/
inductive Result
  | nothing
  /-- A list was made, with this head if it has one. -/
  | made (head : Option Int)
  | flag (b : Bool)
  | number (n : Int)
  | elements (xs : List Int)
  | text (s : String)
  | fault (f : Fault)
  | unknownList (name : String)
  | unfinished
  deriving Repr, Inhabited

/-- The result of a step, and the notes taken during it. -/
structure Answer where
  result : Result
  notes : List String
  deriving Repr, Inhabited

/-! ### Running scripts -/

/-- The lists by name. -/
abbrev Registers := List (String × LazyList)

/-- What a script works on. -/
structure Desk where
  registers : Registers
  memory : Memory Int
  deriving Inhabited

/-- Why a step has no proper result. -/
inductive Refusal
  | trouble (t : Trouble)
  | unknownList (name : String)
  deriving Repr, Inhabited

/-- A part of a step. -/
abbrev Work (β : Type) := ExceptT Refusal (StateM Desk) β

/-- Does something with lists. -/
def onLists {β : Type} (action : Action Int β) : Work β := fun desk =>
  match action desk.memory with
  | (.ok v, memory) => (.ok v, { desk with memory })
  | (.error t, memory) => (.error (.trouble t), { desk with memory })

/-- The list with a name. -/
def named (name : String) : Work LazyList := do
  match (← get).registers.lookup name with
  | some list => return list
  | none => throw (.unknownList name)

/-- Forgets the list with a name. -/
def unbind (name : String) : Work Unit :=
  modify fun desk => { desk with registers := desk.registers.filter (·.1 != name) }

/-- Gives a list a name. -/
def bind (name : String) (list : LazyList) : Work Unit := do
  unbind name
  modify fun desk => { desk with registers := (name, list) :: desk.registers }

/-- Makes a list. -/
def make (budget : Nat) : Making → Work LazyList
  | .empty => return .nil
  | .items xs => onLists (ofList budget xs)
  | .lazy xs tag => onLists (LazyList.lazy budget (overItems tag xs.toArray))
  | .count start tag => onLists (LazyList.lazy budget (overCount tag start))
  | .single head => onLists (LazyList.single budget head)
  | .cons head tail => do
    let tail ← named tail
    onLists (LazyList.cons budget head tail)
  | .delay head tail tag => do
    let tail ← named tail
    onLists (LazyList.new budget head fun _ => .note (noteOf tag "tail") (.give tail))
  | .failing head tag =>
    onLists <| LazyList.new budget head fun _ =>
      .note (noteOf tag "tail") (.raise (.raised "tail failed"))
  | .knot head tag =>
    onLists <| LazyList.new budget head fun address =>
      .note (noteOf tag "tail") (.give (.link address))
  | .cyclic head tag =>
    onLists <| LazyList.new budget head fun address =>
      .note (noteOf tag "tail") (.tail address .give)
  | .copy source => named source
  | .tail source => do
    let list ← named source
    return (← onLists (tail? budget list)).getD .nil
  | .map source f => do
    let list ← named source
    onLists (LazyList.map budget (f.apply · (.done ·)) list)
  | .concat source that tag => do
    let list ← named source
    let that ← named that
    onLists (LazyList.concat budget list (.note (noteOf tag "that") (.give that)))
  | .flatMap source f width => do
    let list ← named source
    onLists (LazyList.flatMap budget (f.expand width) list)

/-- Looks at a list. -/
def look (budget : Nat) (list : LazyList) : Looking → Work Result
  | .isEmpty => return .flag (list = .nil)
  | .head => do
    match ← onLists (head? list) with
    | some x => return .number x
    | none => return .nothing
  | .hasTail => do return .flag (← onLists (tail? budget list)).isSome
  | .isForced => do
    match ← onLists (isForced? list) with
    | some b => return .flag b
    | none => return .nothing
  | .toList | .take none => do return .elements (← onLists (LazyList.toList budget list))
  | .take (some count) => do return .elements (← onLists (LazyList.take budget count list))
  | .takeNonEmpty count => do
    if list = .nil then return .nothing
    else
      match count with
      | some count => return .elements (← onLists (LazyList.take budget count list))
      | none => return .elements (← onLists (LazyList.toList budget list))
  | .length => do return .number (← onLists (LazyList.toList budget list)).length
  | .debug => do return .text ((← get).memory.heap.render toString list)

/-- Does a step. Combining an empty list by `flatMap` makes nothing worth telling. -/
def perform? (budget : Nat) : Step → Work Result
  | .make target how => do
    let list ← make budget how
    bind target list
    match how, list with
    | .flatMap _ _ _, .nil => return .nothing
    | _, _ => return .made (← onLists (head? list))
  | .look source what => do
    let list ← named source
    look budget list what
  | .drop name => do
    unbind name
    return .nothing

/-- The answer of a step. A step that fails leaves the names as they were. -/
def answer (budget : Nat) (desk : Desk) (step : Step) : Answer × Desk :=
  let desk := { desk with memory := { desk.memory with notes := #[] } }
  let (outcome, desk) := (perform? budget step).run desk
  let result :=
    match outcome with
    | .ok r => r
    | .error (.trouble (.fault f)) => .fault f
    | .error (.trouble .unfinished) => .unfinished
    | .error (.unknownList name) => .unknownList name
  (⟨result, desk.memory.notes.toList⟩, desk)

/-- The answers of steps on some lists. -/
def answers (budget : Nat) (desk : Desk) : List Step → List Answer
  | [] => []
  | step :: steps =>
    let (a, desk) := answer budget desk step
    a :: answers budget desk steps

/-- The answers of a script. -/
def runScript (budget : Nat) (steps : List Step) : List Answer :=
  answers budget ⟨[], .empty⟩ steps

end LazyGrammar.LazyList

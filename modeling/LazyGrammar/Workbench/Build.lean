import LazyGrammar.Rule.Analysis
import LazyGrammar.Search.Explore
import LazyGrammar.Workbench.Description

/-!
# LazyGrammar.Workbench.Build

**Making and using described rules.** A workbench holds a grammar, names for some of
its rules, and at most one parser; work on it may end in a refusal, which leaves it
as it is at that moment.

Design points:

* Making a rule may use one (`probe`), and using a rule may make others (suppliers).
  The two are one recursion here, over a count of nested uses; everything that does
  not need the other stays outside of it.
* A rule that is in use or half made is held, so that recursive rules it needs are
  not released meanwhile. Releasing happens where it can be noticed: before rules
  are used, analysed or defined, and after a supplier has run.
* A supplier that fails leaves its rule spoiled.
-/

namespace LazyGrammar

/-! ### Workbenches -/

/-- A parser: a root and the analysis of the grammar below it. -/
structure Parser where
  root : Rule
  analysis : Analysis
  deriving Inhabited

/-- A request that makes no sense on a workbench. -/
inductive BadRequest
  | noParser
  | unknownRule (name : String)
  deriving DecidableEq, Repr, Inhabited

/-- The text of a bad request. -/
def BadRequest.message : BadRequest → String
  | .noParser => "no parser"
  | .unknownRule name => "unknown rule " ++ name

/-- Why work comes to nothing. -/
inductive Refusal
  | fault (f : Fault)
  | badRequest (b : BadRequest)
  | input (e : InputError)
  /-- The budget was too small, or something needs itself. -/
  | unfinished
  deriving Repr, Inhabited

/-- The fault that a supplier ends in. -/
def Refusal.asFault : Refusal → Refusal
  | .badRequest b => .fault (.raised b.message)
  | refusal => refusal

/-- A grammar at work. -/
structure Workbench where
  grammar : ValueGrammar
  names : List (String × Rule)
  parser : Option Parser
  /-- Rules in use or half made. -/
  held : List Rule
  deriving Inhabited

/-- Work on a workbench. -/
abbrev Work (β : Type) := ExceptT Refusal (StateM Workbench) β

namespace Workbench

/-- A workbench without rules. -/
def empty : Workbench := ⟨.empty, [], none, []⟩

/-- The rules that keep others from being released. -/
def roots (w : Workbench) : List Rule :=
  w.names.map (·.2) ++ (w.parser.map (·.root)).toList ++ w.held

/-- Releases the recursive rules that nothing keeps. -/
def tidy (w : Workbench) : Workbench := { w with grammar := w.grammar.release w.roots }

/-- Gives a rule a name. -/
def bind (w : Workbench) (name : String) (r : Rule) : Workbench :=
  { w with names := (name, r) :: w.names.filter (·.1 != name) }

/-- Takes a name away. -/
def unbind (w : Workbench) (name : String) : Workbench :=
  { w with names := w.names.filter (·.1 != name) }

end Workbench

namespace Work

variable {β κ ρ : Type}

/-- Changes the grammar. -/
def onGrammar (change : StateM ValueGrammar β) : Work β := fun w =>
  let (v, grammar) := change.run w.grammar
  (.ok v, { w with grammar })

/-- The rule with a name. -/
def named (name : String) : Work Rule := do
  match (← get).names.lookup name with
  | some r => return r
  | none => throw (.badRequest (.unknownRule name))

/-- Holds a rule from now on. -/
def hold (r : Rule) : Work Unit := modify fun w => { w with held := r :: w.held }

/-- Does some work, and holds afterwards what was held before. -/
def withHeld (work : Work β) : Work β := do
  let held := (← get).held
  let v ← work
  modify fun w => { w with held }
  return v

/-- Puts something into a cell. -/
def fill (cell : CellId) (content : Cell Description) : Work Unit :=
  modify fun w => { w with grammar := w.grammar.setCell cell content }

/-- Runs the supplier of a cell, if it waits for that, with `make` as the way of making
rules. -/
def supply (make : Description → Work Rule) (cell : CellId) : Work Unit := do
  match (← get).grammar.target cell with
  | .pending supplier =>
    fill cell .computing
    let made ← tryCatch (make supplier) fun refusal => do
      fill cell .spoiled
      throw refusal.asFault
    fill cell (.supplied made)
    modify Workbench.tidy
  | _ => return ()

/-- Walks a stream of outcomes, and has rules made that the walk waits for, at most
the given number of times. -/
def walk (make : Description → Work Rule) (budget : Nat) (src : Source Value)
    (reader : Reader Value Value κ ρ) :
    Nat → κ → State Value Value → Work (ρ × State Value Value)
  | 0, _, _ => throw .unfinished
  | times + 1, memory, s => do
    match explore (← get).grammar src reader budget budget memory s with
    | .answer r s => return (r, s)
    | .fault f => throw (.fault f)
    | .waiting cell memory s => do
      supply make cell
      walk make budget src reader times memory s
    | .circular | .unfinished => throw .unfinished

/-- Surveys the grammar, and has rules made that the survey waits for, at most the
given number of times. -/
def survey (make : Description → Work Rule) : Nat → Survey → Work Analysis
  | 0, _ => throw .unfinished
  | times + 1, s => do
    match s.complete (← get).grammar with
    | .finished s => return .ofSurvey s
    | .fault f => throw (.fault f)
    | .waiting cell s => do
      supply make cell
      survey make times s
    | .next _ | .circular => throw .unfinished

/-! ### Making rules -/

/-- The stream's first outcome is enough. -/
def firstOnly : Reader Value Value Unit Unit where
  outcome _ _ _ := .stop ()
  finish _ := .ok ()

/-- A combination of rules that `descriptions` describe, made in order. What has been
made is held until the combination is there. -/
def combine (make : Description → Work Rule) (descriptions : List Description)
    (combination : List Rule → Work Rule) : Work Rule :=
  withHeld do
    let rules ← descriptions.mapM fun d => do
      let r ← make d
      hold r
      return r
    combination rules

/-- Makes a rule out of one that is described. -/
def wrap (make : Description → Work Rule) (d : Description)
    (combination : Rule → StateM ValueGrammar Rule) : Work Rule := do
  let r ← make d
  onGrammar (combination r)

/-- The list of some values. -/
def listOf (vs : List Value) : Except Fault Value := .ok (.list vs)

/-- The rules one after the other. -/
def sequenceOf (f : List Value → Except Fault Value) : List Rule → Work Rule
  | [] => throw (.fault .emptyChoice)
  | first :: others => onGrammar (Grammar.sequence first others f)

/-- A description followed, where `make` makes the rules that it is about. -/
def follow (make : Description → Work Rule) (budget : Nat) : Description → Work Rule
  | .named name => named name
  | .just v => onGrammar (Grammar.just id v)
  | .any => onGrammar (Grammar.any id)
  | .terminal test =>
    onGrammar (Grammar.terminal fun v => .ok (if test.passes v then some v else none))
  | .select selection => onGrammar (Grammar.select fun v => .ok (selection.select v))
  | .epsilon => onGrammar do Grammar.constant (← Grammar.epsilon .unit) .unit
  | .endOfInput => onGrammar do Grammar.constant (← Grammar.endOfInput .unit) .unit
  | .map inner f => wrap make inner fun r => Grammar.map r fun v => f.apply [v]
  | .constant inner v => wrap make inner fun r => Grammar.constant r v
  | .oneOf alternatives => combine make alternatives fun rules =>
      match Grammar.oneOfList rules with
      | .ok change => onGrammar change
      | .error f => throw (.fault f)
  | .either left right => combine make [left, right] fun
      | [l, r] => onGrammar do Grammar.map (← Grammar.either l r .left .right) .ok
      | _ => throw (.fault .emptyChoice)
  | .pair first second => combine make [first, second] fun rules => do
      let r ← sequenceOf listOf rules
      onGrammar (Grammar.map r .ok)
  | .sequence parts f => combine make parts (sequenceOf fun vs => f.apply vs)
  | .optional inner => wrap make inner fun r => do
      Grammar.map (← Grammar.optional r .unit .absent .present) .ok
  | .repetition item => wrap make item fun r => do
      Grammar.map (← Grammar.repetition r .unit .list) .ok
  | .labelled label inner => wrap make inner fun r => Grammar.labelled r label
  | .recursive name body => do
    let opening ← onGrammar Grammar.openRecursive
    modify fun w => w.bind name opening.self
    let r ← make body
    onGrammar (Grammar.closeRecursive opening r)
  | .declare => onGrammar Grammar.declare
  | .deferred inner => onGrammar (Grammar.deferred inner)
  | .probe inner => withHeld do
    let r ← make inner
    hold r
    modify Workbench.tidy
    let _ ← walk make budget (.ofList []) firstOnly budget ()
      (.calling r ⟨0, 0⟩ .silent)
    return r

/-- Makes the rule that is described, with descriptions nested at most `depth` deep,
those that suppliers hold included. -/
def build (budget : Nat) : Nat → Description → Work Rule
  | 0, _ => throw .unfinished
  | depth + 1, d => follow (build budget depth) budget d

end Work

end LazyGrammar

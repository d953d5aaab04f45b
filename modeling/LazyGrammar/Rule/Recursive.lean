import LazyGrammar.Rule.Graph

/-!
# LazyGrammar.Rule.Recursive

**Rules that refer to rules made elsewhere.** `declare` makes a rule that is defined
later, once; `deferred` makes a rule that a supplier makes when it is needed first;
`recursive` makes a rule whose body may use the rule itself.

Design points:

* A self reference does not keep its rule. It works while something else does: a
  name, a parser, another rule. `release` finds the recursive rules that nothing
  keeps any more.
* Rules that refer to each other strongly in a circle keep each other, whether or
  not anything else keeps one of them.
* A definition is given away. Where it is refused, nobody has it any more (`offer`).
-/

namespace LazyGrammar.Grammar

variable {τ α σ : Type}

/-! ### Making references -/

/-- A rule to be defined later. -/
def declare : StateM (Grammar τ α σ) Rule := do
  let info ← takeInfo .declared
  let cell ← addCell (.declared none)
  place info (.reference cell false)

/-- A rule that the supplier makes when it is needed first. -/
def deferred (supplier : σ) : StateM (Grammar τ α σ) Rule := do
  let info ← takeInfo .lazy
  let cell ← addCell (.deferred supplier)
  place info (.reference cell false)

/-- A recursive rule in the making: its information, its cell and its self reference. -/
structure Opening where
  info : RuleInfo
  cell : CellId
  self : Rule
  deriving DecidableEq, Repr, Inhabited

/-- Starts a recursive rule. -/
def openRecursive : StateM (Grammar τ α σ) Opening := do
  let info ← takeInfo .recursive
  let cell ← addCell .unfinished
  let self ← place info (.reference cell true)
  return ⟨info, cell, self⟩

/-- Ends a recursive rule, whose body is known now. -/
def closeRecursive (opening : Opening) (body : Rule) : StateM (Grammar τ α σ) Rule := do
  modify fun g => g.setCell opening.cell (.recursive body)
  place opening.info (.reference opening.cell false)

/-- A rule whose body is made from a reference to the rule itself. -/
def recursive (body : Rule → StateM (Grammar τ α σ) Rule) : StateM (Grammar τ α σ) Rule := do
  let opening ← openRecursive
  closeRecursive opening (← body opening.self)

/-! ### Definitions -/

/-- Defines a declared rule, or says why this cannot be. -/
def define (g : Grammar τ α σ) (declared definition : Rule) : Except Fault (Grammar τ α σ) :=
  match g.form? declared with
  | some (.reference cell _) =>
    match g.cells[cell]? with
    | some (.declared none) => .ok (g.setCell cell (.declared (some definition)))
    | some (.declared (some _)) | some (.recursive _) => .error .definedTwice
    | some .unfinished | some .released => .error .unboundSelf
    | _ => .error .notDeclared
  | _ => .error .notDeclared

/-! ### What keeps a rule -/

/-- The rule in a cell, if there is one. -/
def cellRule? (g : Grammar τ α σ) (cell : CellId) : Option Rule :=
  match g.target cell with
  | .rule r => some r
  | _ => none

/-- The rules that a rule keeps. -/
def keeps (g : Grammar τ α σ) (r : Rule) : List Rule :=
  match g.form? r with
  | some (.reference cell false) => (g.cellRule? cell).toList
  | some (.reference _ true) => []
  | some form => form.parts
  | none => []

/-- Marks the places of the given rules, and gives those that were not marked yet. -/
def markNew (marks : Array Bool) : List Rule → Array Bool × List Rule
  | [] => (marks, [])
  | r :: rest =>
    if marks.getD r.node true then markNew marks rest
    else
      let (marks, fresh) := markNew (marks.setIfInBounds r.node true) rest
      (marks, r :: fresh)

/-- Marks everything that the frontier keeps, in at most `rounds` rounds. -/
def markKept (g : Grammar τ α σ) : Nat → Array Bool → List Rule → Array Bool
  | 0, marks, _ => marks
  | _, marks, [] => marks
  | rounds + 1, marks, frontier =>
    let (marks, fresh) := markNew marks (frontier.flatMap g.keeps)
    g.markKept rounds marks fresh

/-- No marks. -/
def noMarks (g : Grammar τ α σ) : Array Bool := Array.replicate g.nodes.size false

/-- Marks everything that the given rules keep, and those rules themselves. -/
def kept (g : Grammar τ α σ) (rules : List Rule) : Array Bool :=
  let (marks, fresh) := markNew g.noMarks rules
  g.markKept g.nodes.size marks fresh

/-- Whether a rule keeps itself. -/
def keepsItself (g : Grammar τ α σ) (r : Rule) : Bool :=
  (g.kept (g.keeps r)).getD r.node false

/-- Whether a rule refers to another one and keeps it. -/
def isStrongReference (g : Grammar τ α σ) (r : Rule) : Bool :=
  match g.form? r with
  | some (.reference _ false) => true
  | _ => false

/-- All rules of a grammar. -/
def rules (g : Grammar τ α σ) : List Rule := (List.range g.nodes.size).map Rule.mk

/-- The rules that keep themselves. A circle goes through a reference, so only
references need to be looked at. -/
def selfKeepers (g : Grammar τ α σ) : List Rule :=
  g.rules.filter fun r => g.isStrongReference r && g.keepsItself r

/-- Whether there is a recursive rule that could be released. -/
def hasRecursive (g : Grammar τ α σ) : Bool :=
  g.cells.any fun
    | .recursive _ => true
    | _ => false

/-- The cells of the recursive rules that the marked rules keep. -/
def keptCells (g : Grammar τ α σ) (marks : Array Bool) : List CellId :=
  g.rules.filterMap fun r =>
    match g.form? r with
    | some (.reference cell false) => if marks.getD r.node false then some cell else none
    | _ => none

/-- Releases the recursive rules that neither the given rules nor a circle of rules
keep. -/
def release (g : Grammar τ α σ) (roots : List Rule) : Grammar τ α σ :=
  if g.hasRecursive then
    let cells := g.keptCells (g.kept (roots ++ g.selfKeepers))
    { g with cells := g.cells.mapIdx fun i c =>
        match c with
        | .recursive body => if cells.contains i then .recursive body else .released
        | c => c }
  else g

/-! ### Offers -/

/-- Offers a definition to a rule. The cell is filled before anybody looks at what is left over.
A definition that is refused is dropped, and with it every recursive rule that the rules in
`held`, which somebody else has, do not keep. -/
def offer (g : Grammar τ α σ) (held : List Rule) (rule definition : Rule) :
    Except Fault Unit × Grammar τ α σ :=
  match g.form? rule with
  | some (.reference cell _) =>
    match g.cells[cell]? with
    | some .unfinished | some .released => (.error .unboundSelf, g.release held)
    | some (.deferred _) | some .computing | some (.supplied _) | some .spoiled | none =>
      (.error .notDeclared, g.release held)
    | some content =>
      let settled := content.settle definition
      let g' := g.setCell cell settled.1
      match settled.2 with
      | none => (.ok (), g')
      | some _ => (.error .definedTwice, g'.release held)
  | _ => (.error .notDeclared, g.release held)

end LazyGrammar.Grammar

import LazyGrammar.Fault
import LazyGrammar.Rule.Info

/-!
# LazyGrammar.Rule.Graph

The **rule graph**: every rule is a node, and a rule is used by its place in the
graph. Nodes are never changed once made. The only parts of a grammar that are
filled in later are its **cells**, which stand behind the rules that refer to a rule
made elsewhere: declared rules, recursive rules, and rules that a supplier makes
when they are needed first.

Design points:

* The functions of a rule either give a value or raise a fault. A grammar whose
  functions never raise one is an ordinary grammar over total functions.
* `oneOf` and `sequence` hold their first rule apart from the others, so there is no
  choice without an alternative and no empty sequence.
* Several nodes share one identity where they stand for one rule: a rule and its
  labelled copies, a recursive rule and its self reference.
* A supplier is data of a type `σ` that the graph only stores. Who runs it, and how,
  is not the business of the graph.
-/

namespace LazyGrammar

variable {τ α σ : Type}

/-- A rule: its place in the graph. -/
structure Rule where
  node : Nat
  deriving DecidableEq, Repr, Inhabited

/-- The place of a cell in the graph. -/
abbrev CellId := Nat

/-- What a rule matches and what it makes of it, for tokens of type `τ` and values
of type `α`. -/
inductive Form (τ α : Type)
  /-- One token for which the function gives a value. -/
  | terminal (accept : τ → Except Fault (Option α))
  /-- Nothing, with this value. -/
  | epsilon (value : α)
  /-- Nothing, at the end of the input only. -/
  | endOfInput (value : α)
  /-- What `inner` matches, with another value. -/
  | map (inner : Rule) (f : α → Except Fault α)
  /-- One or more items, each of at least one token. -/
  | repetition (item : Rule) (collect : List α → α)
  /-- What the rule behind the cell matches. A self reference is weak: it does not
  keep the recursive rule that it refers to. -/
  | reference (cell : CellId) (weak : Bool)
  /-- What any of the rules matches. -/
  | oneOf (first : Rule) (others : List Rule)
  /-- What the rules match one after another. -/
  | sequence (first : Rule) (others : List Rule) (build : List α → Except Fault α)
  deriving Inhabited

/-- A rule together with what is known about it. -/
structure Node (τ α : Type) where
  info : RuleInfo
  form : Form τ α
  deriving Inhabited

/-- What stands behind a reference. -/
inductive Cell (σ : Type)
  /-- A declared rule, with its definition if it has one by now. -/
  | declared (definition : Option Rule)
  /-- A recursive rule whose body is still being built. -/
  | unfinished
  /-- A recursive rule with its body. -/
  | recursive (body : Rule)
  /-- A recursive rule that nothing keeps any more. -/
  | released
  /-- A rule still to be made. -/
  | deferred (supplier : σ)
  /-- A rule that is being made. -/
  | computing
  /-- A rule that its supplier has made. -/
  | supplied (rule : Rule)
  /-- A rule whose supplier failed. -/
  | spoiled
  deriving Inhabited

/-- A collection of rules. -/
structure Grammar (τ α σ : Type) where
  nodes : Array (Node τ α)
  cells : Array (Cell σ)
  /-- The identity that the next rule gets. -/
  nextId : RuleId
  deriving Inhabited

/-- What following a reference leads to. -/
inductive Target (σ : Type)
  | rule (r : Rule)
  | fault (f : Fault)
  /-- A supplier has to make the rule first. -/
  | pending (supplier : σ)
  /-- The rule is needed in order to make it, so it will never be made. -/
  | circular
  deriving Inhabited

/-- What a cell leads to. -/
def Cell.target : Cell σ → Target σ
  | .declared (some r) | .recursive r | .supplied r => .rule r
  | .declared none => .fault .undefinedRule
  | .unfinished | .released => .fault .unboundSelf
  | .deferred s => .pending s
  | .computing => .circular
  | .spoiled => .fault .spoiledRule

/-- A definition for what stands behind a reference: the cell takes it if it waits for one, and
otherwise the definition is left over. -/
def Cell.settle (definition : Rule) : Cell σ → Cell σ × Option Rule
  | .declared none => (.declared (some definition), none)
  | content => (content, some definition)

/-- The rules that a form names directly. A reference names none: it goes through
its cell. -/
def Form.parts : Form τ α → List Rule
  | .terminal _ | .epsilon _ | .endOfInput _ | .reference _ _ => []
  | .map inner _ => [inner]
  | .repetition item _ => [item]
  | .oneOf first others => first :: others
  | .sequence first others _ => first :: others

namespace Grammar

/-- A grammar without rules. -/
def empty : Grammar τ α σ := ⟨#[], #[], 0⟩

/-- The node of a rule. -/
def node? (g : Grammar τ α σ) (r : Rule) : Option (Node τ α) := g.nodes[r.node]?

/-- What a rule matches and makes of it. -/
def form? (g : Grammar τ α σ) (r : Rule) : Option (Form τ α) := (g.node? r).map (·.form)

/-- What a cell leads to. A cell that the grammar does not have is like a declared
rule without definition. -/
def target (g : Grammar τ α σ) (cell : CellId) : Target σ :=
  match g.cells[cell]? with
  | some c => c.target
  | none => .fault .undefinedRule

/-- What is known about a rule. -/
def info (g : Grammar τ α σ) (r : Rule) : RuleInfo := ((g.node? r).map (·.info)).getD default

/-! ### Making rules -/

/-- Takes the next identity for a rule of some kind. -/
def takeInfo (kind : RuleKind) : StateM (Grammar τ α σ) RuleInfo :=
  modifyGet fun g => (⟨g.nextId, kind, none⟩, { g with nextId := g.nextId + 1 })

/-- Adds a node. -/
def place (info : RuleInfo) (form : Form τ α) : StateM (Grammar τ α σ) Rule :=
  modifyGet fun g => (⟨g.nodes.size⟩, { g with nodes := g.nodes.push ⟨info, form⟩ })

/-- Adds a node with a fresh identity. -/
def make (kind : RuleKind) (form : Form τ α) : StateM (Grammar τ α σ) Rule := do
  place (← takeInfo kind) form

/-- Adds a cell. -/
def addCell (cell : Cell σ) : StateM (Grammar τ α σ) CellId :=
  modifyGet fun g => (g.cells.size, { g with cells := g.cells.push cell })

/-- Changes what stands in a cell. -/
def setCell (g : Grammar τ α σ) (cell : CellId) (content : Cell σ) : Grammar τ α σ :=
  { g with cells := g.cells.setIfInBounds cell content }

@[simp] theorem setCell_nodes (g : Grammar τ α σ) (cell : CellId) (content : Cell σ) :
    (g.setCell cell content).nodes = g.nodes := rfl

@[simp] theorem setCell_nextId (g : Grammar τ α σ) (cell : CellId) (content : Cell σ) :
    (g.setCell cell content).nextId = g.nextId := rfl

@[simp] theorem node?_setCell (g : Grammar τ α σ) (cell : CellId) (content : Cell σ) (r : Rule) :
    (g.setCell cell content).node? r = g.node? r := rfl

end Grammar

end LazyGrammar

import Std.Data.HashMap
import Std.Data.HashSet
import LazyGrammar.Rule.Graph

/-!
# LazyGrammar.Rule.Analysis

**What can be told of a grammar without any input**: which rules can match nothing,
and which rules can reach themselves without consuming a token.

Design points:

* A survey walks the graph from a root and keeps one entry for every identity, that
  of the node met first. It may meet a rule that a supplier has to make; then it says
  so and can go on once the rule is there.
* Nullability is a least fixed point over the entries. A rule is left-recursive
  exactly when it lies on a circle of the relation "may be entered at the same
  position".
* The end of the input consumes nothing, and yet does not count as matching nothing.
-/

namespace LazyGrammar

variable {τ α σ : Type}

/-- How a rule's matches are made of those of other rules. -/
inductive Shape
  | leaf (nullable : Bool)
  /-- Any one of the rules. -/
  | choice (children : List RuleId)
  /-- All of the rules, in order. -/
  | chain (children : List RuleId)
  deriving DecidableEq, Repr, Inhabited

/-- What a survey keeps of a rule. -/
structure Entry where
  info : RuleInfo
  shape : Shape
  deriving DecidableEq, Repr, Inhabited

/-! ### Surveying the graph -/

/-- A survey under way. -/
structure Survey where
  table : Std.HashMap RuleId Entry
  /-- The identities in the table, the latest first. -/
  ids : List RuleId
  /-- The rules still to be visited, the next one first. -/
  stack : List Rule
  deriving Inhabited

/-- How far a survey has got. -/
inductive SurveyStep
  | next (s : Survey)
  | finished (s : Survey)
  | fault (f : Fault)
  /-- The rule in the cell has to be made first. -/
  | waiting (cell : CellId) (s : Survey)
  | circular
  deriving Inhabited

namespace Survey

/-- A survey from a root. -/
def start (root : Rule) : Survey := ⟨∅, [], [root]⟩

/-- Enters a rule into the table and puts the rules it is made of on the stack, the
last one on top. -/
def enter (s : Survey) (info : RuleInfo) (shape : Shape) (children : List Rule)
    (rest : List Rule) : Survey :=
  ⟨s.table.insert info.id ⟨info, shape⟩, info.id :: s.ids, children.reverse ++ rest⟩

/-- Visits the rule on top of the stack. -/
def step (g : Grammar τ α σ) (s : Survey) : SurveyStep :=
  match s.stack with
  | [] => .finished s
  | r :: rest =>
    match g.node? r with
    | none => .fault .undefinedRule
    | some ⟨info, form⟩ =>
      if s.table.contains info.id then .next { s with stack := rest }
      else
        let ids := form.parts.map fun p => (g.info p).id
        match form with
        | .terminal _ | .endOfInput _ => .next (s.enter info (.leaf false) [] rest)
        | .epsilon _ => .next (s.enter info (.leaf true) [] rest)
        | .oneOf _ _ => .next (s.enter info (.choice ids) form.parts rest)
        | .map _ _ | .repetition _ _ | .sequence _ _ _ =>
          .next (s.enter info (.chain ids) form.parts rest)
        | .reference cell _ =>
          match g.target cell with
          | .rule target => .next (s.enter info (.chain [(g.info target).id]) [target] rest)
          | .fault f => .fault f
          | .pending _ => .waiting cell s
          | .circular => .circular

/-- Visits at most the given number of rules. -/
def run (g : Grammar τ α σ) : Nat → Survey → SurveyStep
  | 0, s => .next s
  | n + 1, s =>
    match s.step g with
    | .next s' => run g n s'
    | stop => stop

/-- Enough visits for any survey of the grammar: every rule puts each of its parts
on the stack at most once. -/
def visits (g : Grammar τ α σ) (s : Survey) : Nat :=
  g.nodes.foldl (fun n node => n + node.form.parts.length + 1) (s.stack.length + 1)

/-- Goes on until nothing is left to be visited, or a rule has to be made. -/
def complete (g : Grammar τ α σ) (s : Survey) : SurveyStep := s.run g (visits g s)

end Survey

/-! ### Properties -/

/-- What the analysis tells of a rule. -/
structure Properties where
  /-- Whether the rule can succeed without consuming a token. -/
  nullable : Bool
  /-- Whether the rule can reach itself without consuming a token. -/
  leftRecursive : Bool
  deriving DecidableEq, Repr, Inhabited

namespace Survey

/-- Whether a rule of the given shape is nullable if those in `known` are. -/
def shapeNullable (known : Std.HashSet RuleId) : Shape → Bool
  | .leaf nullable => nullable
  | .choice children => children.any known.contains
  | .chain children => children.all known.contains

/-- Adds a rule to `known` if it is nullable by what is known. -/
def learn (s : Survey) (known : Std.HashSet RuleId) (id : RuleId) : Std.HashSet RuleId :=
  match s.table[id]? with
  | some entry => if shapeNullable known entry.shape then known.insert id else known
  | none => known

/-- Goes through all rules until nothing new is learnt, at most `rounds` times. -/
def solve (s : Survey) : Nat → Std.HashSet RuleId → Std.HashSet RuleId
  | 0, known => known
  | rounds + 1, known =>
    let known' := s.ids.foldl s.learn known
    if known'.size = known.size then known else s.solve rounds known'

/-- The nullable rules. Every round but the last finds one more. -/
def nullableIds (s : Survey) : Std.HashSet RuleId := s.solve (s.ids.length + 1) ∅

/-- The children of a chain up to the first one that is not nullable, which is
included. -/
def upToSolid (nullable : Std.HashSet RuleId) : List RuleId → List RuleId
  | [] => []
  | child :: rest =>
    if nullable.contains child then child :: upToSolid nullable rest else [child]

/-- The rules that may be entered at the position where the given one is. -/
def leftmost (s : Survey) (nullable : Std.HashSet RuleId) (id : RuleId) : List RuleId :=
  match s.table[id]? with
  | some ⟨_, .choice children⟩ => children
  | some ⟨_, .chain children⟩ => upToSolid nullable children
  | some ⟨_, .leaf _⟩ | none => []

/-- Whether the leftmost relation leads from the frontier to `goal` in at most
`rounds` steps that meet no rule in `seen`. -/
def reaches (s : Survey) (nullable : Std.HashSet RuleId) (goal : RuleId) :
    Nat → Std.HashSet RuleId → List RuleId → Bool
  | 0, _, _ => false
  | rounds + 1, seen, frontier =>
    if frontier.contains goal then true
    else
      let fresh := (frontier.filter fun id => !seen.contains id).eraseDups
      if fresh.isEmpty then false
      else s.reaches nullable goal rounds (seen.insertMany fresh)
        (fresh.flatMap (s.leftmost nullable))

/-- Whether a rule can reach itself without consuming a token. -/
def reachesItself (s : Survey) (nullable : Std.HashSet RuleId) (id : RuleId) : Bool :=
  s.reaches nullable id (s.ids.length + 2) ∅ (s.leftmost nullable id)

end Survey

/-- The result of analysing a grammar from a root. -/
structure Analysis where
  survey : Survey
  nullable : Std.HashSet RuleId
  /-- The left-recursive rules, by identity. -/
  recursive : List RuleId
  deriving Inhabited

namespace Analysis

/-- The analysis that a finished survey gives. -/
def ofSurvey (s : Survey) : Analysis :=
  let nullable := s.nullableIds
  let ids := s.ids.mergeSort (· ≤ ·)
  ⟨s, nullable, ids.filter (s.reachesItself nullable)⟩

/-- The properties of a rule, if the grammar has it. -/
def properties? (a : Analysis) (id : RuleId) : Option Properties :=
  if a.survey.table.contains id then
    some ⟨a.nullable.contains id, a.recursive.contains id⟩
  else none

/-- The left-recursive rules, in the order in which they were made. -/
def leftRecursiveRules (a : Analysis) : List RuleInfo :=
  a.recursive.filterMap fun id => (a.survey.table[id]?).map (·.info)

end Analysis

end LazyGrammar

import LazyGrammar.Rule.Graph

/-!
# LazyGrammar.Rule.Combinators

The **operations that make rules** out of others, except those that refer to rules
made elsewhere (`LazyGrammar.Rule.Recursive`).

Every operation is a change of the grammar that gives the new rule. Identities are
taken in the order of the `make` lines, which traces and the order of analysis
results show; an operation that is put together from others takes theirs.
-/

namespace LazyGrammar.Grammar

variable {τ α σ : Type}

/-! ### Leaves -/

/-- One token that satisfies the condition. -/
def terminal (accept : τ → Except Fault (Option α)) : StateM (Grammar τ α σ) Rule :=
  make .terminal (.terminal accept)

/-- One token for which the function gives a value. -/
def select (f : τ → Except Fault (Option α)) : StateM (Grammar τ α σ) Rule :=
  make .select (.terminal f)

/-- One token equal to the given one. -/
def just [DecidableEq τ] (ofToken : τ → α) (expected : τ) : StateM (Grammar τ α σ) Rule :=
  make .just (.terminal fun t => .ok (if t = expected then some (ofToken t) else none))

/-- Any one token. -/
def any (ofToken : τ → α) : StateM (Grammar τ α σ) Rule :=
  make .any (.terminal fun t => .ok (some (ofToken t)))

/-- Nothing, with a value. -/
def epsilon (value : α) : StateM (Grammar τ α σ) Rule :=
  make .epsilon (.epsilon value)

/-- Nothing, at the end of the input only, with a value. -/
def endOfInput (value : α) : StateM (Grammar τ α σ) Rule :=
  make .endOfInput (.endOfInput value)

/-! ### Combinations -/

/-- The rule with another value. -/
def map (inner : Rule) (f : α → Except Fault α) : StateM (Grammar τ α σ) Rule :=
  make .map (.map inner f)

/-- The rule with a constant value. -/
def constant (inner : Rule) (value : α) : StateM (Grammar τ α σ) Rule :=
  map inner fun _ => .ok value

/-- Any of the rules, in order. -/
def oneOf (first : Rule) (others : List Rule) : StateM (Grammar τ α σ) Rule :=
  make .oneOf (.oneOf first others)

/-- Any of the rules of a list, which must not be empty. -/
def oneOfList (rules : List Rule) : Except Fault (StateM (Grammar τ α σ) Rule) :=
  match rules with
  | [] => .error .emptyChoice
  | first :: others => .ok (oneOf first others)

/-- The rules one after another. -/
def sequence (first : Rule) (others : List Rule) (build : List α → Except Fault α) :
    StateM (Grammar τ α σ) Rule :=
  make .sequence (.sequence first others build)

/-- Nothing, then the rule. -/
def optional (rule : Rule) (unit absent : α) (present : α → α) :
    StateM (Grammar τ α σ) Rule := do
  let nothing ← epsilon unit
  let without ← constant nothing absent
  let within ← map rule fun v => .ok (present v)
  oneOf without [within]

/-- Any number of items, the fewest first. The rule for one item or more is not
reachable by itself. -/
def repetition (item : Rule) (unit : α) (collect : List α → α) :
    StateM (Grammar τ α σ) Rule := do
  let info ← takeInfo .repetition
  let more ← place info (.repetition item collect)
  let nothing ← epsilon unit
  let without ← constant nothing (collect [])
  oneOf without [more]

/-- One rule or the other, with values that tell which. -/
def either (left right : Rule) (ofLeft ofRight : α → α) : StateM (Grammar τ α σ) Rule := do
  let l ← map left fun v => .ok (ofLeft v)
  let r ← map right fun v => .ok (ofRight v)
  oneOf l [r]

/-- The same rule under a name. -/
def labelled (rule : Rule) (label : String) : StateM (Grammar τ α σ) Rule := do
  match (← get).node? rule with
  | some node => place (node.info.labelled label) node.form
  | none => return rule

end LazyGrammar.Grammar

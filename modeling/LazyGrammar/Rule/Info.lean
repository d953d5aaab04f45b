/-!
# LazyGrammar.Rule.Info

What is known of a rule apart from what it matches: its **identity**, the kind of
rule it is and the label it may carry. Two informations are about the same rule
exactly when their identities agree; a label only changes how the rule is shown.
-/

namespace LazyGrammar

/-- The identity of a rule. Identities are given out in the order in which rules
are made, and several nodes share one where they stand for one rule. -/
abbrev RuleId := Nat

/-- The kinds of rule, by the operation that makes them. -/
inductive RuleKind
  | terminal
  | select
  | just
  | any
  | epsilon
  | endOfInput
  | map
  | oneOf
  | repetition
  | sequence
  | recursive
  | lazy
  | declared
  deriving DecidableEq, Repr, Inhabited

/-- The word that names a kind of rule. -/
def RuleKind.name : RuleKind → String
  | .terminal => "terminal"
  | .select => "select"
  | .just => "just"
  | .any => "any"
  | .epsilon => "epsilon"
  | .endOfInput => "end_of_input"
  | .map => "map"
  | .oneOf => "one_of"
  | .repetition => "repeat"
  | .sequence => "seq"
  | .recursive => "recursive"
  | .lazy => "lazy"
  | .declared => "declare"

/-- Identity, kind and label of a rule. -/
structure RuleInfo where
  id : RuleId
  kind : RuleKind
  label : Option String
  deriving DecidableEq, Repr, Inhabited

namespace RuleInfo

/-- A rule is shown by its label, or else by its kind and identity. -/
def shown (info : RuleInfo) : String :=
  match info.label with
  | some label => label
  | none => info.kind.name ++ "#" ++ toString info.id

/-- Whether two informations are about one rule. -/
def sameRule (a b : RuleInfo) : Bool := a.id == b.id

/-- The same rule under another name. -/
def labelled (info : RuleInfo) (label : String) : RuleInfo :=
  { info with label := some label }

@[simp] theorem labelled_id (info : RuleInfo) (label : String) :
    (info.labelled label).id = info.id := rfl

@[simp] theorem labelled_kind (info : RuleInfo) (label : String) :
    (info.labelled label).kind = info.kind := rfl

@[simp] theorem shown_labelled (info : RuleInfo) (label : String) :
    (info.labelled label).shown = label := rfl

end RuleInfo

end LazyGrammar

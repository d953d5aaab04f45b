/-!
# LazyGrammar.Fault

The ways in which a grammar or a lazy list can be **misused**. A fault is not a
parse failure: a parse failure is an ordinary outcome that says where the input
stops making sense, while a fault ends the request it occurs in and says that the
request itself made no sense.

Every fault is a cause; its wording is in `Fault.message` alone.
-/

namespace LazyGrammar

/-- Why a request was given up. -/
inductive Fault
  /-- A choice between no alternatives at all. -/
  | emptyChoice
  /-- A declared rule is needed and has no definition. -/
  | undefinedRule
  /-- A self reference is needed while the recursive rule it stands for is still
  being built, or when nothing keeps that rule any more. -/
  | unboundSelf
  /-- A definition for a rule that does not wait for one. -/
  | notDeclared
  /-- A second definition for a rule. -/
  | definedTwice
  /-- A rule whose supplier failed is needed again. -/
  | spoiledRule
  /-- A tail is needed for its own computation, or its computation failed before. -/
  | tailInProgress
  /-- A function given by the user gave up, with its own message. -/
  | raised (text : String)
  deriving DecidableEq, Repr, Inhabited

/-- The text of a fault. -/
def Fault.message : Fault → String
  | .emptyChoice => "one_of requires at least one alternative"
  | .undefinedRule => "Rule used before being defined"
  | .unboundSelf => "Recursive rule used before being defined"
  | .notDeclared => "Only declared rules can be defined"
  | .definedTwice => "Rule defined more than once"
  | .spoiledRule => "Once panicked"
  | .tailInProgress => "lazy list tail forced while it was being computed"
  | .raised text => text

end LazyGrammar

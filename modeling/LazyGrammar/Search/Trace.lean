import LazyGrammar.Rule.Info

/-!
# LazyGrammar.Search.Trace

**Traces of a search**: an event for every use of a rule. A trace that is not being
recorded stays empty, and recording never changes what is found.
-/

namespace LazyGrammar

/-- Something that happened during a search. -/
inductive ParseEvent
  /-- A rule was entered. -/
  | entered (rule : RuleInfo) (consumed depth : Nat)
  /-- A rule was met where it had been entered before, and was not entered. -/
  | leftRecursion (rule : RuleInfo) (consumed depth : Nat)
  deriving DecidableEq, Repr, Inhabited

namespace ParseEvent

/-- The rule that an event is about. -/
def rule : ParseEvent → RuleInfo
  | .entered rule _ _ | .leftRecursion rule _ _ => rule

/-- The position of an event. -/
def consumed : ParseEvent → Nat
  | .entered _ consumed _ | .leftRecursion _ consumed _ => consumed

/-- The number of rules on the way to the rule of the event. -/
def depth : ParseEvent → Nat
  | .entered _ _ depth | .leftRecursion _ _ depth => depth

/-- Whether the event reports left recursion. -/
def isLeftRecursion : ParseEvent → Bool
  | .leftRecursion _ _ _ => true
  | .entered _ _ _ => false

/-- The text of an event. -/
def render : ParseEvent → String
  | .entered rule consumed _ => "Entered " ++ rule.shown ++ " at token " ++ toString consumed
  | .leftRecursion rule consumed _ =>
    "Left recursion into " ++ rule.shown ++ " at token " ++ toString consumed

/-- The text of an event, moved to the right by four blanks for every rule on the way. -/
def renderIndented (e : ParseEvent) : String :=
  String.ofList (List.replicate (e.depth * 4) ' ') ++ e.render

end ParseEvent

/-- The events so far, if they are recorded at all. -/
structure Trace where
  recording : Bool
  log : Array ParseEvent
  deriving DecidableEq, Repr, Inhabited

namespace Trace

/-- A trace that records nothing. -/
def silent : Trace := ⟨false, #[]⟩

/-- A trace that records everything. -/
def recorded : Trace := ⟨true, #[]⟩

/-- The trace after an event. -/
def record (t : Trace) (e : ParseEvent) : Trace :=
  if t.recording then { t with log := t.log.push e } else t

/-- The events in the order in which they happened. -/
def events (t : Trace) : List ParseEvent := t.log.toList

@[simp] theorem record_silent (e : ParseEvent) : silent.record e = silent := rfl

@[simp] theorem events_record_recorded (log : Array ParseEvent) (e : ParseEvent) :
    (Trace.record ⟨true, log⟩ e).events = log.toList ++ [e] := by
  simp [record, events]

end Trace

end LazyGrammar
